import XmipPersist.Library.Components
import XmipPersist.Model.Schema

/-! # What the scripts make

What a database holds of its schema, and what each statement makes of it. A schema made at one
version and upgraded to another holds what the schema made at the other does, the order of its
columns aside.
-/

namespace XmipPersist.Schema

/-! ## What a database holds -/

/-- A table as a database holds it: its columns and its indexes by name. -/
structure Held where
  columns : String → Option (Kind × Bool)
  key : List String
  unique : List String
  indexes : String → Option (List String × Option String)

namespace Statement

/-- The table a statement names. -/
def table : Statement → String
  | createTable table _ _ _ => table
  | addColumn table _ => table
  | createIndex table _ => table
  | insertVersion _ => "schema_version"

/-- What a statement makes of the table it names: nothing where the table, the column or the index
is there already or the table is not, and where a column added to it may not hold nothing. -/
def act (held : Option Held) : Statement → Option (Option Held)
  | createTable _ columns key unique =>
      match held with
      | some _ => none
      | none => ((columns.map fun c => (c.name, c.kind, c.null)).foldlM Named.give
          fun _ => none).map fun columns => some ⟨columns, key, unique, fun _ => none⟩
  | addColumn _ c => do
      let held ← held
      if c.null then
        (Named.give held.columns (c.name, c.kind, c.null)).map fun columns =>
          some { held with columns }
      else none
  | createIndex _ index => do
      let held ← held
      (Named.give held.indexes (index.name, index.columns, index.only)).map fun indexes =>
        some { held with indexes }
  | insertVersion _ => some held

/-- The version a statement records. -/
def version : Statement → Option ℕ
  | insertVersion version => some version
  | _ => none

def isCreate : Statement → Bool
  | createTable _ _ _ _ => true
  | _ => false

end Statement

/-- The tables a script makes in a database that has none, where each of its statements can be
carried out. -/
def makes (statements : List Statement) : Option (String → Option Held) :=
  statements.foldlM (Components.step Statement.table Statement.act) fun _ => none

/-- The versions a script records, in order. -/
def records (statements : List Statement) : List ℕ := statements.filterMap Statement.version

/-! ## What is made of one table -/

variable {server : Server} {table : Table} {from' upto : ℕ}

/-- The columns of a table as they are named in a database. -/
def Column.given (column : Column) : String × Kind × Bool := (column.name, column.kind, column.null)

/-- The indexes of a table as they are named in a database. -/
def indexesGiven (server : Server) (table : Table) (index : Index) :
    List (String × List String × Option String) :=
  (indexed server table index).filterMap fun statement =>
    match statement with
    | .createIndex _ index => some (index.name, index.columns, index.only)
    | _ => none

theorem indexed_eq (server : Server) (table : Table) (index : Index) :
    indexed server table index =
      (indexesGiven server table index).map fun i => .createIndex table.name ⟨i.1, i.2.1, i.2.2⟩ := by
  unfold indexesGiven indexed
  split
  · rfl
  · rfl

theorem indexed_flatMap (server : Server) (table : Table) (indexes : List Index) :
    indexes.flatMap (indexed server table) =
      (indexes.flatMap (indexesGiven server table)).map fun i =>
        .createIndex table.name ⟨i.1, i.2.1, i.2.2⟩ := by
  induction indexes with
  | nil => rfl
  | cons index indexes ih => rw [List.flatMap_cons, List.flatMap_cons, List.map_append, ih, indexed_eq]

theorem act_indexes (name : String) (is : List (String × List String × Option String)) (held : Held) :
    (is.map fun i => Statement.createIndex name ⟨i.1, i.2.1, i.2.2⟩).foldlM Statement.act (some held) =
      (is.foldlM Named.give held.indexes).map fun indexes => some { held with indexes } := by
  induction is generalizing held with
  | nil => rfl
  | cons i is ih =>
      rw [List.map_cons, List.foldlM_cons, List.foldlM_cons]
      cases hgive : Named.give held.indexes i with
      | none => simp [Statement.act, hgive]
      | some indexes => simp [Statement.act, hgive, ih]

theorem act_columns (name : String) {columns : List Column} (hnull : ∀ c ∈ columns, c.null = true)
    (held : Held) :
    (columns.map fun c => Statement.addColumn name c.said).foldlM Statement.act (some held) =
      ((columns.map Column.given).foldlM Named.give held.columns).map fun columns =>
        some { held with columns } := by
  induction columns generalizing held with
  | nil => rfl
  | cons c columns ih =>
      obtain ⟨hc, hnull⟩ := List.forall_mem_cons.mp hnull
      rw [List.map_cons, List.map_cons, List.foldlM_cons, List.foldlM_cons]
      have hadd : Statement.act (some held) (.addColumn name c.said) =
          (Named.give held.columns c.given).map fun columns => some { held with columns } := by
        simp [Statement.act, Column.said, Column.given, hc]
      rw [hadd]
      cases hgive : Named.give held.columns c.given with
      | none => rfl
      | some given => exact ih hnull { held with columns := given }

/-- A table made. -/
theorem act_made (server : Server) (table : Table) (at' : ℕ) :
    (made server table at').foldlM Statement.act none =
      (((table.columns.filter fun c => c.since ≤ at').map Column.given).foldlM Named.give
        fun _ => none).bind fun columns =>
          (((table.indexes.filter fun i => i.since ≤ at').flatMap
            (indexesGiven server table)).foldlM Named.give fun _ => none).map fun indexes =>
              some ⟨columns, table.key, table.unique, indexes⟩ := by
  rw [made, List.foldlM_cons, indexed_flatMap]
  simp only [Statement.act, List.map_map]
  have hgiven : (fun c : ColumnSaid => (c.name, c.kind, c.null)) ∘ Column.said = Column.given := rfl
  rw [hgiven]
  cases ((table.columns.filter fun c => c.since ≤ at').map Column.given).foldlM Named.give
      fun _ => none with
  | none => rfl
  | some columns => exact act_indexes _ _ _

/-- What was added up to one version and then up to a later one is what was added up to that. -/
theorem filter_since_perm {α : Type} (since : α → ℕ) (l : List α) (hle : from' ≤ upto) :
    (l.filter fun a => since a ≤ upto).Perm ((l.filter fun a => since a ≤ from') ++
      l.filter fun a => from' < since a ∧ since a ≤ upto) := by
  have hperm := List.filter_append_perm (fun a => decide (since a ≤ from'))
    (l.filter fun a => since a ≤ upto)
  rw [List.filter_filter, List.filter_filter] at hperm
  refine (hperm.symm.trans (List.Perm.of_eq ?_))
  congr 1
  · refine List.filter_congr fun a _ => ?_
    rw [Bool.eq_iff_iff]
    simp only [Bool.and_eq_true, decide_eq_true_eq]
    omega
  · refine List.filter_congr fun a _ => ?_
    rw [Bool.eq_iff_iff]
    simp only [Bool.and_eq_true, decide_eq_true_eq, Bool.not_eq_true', decide_eq_false_iff_not]
    omega

/-- A table already made, with what was added to it since, is the table made later. -/
theorem act_upgraded (hold : table.since ≤ from') (hle : from' ≤ upto)
    (hnull : ∀ c ∈ table.columns, table.since < c.since → c.null = true) :
    (made server table from' ++ upgraded server from' upto table).foldlM Statement.act none =
      (made server table upto).foldlM Statement.act none := by
  have hadded : ∀ c ∈ table.columns.filter fun c => from' < c.since ∧ c.since ≤ upto,
      c.null = true := by
    intro c hc
    obtain ⟨hmem, hsince⟩ := List.mem_filter.mp hc
    have hsince := of_decide_eq_true hsince
    exact hnull c hmem (by omega)
  have hcolumns := Named.give_perm
    ((filter_since_perm Column.since table.columns hle).map Column.given) fun _ => none
  have hindexes := Named.give_perm
    ((filter_since_perm Index.since table.indexes hle).flatMap_right (indexesGiven server table))
    fun _ => none
  rw [List.map_append, List.foldlM_append] at hcolumns
  rw [List.flatMap_append, List.foldlM_append] at hindexes
  rw [List.foldlM_append, act_made, act_made, hcolumns, hindexes, upgraded, if_neg (by omega),
    if_neg (by omega)]
  cases ((table.columns.filter fun c => c.since ≤ from').map Column.given).foldlM Named.give
      fun _ => none with
  | none => rfl
  | some columns =>
      cases hat : ((table.indexes.filter fun i => i.since ≤ from').flatMap
          (indexesGiven server table)).foldlM Named.give fun _ => none with
      | none =>
          simp only [Option.bind_eq_bind, Option.bind_some, Option.bind_none, Option.map_none]
          cases ((table.columns.filter fun c => from' < c.since ∧ c.since ≤ upto).map
              Column.given).foldlM Named.give columns <;> rfl
      | some indexes =>
          simp only [Option.bind_eq_bind, Option.bind_some, Option.map_some]
          rw [List.foldlM_append, act_columns _ hadded, indexed_flatMap]
          cases ((table.columns.filter fun c => from' < c.since ∧ c.since ≤ upto).map
              Column.given).foldlM Named.give columns with
          | none => rfl
          | some columns' => exact act_indexes _ _ _

/-! ## What is made of one name -/

theorem made_table {s : Statement} {at' : ℕ} (h : s ∈ made server table at') :
    s.table = table.name := by
  rw [made, List.mem_cons, indexed_flatMap] at h
  rcases h with rfl | h
  · rfl
  · obtain ⟨i, -, rfl⟩ := List.mem_map.mp h
    rfl

theorem upgraded_table {s : Statement} (h : s ∈ upgraded server from' upto table) :
    s.table = table.name := by
  unfold upgraded at h
  split at h
  · exact made_table h
  · split at h
    · cases h
    · rw [indexed_flatMap, List.mem_append] at h
      rcases h with h | h
      · obtain ⟨c, -, rfl⟩ := List.mem_map.mp h
        rfl
      · obtain ⟨i, -, rfl⟩ := List.mem_map.mp h
        rfl

/-- Of statements that each name their table, those that name one. -/
theorem filter_flatMap {tables : List Table} {f : Table → List Statement}
    (hf : ∀ table, ∀ s ∈ f table, s.table = table.name) (name : String) :
    (tables.flatMap f).filter (·.table = name) =
      (tables.filter (·.name = name)).flatMap f := by
  induction tables with
  | nil => rfl
  | cons table tables ih =>
      rw [List.flatMap_cons, List.filter_append, ih]
      by_cases hname : table.name = name
      · rw [List.filter_cons_of_pos (by simpa using hname), List.flatMap_cons,
          List.filter_eq_self.mpr fun s hs => by simp [hf table s hs, hname]]
      · rw [List.filter_cons_of_neg (by simpa using hname),
          List.filter_eq_nil_iff.mpr fun s hs => by simp [hf table s hs, hname], List.nil_append]

/-- Recording versions leaves every table. -/
theorem act_recorded {statements : List Statement} (h : ∀ s ∈ statements, s.version.isSome)
    (held : Option Held) : statements.foldlM Statement.act held = some held := by
  induction statements with
  | nil => rfl
  | cons s statements ih =>
      obtain ⟨hs, hrest⟩ := List.forall_mem_cons.mp h
      cases s with
      | insertVersion version => exact ih hrest
      | _ => cases hs

theorem recorded_version {s : Statement} (h : s ∈ recorded from' upto) : s.version.isSome := by
  obtain ⟨v, -, rfl⟩ := List.mem_map.mp h
  rfl

/-- A table that is there is not made again. -/
theorem act_held {statements : List Statement} {held : Held} {after : Option Held}
    (h : statements.foldlM Statement.act (some held) = some after) :
    statements.countP Statement.isCreate = 0 := by
  induction statements generalizing held with
  | nil => rfl
  | cons s statements ih =>
      rw [List.foldlM_cons, Option.bind_eq_bind, Option.bind_eq_some_iff] at h
      obtain ⟨next, hs, hrest⟩ := h
      have hsome : ∃ held', next = some held' ∧ s.isCreate = false := by
        cases s with
        | createTable name columns key unique => cases hs
        | insertVersion version => exact ⟨held, (Option.some.inj hs).symm, rfl⟩
        | addColumn name c =>
            simp only [Statement.act, Option.bind_eq_bind, Option.bind_some] at hs
            split at hs
            · obtain ⟨columns, -, rfl⟩ := Option.map_eq_some_iff.mp hs
              exact ⟨_, rfl, rfl⟩
            · cases hs
        | createIndex name index =>
            simp only [Statement.act, Option.bind_eq_bind, Option.bind_some] at hs
            obtain ⟨indexes, -, rfl⟩ := Option.map_eq_some_iff.mp hs
            exact ⟨_, rfl, rfl⟩
      obtain ⟨held', rfl, hcreate⟩ := hsome
      rw [List.countP_cons_of_neg (by simp [hcreate])]
      exact ih hrest

/-- A table is made once. -/
theorem act_none {statements : List Statement} {after : Option Held}
    (h : statements.foldlM Statement.act none = some after) :
    statements.countP Statement.isCreate ≤ 1 := by
  induction statements with
  | nil => exact Nat.zero_le 1
  | cons s statements ih =>
      rw [List.foldlM_cons, Option.bind_eq_bind, Option.bind_eq_some_iff] at h
      obtain ⟨next, hs, hrest⟩ := h
      cases s with
      | createTable name columns key unique =>
          simp only [Statement.act] at hs
          obtain ⟨given, -, rfl⟩ := Option.map_eq_some_iff.mp hs
          rw [List.countP_cons_of_pos rfl, act_held hrest]
      | insertVersion version =>
          obtain rfl := Option.some.inj hs
          rw [List.countP_cons_of_neg (by simp [Statement.isCreate])]
          exact ih hrest
      | addColumn name c => cases hs
      | createIndex name index => cases hs

theorem act_twice {statements : List Statement} (h : 2 ≤ statements.countP Statement.isCreate) :
    statements.foldlM Statement.act none = none := by
  cases hrun : statements.foldlM Statement.act none with
  | none => rfl
  | some after =>
      have hle := act_none hrun
      omega

/-! ## A schema made and upgraded -/

theorem isCreate_made (server : Server) (table : Table) (at' : ℕ) :
    (made server table at').countP Statement.isCreate = 1 := by
  have hindexes : ∀ s ∈ (table.indexes.filter fun i => i.since ≤ at').flatMap
      (indexed server table), ¬s.isCreate = true := by
    intro s hs
    rw [indexed_flatMap] at hs
    obtain ⟨i, -, rfl⟩ := List.mem_map.mp hs
    simp [Statement.isCreate]
  rw [made, List.countP_cons_of_pos rfl, List.countP_eq_zero.mpr hindexes]

theorem isCreate_upgraded (server : Server) {table : Table} (hle : table.since ≤ upto) :
    (upgraded server from' upto table).countP Statement.isCreate =
      if table.since ≤ from' then 0 else 1 := by
  unfold upgraded
  by_cases hnew : from' < table.since ∧ table.since ≤ upto
  · rw [if_pos hnew, if_neg (by omega), isCreate_made]
  · rw [if_neg hnew, if_neg (by omega), if_pos (by omega), List.countP_eq_zero]
    intro s hs
    rw [indexed_flatMap, List.mem_append] at hs
    rcases hs with hs | hs
    · obtain ⟨c, -, rfl⟩ := List.mem_map.mp hs
      simp [Statement.isCreate]
    · obtain ⟨i, -, rfl⟩ := List.mem_map.mp hs
      simp [Statement.isCreate]

theorem upgraded_later (server : Server) {table : Table} (h : upto < table.since) :
    upgraded server from' upto table = [] := by
  rw [upgraded, if_neg (by omega), if_pos h]

/-- Of tables that are there at a version, what an upgrade to it makes. -/
theorem flatMap_upgraded (server : Server) (tables : List Table) :
    tables.flatMap (upgraded server from' upto) =
      (tables.filter fun t => t.since ≤ upto).flatMap (upgraded server from' upto) := by
  induction tables with
  | nil => rfl
  | cons table tables ih =>
      rw [List.flatMap_cons, ih]
      by_cases hle : table.since ≤ upto
      · rw [List.filter_cons_of_pos (by simpa using hle), List.flatMap_cons]
      · rw [List.filter_cons_of_neg (by simpa using hle), upgraded_later server (by omega),
          List.nil_append]

/-- Each table that is there at the later version is made once, at one or the other. -/
theorem isCreate_both (server : Server) {tables : List Table}
    (htables : ∀ t ∈ tables, t.since ≤ upto) :
    ((tables.filter fun t => t.since ≤ from').flatMap (made server · from') ++
      tables.flatMap (upgraded server from' upto)).countP Statement.isCreate = tables.length := by
  induction tables with
  | nil => rfl
  | cons table tables ih =>
      obtain ⟨htable, htables⟩ := List.forall_mem_cons.mp htables
      have hih := ih htables
      rw [List.countP_append] at hih ⊢
      rw [List.flatMap_cons, List.countP_append, isCreate_upgraded server htable, List.length_cons]
      by_cases hold : table.since ≤ from'
      · rw [List.filter_cons_of_pos (by simpa using hold), List.flatMap_cons, List.countP_append,
          isCreate_made, if_pos hold]
        omega
      · rw [List.filter_cons_of_neg (by simpa using hold), if_neg hold]
        omega

theorem isCreate_all (server : Server) (tables : List Table) (at' : ℕ) :
    (tables.flatMap (made server · at')).countP Statement.isCreate = tables.length := by
  induction tables with
  | nil => rfl
  | cons table tables ih =>
      rw [List.flatMap_cons, List.countP_append, isCreate_made, ih, List.length_cons]
      omega

/-- What is made of the tables of one name. -/
theorem act_tables (server : Server) {tables : List Table} (hle : from' ≤ upto)
    (hnull : ∀ t ∈ tables, ∀ c ∈ t.columns, t.since < c.since → c.null = true) :
    ((tables.filter fun t => t.since ≤ from').flatMap (made server · from') ++
        tables.flatMap (upgraded server from' upto)).foldlM Statement.act none =
      ((tables.filter fun t => t.since ≤ upto).flatMap (made server · upto)).foldlM
        Statement.act none := by
  have hfrom : (tables.filter fun t => t.since ≤ from') =
      (tables.filter fun t => t.since ≤ upto).filter fun t => t.since ≤ from' := by
    rw [List.filter_filter]
    refine List.filter_congr fun t _ => ?_
    rw [Bool.eq_iff_iff]
    simp only [Bool.and_eq_true, decide_eq_true_eq]
    omega
  rw [flatMap_upgraded, hfrom]
  have hthere : ∀ t ∈ tables.filter fun t => t.since ≤ upto, t.since ≤ upto := by
    intro t ht
    simpa using (List.mem_filter.mp ht).2
  have hnull' : ∀ t ∈ tables.filter fun t => t.since ≤ upto,
      ∀ c ∈ t.columns, t.since < c.since → c.null = true :=
    fun t ht => hnull t (List.mem_filter.mp ht).1
  generalize (tables.filter fun t => t.since ≤ upto) = there at hthere hnull' ⊢
  match there with
  | [] => rfl
  | [table] =>
      have htable : table.since ≤ upto := hthere table List.mem_cons_self
      by_cases hold : table.since ≤ from'
      · have hupgraded : (made server table from' ++ upgraded server from' upto table).foldlM
            Statement.act none = (made server table upto).foldlM Statement.act none :=
          act_upgraded hold hle (hnull' table List.mem_cons_self)
        simpa [hold] using hupgraded
      · have hmade : upgraded server from' upto table = made server table upto := by
          rw [upgraded, if_pos (by omega)]
        simp [hold, hmade]
  | first :: second :: rest =>
      rw [act_twice, act_twice]
      · rw [isCreate_all]
        simp
      · rw [isCreate_both server hthere]
        simp

theorem filter_recorded (name : String) (held : Option Held) :
    ((recorded from' upto).filter (·.table = name)).foldlM Statement.act held = some held :=
  act_recorded (fun _ hs => recorded_version (List.mem_filter.mp hs).1) held

variable {tables : List Table} {built : ℕ}

/-- A column added to a table already made may hold nothing. -/
theorem null_of_problems (h : problems tables built = []) :
    ∀ t ∈ tables, ∀ c ∈ t.columns, t.since < c.since → c.null = true := by
  intro t ht c hc hsince
  have htable := List.flatMap_eq_nil_iff.mp h t ht
  have hcolumn := List.flatMap_eq_nil_iff.mp
    (List.append_eq_nil_iff.mp (List.append_eq_nil_iff.mp htable).1).2 c hc
  have hnull := (List.append_eq_nil_iff.mp (List.append_eq_nil_iff.mp hcolumn).1).2
  by_contra hfalse
  rw [if_pos ⟨hsince, by simpa using hfalse⟩] at hnull
  cases hnull

/-- The schema made at one version and upgraded makes the tables of the schema made at the
other. -/
theorem makes_upgraded (h : problems tables built = []) (server : Server) (database : Database)
    (hle : from' ≤ upto) :
    makes (tablesAt tables server database from' ++ script tables server database from' upto) =
      makes (tablesAt tables server database upto) := by
  refine Components.run_congr fun name => ?_
  have hmade : ∀ at', (tablesAt tables server database at').filter (·.table = name) =
      (((tables.filter fun t => t.database = database).filter fun t => t.name = name).filter
          fun t => t.since ≤ at').flatMap (made server · at') ++
        (recorded (at' - 1) at').filter (·.table = name) := by
    intro at'
    rw [tablesAt, List.filter_append, filter_flatMap fun table s hs => made_table hs]
    congr 2
    rw [List.filter_filter, List.filter_filter, List.filter_filter]
    refine List.filter_congr fun t _ => ?_
    rw [Bool.eq_iff_iff]
    simp only [Bool.and_eq_true, decide_eq_true_eq]
    tauto
  have hupgraded : (script tables server database from' upto).filter (·.table = name) =
      ((tables.filter fun t => t.database = database).filter fun t => t.name = name).flatMap
          (upgraded server from' upto) ++
        (recorded from' upto).filter (·.table = name) := by
    rw [script, List.filter_append, filter_flatMap fun table s hs => upgraded_table hs]
  rw [List.filter_append, hmade, hmade, hupgraded]
  have hnull : ∀ t ∈ (tables.filter fun t => t.database = database).filter fun t => t.name = name,
      ∀ c ∈ t.columns, t.since < c.since → c.null = true := fun t ht =>
    null_of_problems h t (List.mem_filter.mp (List.mem_filter.mp ht).1).1
  have hact := act_tables server hle hnull
  generalize (tables.filter fun t => t.database = database).filter (fun t => t.name = name) = named
    at hact ⊢
  simp only [filter_recorded, Option.bind_eq_bind, List.foldlM_append] at hact ⊢
  rw [← hact]
  cases (((named.filter fun t => t.since ≤ from').flatMap (made server · from')).foldlM
      Statement.act none) with
  | none => rfl
  | some held => cases (named.flatMap (upgraded server from' upto)).foldlM Statement.act held <;> rfl

theorem makes_append (first second : List Statement) :
    makes (first ++ second) = (makes first).bind fun held =>
      second.foldlM (Components.step Statement.table Statement.act) held := by
  rw [makes, List.foldlM_append]
  rfl

/-- An upgrade and another after it make what one upgrade does. -/
theorem makes_composed (h : problems tables built = []) (server : Server) (database : Database)
    {between : ℕ} (hfrom : from' ≤ between) (hupto : between ≤ upto) :
    makes (tablesAt tables server database from' ++
        (script tables server database from' between ++
          script tables server database between upto)) =
      makes (tablesAt tables server database from' ++ script tables server database from' upto) := by
  have hfirst := makes_upgraded h server database hfrom
  have hsecond := makes_upgraded h server database hupto
  rw [makes_append] at hsecond
  rw [← List.append_assoc, makes_append, hfirst, hsecond,
    makes_upgraded h server database (hfrom.trans hupto)]

/-! ## What is recorded -/

theorem records_flatMap {f : Table → List Statement}
    (hf : ∀ table, ∀ s ∈ f table, s.version = none) (tables : List Table) :
    records (tables.flatMap f) = [] := by
  rw [records, List.filterMap_eq_nil_iff]
  intro s hs
  obtain ⟨table, -, hmem⟩ := List.mem_flatMap.mp hs
  exact hf table s hmem

theorem indexed_version {index : Index} {s : Statement} (h : s ∈ indexed server table index) :
    s.version = none := by
  rw [indexed_eq] at h
  obtain ⟨i, -, rfl⟩ := List.mem_map.mp h
  rfl

theorem upgraded_version {s : Statement} (h : s ∈ upgraded server from' upto table) :
    s.version = none := by
  have hindexes : ∀ indexes : List Index, s ∈ indexes.flatMap (indexed server table) →
      s.version = none := by
    intro indexes hs
    obtain ⟨index, -, hmem⟩ := List.mem_flatMap.mp hs
    exact indexed_version hmem
  unfold upgraded at h
  split at h
  · rw [made, List.mem_cons] at h
    rcases h with rfl | h
    · rfl
    · exact hindexes _ h
  · split at h
    · cases h
    · rcases List.mem_append.mp h with h | h
      · obtain ⟨c, -, rfl⟩ := List.mem_map.mp h
        rfl
      · exact hindexes _ h

/-- An upgrade records each version after the first, once. -/
theorem records_script (tables : List Table) (server : Server) (database : Database) :
    records (script tables server database from' upto) =
      List.range' (from' + 1) (upto - from') := by
  have hnone : records ((tables.filter fun t => t.database = database).flatMap
      (upgraded server from' upto)) = [] :=
    records_flatMap (fun _ _ hs => upgraded_version hs) _
  rw [records] at hnone
  rw [records, script, List.filterMap_append, hnone, List.nil_append, recorded,
    List.filterMap_map]
  exact List.filterMap_some

/-! ## What a version's fingerprint is taken of -/

/-- A list another is got from by putting in what is `later`, anywhere, the rest kept as `kept`
allows. -/
inductive Grown {α : Type} (kept : α → α → Prop) (later : α → Prop) : List α → List α → Prop
  | nil : Grown kept later [] []
  | kept {a a' : α} {l l' : List α} : kept a a' → Grown kept later l l' →
      Grown kept later (a :: l) (a' :: l')
  | added {a : α} {l l' : List α} : later a → Grown kept later l l' → Grown kept later l (a :: l')

/-- A table to which columns and indexes of later versions are added. -/
structure Table.Grows (version : ℕ) (table table' : Table) : Prop where
  database : table'.database = table.database
  name : table'.name = table.name
  since : table'.since = table.since
  key : table'.key = table.key
  unique : table'.unique = table.unique
  columns : Grown Eq (version < Column.since ·) table.columns table'.columns
  indexes : Grown Eq (version < Index.since ·) table.indexes table'.indexes

theorem Grown.filter {α : Type} {since : α → ℕ} {version : ℕ} {l l' : List α}
    (h : Grown Eq (version < since ·) l l') :
    (l'.filter fun a => since a ≤ version) = l.filter fun a => since a ≤ version := by
  induction h with
  | nil => rfl
  | kept hsame _ ih => rw [← hsame, List.filter_cons, List.filter_cons, ih]
  | added hlater _ ih => rw [List.filter_cons_of_neg (by simpa using hlater), ih]

variable {version : ℕ} {tables' : List Table}

theorem Table.Grows.fingerprinted {table table' : Table} (h : table.Grows version table')
    (debug : String → String) :
    table'.fingerprinted debug version = table.fingerprinted debug version := by
  rw [Table.fingerprinted, Table.fingerprinted, h.database, h.name, h.key, h.unique,
    h.columns.filter, h.indexes.filter]

/-- A schema's fingerprint at a version is kept by what later versions add. -/
theorem fingerprint_grown (debug : String → String) (sha : String → List UInt8)
    (h : Grown (Table.Grows version) (version < Table.since ·) tables tables') :
    fingerprint debug sha tables' version = fingerprint debug sha tables version := by
  have hmap : ((tables'.filter fun t => t.since ≤ version).map (Table.fingerprinted debug · version)) =
      (tables.filter fun t => t.since ≤ version).map (Table.fingerprinted debug · version) := by
    induction h with
    | nil => rfl
    | kept hgrows _ ih =>
        rw [List.filter_cons, List.filter_cons, hgrows.since]
        split
        · rw [List.map_cons, List.map_cons, ih, hgrows.fingerprinted]
        · exact ih
    | added hlater _ ih => rw [List.filter_cons_of_neg (by simpa using hlater), ih]
  rw [fingerprint, fingerprint, hmap]

/-! ## Upgrades -/

/-- The scripts an operator is given are of versions in order, and each makes of its database at the
one what it is at the other. -/
theorem upgradeOf_made {server : Server} {from' upto : ℕ}
    {scripts : List (Database × List Statement)}
    (h : upgradeOf tables built server from' upto = .ok scripts) :
    (1 ≤ from' ∧ from' < upto ∧ upto ≤ built) ∧ ∀ made ∈ scripts,
      makes (tablesAt tables server made.1 from' ++ made.2) =
        makes (tablesAt tables server made.1 upto) := by
  unfold upgradeOf at h
  split at h
  · cases h
  · next hversions =>
      split at h
      · cases h
      · next hproblems =>
          obtain rfl := Except.ok.inj h
          refine ⟨by omega, fun made hmade => ?_⟩
          obtain ⟨database, -, rfl⟩ := List.mem_map.mp hmade
          exact makes_upgraded (not_not.mp hproblems) server database (by omega)

/-- What the upgrades of a definition come to, of each database on each server. -/
structure Upgrades (tables : List Table) (server : Server) (database : Database) : Prop where
  upgraded : ∀ from' upto, from' ≤ upto →
    makes (tablesAt tables server database from' ++ script tables server database from' upto) =
      makes (tablesAt tables server database upto)
  composed : ∀ from' between upto, from' ≤ between → between ≤ upto →
    makes (tablesAt tables server database from' ++
        (script tables server database from' between ++
          script tables server database between upto)) =
      makes (tablesAt tables server database from' ++ script tables server database from' upto)
  recorded : ∀ from' between upto, from' ≤ between → between ≤ upto →
    records (script tables server database from' between ++
        script tables server database between upto) =
      List.range' (from' + 1) (upto - from')
  fingerprinted : ∀ debug sha version tables',
    Grown (Table.Grows version) (version < Table.since ·) tables tables' →
      fingerprint debug sha tables' version = fingerprint debug sha tables version

/-- A schema made at one version and upgraded to another is the schema made at the other, in one
upgrade or in two, each version recorded once; and what is added later leaves a version's
fingerprint. -/
theorem upgrades_make (h : problems tables built = []) (server : Server) (database : Database) :
    Upgrades tables server database := by
  refine ⟨fun _ _ => makes_upgraded h server database,
    fun _ _ _ => makes_composed h server database, fun from' between upto hfrom hupto => ?_,
    fun debug sha _ _ => fingerprint_grown debug sha⟩
  have hfirst : records (script tables server database from' between) = _ := records_script ..
  have hsecond : records (script tables server database between upto) = _ := records_script ..
  have hbetween : between + 1 = from' + 1 + (between - from') := by omega
  have hlength : upto - from' = between - from' + (upto - between) := by omega
  rw [records, List.filterMap_append]
  change records _ ++ records _ = _
  rw [hfirst, hsecond, hlength, hbetween, ← List.range'_append_1]

/-- A Party's table, with a column added at version 2, and its contacts' at version 3. -/
def releases : List Table :=
  [{ database := .administration, name := "party", since := 1,
      columns := [⟨"party", .identifier, false, 1⟩, ⟨"name", .text, false, 1⟩,
        ⟨"country", .word, true, 2⟩],
      key := ["party"], unique := [], indexes := [⟨90, "party_name", ["name"], none, 1⟩] },
    { database := .administration, name := "party_contact", since := 3,
      columns := [⟨"party", .identifier, false, 3⟩, ⟨"contact", .text, false, 3⟩],
      key := ["party", "contact"], unique := [], indexes := [] }]

theorem upgrades_make_releases : Upgrades releases .mariaDb .administration :=
  upgrades_make (show problems releases 3 = [] by decide) .mariaDb .administration

example : (makes (tablesAt releases .mariaDb .administration 3)).isSome = true := by decide

end XmipPersist.Schema
