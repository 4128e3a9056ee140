import XmipPersist.Verification.Schema.Upgrade

/-! # Schemas that name the columns they have

What a definition is checked for is told column by column and index by index. No check asks
whether a key or an index names a column at all, or one as old as the index.
-/

namespace XmipPersist.Schema

/-- The columns a table has at a version. -/
def Table.columnsAt (table : Table) (at' : ℕ) : List String :=
  (table.columns.filter fun column => column.since ≤ at').map Column.name

/-- The columns an index names. -/
def Index.named (index : Index) : List String := index.columns ++ index.only.toList

/-- The columns a statement names besides those it makes. -/
def Statement.names : Statement → List String
  | createTable _ _ key unique => key ++ unique
  | addColumn _ _ => []
  | createIndex _ index => index.columns ++ index.only.toList
  | insertVersion _ => []

/-- A table that has every column its keys and its indexes name at a version, and whose scripts
name no other, made at the version or brought to it. -/
structure Table.WellFormed (table : Table) (at' : ℕ) : Prop where
  key : ∀ name ∈ table.key, name ∈ table.columnsAt at'
  unique : ∀ name ∈ table.unique, name ∈ table.columnsAt at'
  indexes : ∀ index ∈ table.indexes, index.since ≤ at' →
    ∀ name ∈ index.named, name ∈ table.columnsAt at'
  made : ∀ server, ∀ s ∈ made server table at', ∀ name ∈ s.names, name ∈ table.columnsAt at'
  upgraded : ∀ server from', ∀ s ∈ upgraded server from' at' table,
    ∀ name ∈ s.names, name ∈ table.columnsAt at'

variable {table : Table} {at' built : ℕ} {tables : List Table}

theorem mem_columnsAt {name : String} :
    name ∈ table.columnsAt at' ↔ ∃ c ∈ table.columns, c.since ≤ at' ∧ c.name = name := by
  simp only [Table.columnsAt, List.mem_map, List.mem_filter, decide_eq_true_eq, and_assoc]

/-- An index's statement names what the index does. -/
theorem indexed_names {server : Server} {index : Index} {s : Statement}
    (h : s ∈ indexed server table index) : ∀ name ∈ s.names, name ∈ index.named := by
  unfold indexed at h
  split at h
  · cases h
  · intro name hname
    obtain rfl := List.mem_singleton.mp h
    cases server <;> simp_all [Statement.names, Index.named]

/-- What is asked of a table's keys and indexes holds of the scripts that write them. -/
theorem Table.WellFormed.of_named (hkey : ∀ name ∈ table.key, name ∈ table.columnsAt at')
    (hunique : ∀ name ∈ table.unique, name ∈ table.columnsAt at')
    (hindexes : ∀ index ∈ table.indexes, index.since ≤ at' →
      ∀ name ∈ index.named, name ∈ table.columnsAt at') : table.WellFormed at' := by
  have hall : ∀ (server : Server) (indexes : List Index),
      (∀ index ∈ indexes, index ∈ table.indexes ∧ index.since ≤ at') →
        ∀ s ∈ indexes.flatMap (indexed server table), ∀ name ∈ s.names,
          name ∈ table.columnsAt at' := by
    intro server indexes hin s hs name hname
    obtain ⟨index, hindex, hs⟩ := List.mem_flatMap.mp hs
    obtain ⟨hmem, hsince⟩ := hin index hindex
    exact hindexes index hmem hsince name (indexed_names hs name hname)
  have hmade : ∀ server, ∀ s ∈ Schema.made server table at', ∀ name ∈ s.names,
      name ∈ table.columnsAt at' := by
    intro server s hs name hname
    rcases List.mem_cons.mp hs with rfl | hs
    · rcases List.mem_append.mp hname with hname | hname
      · exact hkey name hname
      · exact hunique name hname
    · exact hall server _ (fun index hindex => by simpa using List.mem_filter.mp hindex) s hs name
        hname
  refine ⟨hkey, hunique, hindexes, hmade, fun server from' s hs name hname => ?_⟩
  unfold Schema.upgraded at hs
  split at hs
  · exact hmade server s hs name hname
  · split at hs
    · cases hs
    · rcases List.mem_append.mp hs with hs | hs
      · obtain ⟨c, -, rfl⟩ := List.mem_map.mp hs
        cases hname
      · refine hall server _ (fun index hindex => ?_) s hs name hname
        obtain ⟨hmem, hsince⟩ := List.mem_filter.mp hindex
        exact ⟨hmem, (of_decide_eq_true hsince).2⟩

/-! ## What the check tells -/

/-- A definition in which nothing is wrong, table by table. -/
structure Table.Checked (built : ℕ) (table : Table) : Prop where
  since : 1 ≤ table.since ∧ table.since ≤ built
  columns : ∀ c ∈ table.columns, table.since ≤ c.since
  indexes : ∀ i ∈ table.indexes, i.since ≤ table.since

theorem checked_of_problems (h : problems tables built = []) :
    ∀ table ∈ tables, table.Checked built := by
  intro table htable
  obtain ⟨hfront, hindexes⟩ := List.append_eq_nil_iff.mp (List.flatMap_eq_nil_iff.mp h table htable)
  obtain ⟨hversions, hcolumns⟩ := List.append_eq_nil_iff.mp hfront
  refine ⟨?_, fun c hc => ?_, fun i hi => ?_⟩
  · by_contra hsince
    rw [if_pos ⟨table.since, List.mem_cons_self, by omega⟩] at hversions
    cases hversions
  · have hcolumn := List.flatMap_eq_nil_iff.mp hcolumns c hc
    have holder := (List.append_eq_nil_iff.mp (List.append_eq_nil_iff.mp hcolumn).1).1
    by_contra hlt
    rw [if_pos (by omega)] at holder
    cases holder
  · have hindex := List.flatMap_eq_nil_iff.mp hindexes i hi
    by_contra hlt
    rw [indexProblems, if_pos (by omega)] at hindex
    cases hindex

/-- The names a table's keys and indexes say. -/
def Table.named (table : Table) : List String :=
  table.key ++ table.unique ++ table.indexes.flatMap Index.named

/-- Where nothing is wrong with a definition, it is well formed at every version just where each
name its keys and indexes say is that of a column as old as its table. -/
theorem wellFormed_iff (h : problems tables built = []) :
    (∀ at', 1 ≤ at' → at' ≤ built → ∀ table ∈ tables, table.since ≤ at' → table.WellFormed at') ↔
      ∀ table ∈ tables, ∀ name ∈ table.named,
        ∃ c ∈ table.columns, c.name = name ∧ c.since = table.since := by
  constructor
  · intro hall table htable name hname
    have hchecked := checked_of_problems h table htable
    have hformed := hall table.since hchecked.since.1 hchecked.since.2 table htable le_rfl
    have hcolumn : name ∈ table.columnsAt table.since := by
      rcases List.mem_append.mp hname with hname | hname
      · rcases List.mem_append.mp hname with hname | hname
        · exact hformed.key name hname
        · exact hformed.unique name hname
      · obtain ⟨index, hindex, hname⟩ := List.mem_flatMap.mp hname
        exact hformed.indexes index hindex (hchecked.indexes index hindex) name hname
    obtain ⟨c, hc, hsince, rfl⟩ := mem_columnsAt.mp hcolumn
    exact ⟨c, hc, rfl, le_antisymm hsince (hchecked.columns c hc)⟩
  · intro hnamed at' _ _ table htable hsince
    have hat : ∀ name ∈ table.named, name ∈ table.columnsAt at' := by
      intro name hname
      obtain ⟨c, hc, hcname, hcsince⟩ := hnamed table htable name hname
      exact mem_columnsAt.mpr ⟨c, hc, by omega, hcname⟩
    refine .of_named (fun name hname => hat name ?_) (fun name hname => hat name ?_)
      fun index hindex _ name hname => hat name ?_
    · exact List.mem_append_left _ (List.mem_append_left _ hname)
    · exact List.mem_append_left _ (List.mem_append_right _ hname)
    · exact List.mem_append_right _ (List.mem_flatMap.mpr ⟨index, hindex, hname⟩)

theorem wellFormed_iff_releases :
    (∀ at', 1 ≤ at' → at' ≤ 3 → ∀ table ∈ releases, table.since ≤ at' → table.WellFormed at') ∧
      ∀ table ∈ releases, ∀ name ∈ table.named,
        ∃ c ∈ table.columns, c.name = name ∧ c.since = table.since := by
  have hnamed : ∀ table ∈ releases, ∀ name ∈ table.named,
      ∃ c ∈ table.columns, c.name = name ∧ c.since = table.since := by decide
  have hproblems : problems releases 3 = [] := by decide
  exact ⟨(wellFormed_iff hproblems).mpr hnamed, hnamed⟩

/-- A Party's table searched by its country, which version 2 adds. -/
def searchedEarly : Table where
  database := .administration
  name := "party"
  since := 1
  columns := [⟨"party", .identifier, false, 1⟩, ⟨"country", .word, true, 2⟩]
  key := ["party"]
  unique := []
  indexes := [⟨90, "party_country", ["country"], none, 1⟩]

/-- Nothing is found wrong with it, and at version 1 its index names a column there is not. -/
theorem searchedEarly_unformed :
    problems [searchedEarly] 2 = [] ∧
      ¬∀ at', 1 ≤ at' → at' ≤ 2 → ∀ table ∈ [searchedEarly], table.since ≤ at' →
        table.WellFormed at' := by
  refine ⟨by decide, fun hall => ?_⟩
  have hformed := hall 1 le_rfl (by decide) searchedEarly List.mem_cons_self le_rfl
  have hcountry := hformed.indexes _ List.mem_cons_self le_rfl "country" (by decide)
  exact absurd hcountry (by decide)

end XmipPersist.Schema
