import XmipPersist.Library.Indexed
import XmipPersist.Verification.Index.Key
import XmipPersist.Verification.Queue.Orderly

/-! # The index entries a store keeps are those of its records

Each change of a batch takes out the entries of the record it replaces and sets its own, and no
two places of a store share a key. So what is written with a batch is exact where what it is
written over is.
-/

namespace XmipPersist

/-! ## A record's entries -/

/-- The index entries of the record kept at a place. -/
def entriesAt (p : Place) (content : Content) : List (IndexKey × ℕ) :=
  match Searched.of p.1 with
  | none => []
  | some searched =>
      match searched.row content with
      | .ok (row, id) => (entries searched row id).map fun key => (key, id)
      | .error _ => []

/-- One entry of a record, and what it is made of. -/
structure Entered (p : Place) (content : Content) (key : IndexKey) (searched : Searched)
    (row : Row) (index : Index) (values : List Value) (id : ℕ) : Prop where
  table : Searched.of p.1 = some searched
  laid : searched.row content = .ok (row, id)
  mem : index ∈ searched.indexes
  takes : index.takes row
  holds : row.values index.columns = some values
  told : key = index.key values id

theorem mem_entriesAt {p : Place} {content : Content} {key : IndexKey} {id : ℕ} :
    (key, id) ∈ entriesAt p content ↔
      ∃ searched row index values, Entered p content key searched row index values id := by
  unfold entriesAt
  constructor
  · intro h
    cases htable : Searched.of p.1 with
    | none => simp [htable] at h
    | some searched =>
        cases hrow : searched.row content with
        | error e => simp [htable, hrow] at h
        | ok found =>
            simp only [htable, hrow, List.mem_map] at h
            obtain ⟨k, hk, he⟩ := h
            obtain ⟨rfl, rfl⟩ := Prod.mk.inj he
            obtain ⟨index, hindex, htakes, values, hvalues, hkey⟩ := mem_entries.mp hk
            exact ⟨searched, found.1, index, values, htable, hrow, hindex, htakes, hvalues, hkey⟩
  · rintro ⟨searched, row, index, values, h⟩
    simp only [h.table, h.laid]
    refine List.mem_map.mpr ⟨key, mem_entries.mpr ?_, rfl⟩
    exact ⟨index, h.mem, h.takes, values, h.holds, h.told⟩

/-! ## Within their bounds -/

/-- The keys of the entries of the indexes of these numbers. -/
def keysOf (numbers : Set ℕ) : Set IndexKey := {key | ∃ n ∈ numbers, key.head? = some n}

/-- The columns of the indexes of these numbers. -/
def columnsOf (numbers : Set ℕ) : Set Column :=
  {column | ∃ searched : Searched, ∃ index ∈ searched.indexes,
    index.number ∈ numbers ∧ column ∈ index.columns}

theorem columnsOf_index {searched : Searched} {index : Index} (h : index ∈ searched.indexes) :
    columnsOf {index.number} ⊆ {column | column ∈ index.columns} := by
  rintro column ⟨searched', index', hindex, hnumber, hcolumn⟩
  obtain ⟨rfl, rfl⟩ := Searched.index_unique hindex h hnumber
  exact hcolumn

/-- A queue's places, the next of them a number of 64 bits. -/
def Content.Counted : Content → Prop
  | .places kept => kept.next ≤ u64Max
  | _ => True

/-- A record within its bounds: a queue's next place, and a searchable record's identifier and
its values in `columns`. -/
structure Content.Fits (columns : Set Column) (kind : Kind) (content : Content) : Prop where
  counted : content.Counted
  laid : ∀ searched row id, Searched.of kind = some searched →
    searched.row content = .ok (row, id) →
      id < 256 ^ 16 ∧ ∀ cell ∈ row, cell.1 ∈ columns → ∀ v ∈ cell.2, v.Fits

instance (content : Content) : Decidable content.Counted :=
  match content with
  | .places kept => inferInstanceAs (Decidable (kept.next ≤ u64Max))
  | .chunk _ | .stream _ | .message _ | .journey _ | .claim _ | .audit _ | .held _ | .dead _
  | .failed _ | .duePlaces _ | .origin _ | .processInstance _ | .instanceKey _ | .keptAudit _
  | .keptStream _ | .chainHead _ | .body _ | .administration _ | .secret _ | .digest _
  | .number _ | .nothing | .torn _ | .broken _ => .isTrue trivial

theorem Content.fits_of_unlaid {columns : Set Column} {kind : Kind} {content : Content}
    (h : ∀ searched, Searched.of kind = some searched → ∃ e, searched.row content = .error e)
    (hcounted : content.Counted) : content.Fits columns kind := by
  refine ⟨hcounted, fun searched row id htable hrow => ?_⟩
  obtain ⟨e, he⟩ := h searched htable
  rw [he] at hrow
  cases hrow

theorem Content.fits_iff_of_laid {columns : Set Column} {kind : Kind} {content : Content}
    {searched : Searched} (htable : Searched.of kind = some searched) {row : Row} {id : ℕ}
    (hrow : searched.row content = .ok (row, id)) :
    (content.Counted ∧ id < 256 ^ 16 ∧
        ∀ cell ∈ row, cell.1 ∈ columns → ∀ v ∈ cell.2, v.Fits) ↔ content.Fits columns kind := by
  constructor
  · rintro ⟨hcounted, hlaid⟩
    refine ⟨hcounted, fun searched' row' id' htable' hrow' => ?_⟩
    obtain rfl := Option.some.inj (htable.symm.trans htable')
    obtain ⟨rfl, rfl⟩ := Prod.mk.inj (Except.ok.inj (hrow.symm.trans hrow'))
    exact hlaid
  · intro h
    exact ⟨h.counted, h.laid searched row id htable hrow⟩

instance (columns : Set Column) [DecidablePred (· ∈ columns)] (kind : Kind) (content : Content) :
    Decidable (content.Fits columns kind) :=
  match htable : Searched.of kind with
  | none =>
      decidable_of_iff content.Counted
        ⟨Content.fits_of_unlaid fun _ h => (nomatch htable.symm.trans h), Content.Fits.counted⟩
  | some searched =>
      match hrow : searched.row content with
      | .error e =>
          decidable_of_iff content.Counted
            ⟨Content.fits_of_unlaid fun _ h =>
              ⟨e, Option.some.inj (htable.symm.trans h) ▸ hrow⟩, Content.Fits.counted⟩
      | .ok (_, _) => decidable_of_iff _ (Content.fits_iff_of_laid htable hrow)

theorem Content.Fits.mono {columns columns' : Set Column} {kind : Kind} {content : Content}
    (hsub : columns' ⊆ columns) (h : content.Fits columns kind) : content.Fits columns' kind := by
  refine ⟨h.counted, fun searched row id htable hrow => ?_⟩
  obtain ⟨hid, hcells⟩ := h.laid searched row id htable hrow
  exact ⟨hid, fun cell hcell hcolumn => hcells cell hcell (hsub hcolumn)⟩

def Store.Fits (columns : Set Column) (s : Store) : Prop :=
  ∀ p content, s.records p = some content → content.Fits columns p.1

section Apart

variable {numbers : Set ℕ} {p q : Place} {content content' : Content} {key : IndexKey}
  {searched searched' : Searched} {row row' : Row} {index index' : Index}
  {values values' : List Value} {id id' : ℕ}

theorem Entered.number (h : Entered p content key searched row index values id)
    (hkey : key ∈ keysOf numbers) : index.number ∈ numbers := by
  obtain ⟨n, hn, hhead⟩ := hkey
  rw [h.told, Index.key] at hhead
  exact Option.some.inj hhead ▸ hn

theorem Entered.fits (h : Entered p content key searched row index values id)
    (hkey : key ∈ keysOf numbers) (hfits : content.Fits (columnsOf numbers) p.1) :
    id < 256 ^ 16 ∧ ∀ v ∈ values, v.Fits := by
  obtain ⟨hid, hcolumns⟩ := hfits.laid searched row id h.table h.laid
  refine ⟨hid, fun v hv => ?_⟩
  obtain ⟨column, hcolumn, hvalue⟩ := Row.values_mem h.holds v hv
  exact hcolumns _ (Row.value_mem hvalue) ⟨searched, index, h.mem, h.number hkey, hcolumn⟩ v rfl

/-- Two entries under one key are of one index, and hold the same. -/
theorem Entered.same (h : Entered p content key searched row index values id)
    (h' : Entered q content' key searched' row' index' values' id')
    (hkey : key ∈ keysOf numbers) (hfits : content.Fits (columnsOf numbers) p.1)
    (hfits' : content'.Fits (columnsOf numbers) q.1) :
    searched = searched' ∧ index = index' ∧ values = values' ∧ id = id' := by
  have hkeys : index.key values id = index'.key values' id' := h.told.symm.trans h'.told
  obtain ⟨rfl, rfl⟩ := Searched.index_unique h.mem h'.mem (Index.key_number hkeys)
  have hshape : values.map Value.shape = values'.map Value.shape :=
    ((Searched.row_shaped h.laid).values h.holds).trans
      ((Searched.row_shaped h'.laid).values h'.holds).symm
  obtain ⟨hid, hv⟩ := h.fits hkey hfits
  obtain ⟨hid', hv'⟩ := h'.fits hkey hfits'
  exact ⟨rfl, rfl, Index.key_inj hshape hv hv' hid hid' hkeys⟩

end Apart

/-! ## Places told apart -/

namespace Searched

/-- The column that every index of a table begins with, where its records' identifiers do not
tell them apart. -/
def leading : Searched → Option Column
  | held | dead | failed => some .queue
  | auditStream => some .stream
  | administration => some .kind
  | _ => none

theorem leading_head {searched : Searched} {index : Index} (h : index ∈ searched.indexes)
    {column : Column} (hc : searched.leading = some column) :
    index.columns.head? = some column := by
  cases searched <;> simp only [leading, reduceCtorEq, Option.some.injEq] at hc <;> subst hc <;>
    simp only [indexes, List.mem_cons, List.not_mem_nil, or_false] at h <;>
    rcases h with rfl | rfl | rfl <;> rfl

end Searched

/-- The first value an entry holds is its record's in the index's first column. -/
theorem Entered.leading {p : Place} {content : Content} {key : IndexKey} {searched : Searched}
    {row : Row} {index : Index} {values : List Value} {id : ℕ}
    (h : Entered p content key searched row index values id) {column : Column}
    (hc : searched.leading = some column) : row.value column = values.head? := by
  have hhead := Searched.leading_head h.mem hc
  have hvalues := h.holds
  cases hcolumns : index.columns with
  | nil => simp [hcolumns] at hhead
  | cons first columns =>
      obtain rfl : first = column := by simpa [hcolumns] using hhead
      simp only [hcolumns, Row.values, Option.bind_eq_bind, Option.bind_eq_some_iff,
        Option.pure_def, Option.some.injEq] at hvalues
      obtain ⟨v, hv, rest, -, rfl⟩ := hvalues
      exact hv

/-- A record kept under its identifier alone. -/
theorem Kind.holds_id {kind : Kind} {key : Key} {content : Content} {searched : Searched}
    {row : Row} {id : ℕ} (hholds : kind.holds key content)
    (htable : Searched.of kind = some searched) (hrow : searched.row content = .ok (row, id))
    (hone : searched.leading = none) : key = .id id := by
  cases kind <;> simp only [Searched.of, reduceCtorEq, Option.some.injEq] at htable <;>
    subst htable <;> simp only [Searched.leading, reduceCtorEq] at hone <;>
    obtain ⟨a, rfl, -, rfl⟩ := rowOf_ok hrow <;> cases key <;>
    simp only [Kind.holds, Form.bytes] at hholds <;> rw [← hholds] <;> rfl

theorem Searched.kind_eq {kind kind' : Kind} {searched : Searched}
    (htable : Searched.of kind = some searched) (htable' : Searched.of kind' = some searched)
    (hone : searched ≠ .administration) : kind = kind' := by
  cases searched <;> cases kind <;> simp only [of, reduceCtorEq, Option.some.injEq] at htable <;>
    cases kind' <;> simp only [of, reduceCtorEq, Option.some.injEq] at htable' <;>
    first | rfl | exact absurd rfl hone

/-- An entry of a queue is found by what it is about, in its own queue. -/
theorem Queues.row_entry {k : Queues} {content : Content} {searched : Searched} {row : Row}
    {id : ℕ} (htable : Searched.of k.kinds.entry = some searched)
    (hrow : searched.row content = .ok (row, id)) :
    content.about = id ∧ ∀ q n, content.Seated q n → row.value .queue = some (.id q) := by
  cases k <;> cases htable <;> obtain ⟨a, rfl, rfl, rfl⟩ := rowOf_ok hrow <;>
    refine ⟨rfl, ?_⟩ <;> rintro q n ⟨rfl, -⟩ <;> rfl

/-- Two entries of a kind of queue, about the same in the same queue, are one. -/
theorem Queues.place_unique {s : Store} (hsole : s.view.Sole) {k : Queues} {q q' n n' : ℕ}
    {content content' : Content} (hp : s.records (k.kinds.entry, .pair q n) = some content)
    (hq : s.records (k.kinds.entry, .pair q' n') = some content') {searched : Searched}
    {row row' : Row} {id : ℕ} (htable : Searched.of k.kinds.entry = some searched)
    (hrow : searched.row content = .ok (row, id)) (hrow' : searched.row content' = .ok (row', id))
    (hqueue : row.value .queue = row'.value .queue) : q = q' ∧ n = n' := by
  have hview : ∀ {q n content}, s.records (k.kinds.entry, .pair q n) = some content →
      s.view (k.kinds.entry, .pair q n) = some content.bare := by
    intro q n content h
    simp [Store.view, k.seen.1, h]
  have hentry := hsole k q n _ (hview hp)
  have hentry' := hsole k q' n' _ (hview hq)
  have htold := Queues.row_entry htable hrow
  have htold' := Queues.row_entry htable hrow'
  rw [htold.2 q n (by simpa using hentry.1), htold'.2 q' n' (by simpa using hentry'.1)] at hqueue
  obtain rfl : q = q' := by simpa using hqueue
  refine ⟨rfl, (hentry.2 n' _ (hview hq) ?_).symm⟩
  rw [Content.about_bare, Content.about_bare, htold.1, htold'.1]

theorem Kind.holds_pair {k : Queues} {key : Key} {content : Content}
    (h : k.kinds.entry.holds key content) : ∃ q n, key = .pair q n := by
  cases k <;> cases key <;> first | exact h.elim | exact ⟨_, _, rfl⟩

theorem AdministrationKind.word_inj {kind kind' : AdministrationKind}
    (h : kind.word = kind'.word) : kind = kind' := by
  revert h
  cases kind <;> cases kind' <;> decide

/-- An administration record is kept under its own kind and identifier. -/
theorem administration_place {p : Place} {content : Content} {row : Row} {id : ℕ}
    (hholds : p.1.holds p.2 content) (htable : Searched.of p.1 = some .administration)
    (hrow : Searched.administration.row content = .ok (row, id)) :
    ∃ kind : AdministrationKind, p = (.administration kind, .id id) ∧
      row.value .kind = some (.text kind.word) := by
  obtain ⟨kind, key⟩ := p
  obtain ⟨a, rfl, rfl, rfl⟩ := rowOf_ok hrow
  cases kind <;> simp only [Searched.of, reduceCtorEq, Option.some.injEq] at htable
  cases key <;> simp only [Kind.holds, Form.bytes] at hholds
  obtain ⟨rfl, rfl⟩ := hholds
  exact ⟨a.kind, rfl, rfl⟩

/-- A kept audit record's Stream is kept under the record and the Stream. -/
theorem keptStream_place {p : Place} {content : Content} {row : Row} {id : ℕ}
    (hholds : p.1.holds p.2 content) (htable : Searched.of p.1 = some .auditStream)
    (hrow : Searched.auditStream.row content = .ok (row, id)) :
    ∃ stream, p = (.keptAuditStreams, .pair id stream) ∧
      row.value .stream = some (.id stream) := by
  obtain ⟨kind, key⟩ := p
  obtain ⟨a, rfl, rfl, rfl⟩ := rowOf_ok hrow
  cases kind <;> simp only [Searched.of, reduceCtorEq, Option.some.injEq] at htable
  cases key <;> simp only [Kind.holds, Form.bytes] at hholds
  obtain ⟨rfl, rfl⟩ := hholds
  exact ⟨a.stream.stream, rfl, rfl⟩

/-- Two records of one table, of one identifier and the same in the column its indexes begin
with, are at one place. -/
theorem place_unique {s : Store} (hs : s.Proper) (hsole : s.view.Sole) {searched : Searched}
    {p q : Place} {content content' : Content} {row row' : Row} {id : ℕ}
    (hp : s.records p = some content) (hq : s.records q = some content')
    (htable : Searched.of p.1 = some searched) (htable' : Searched.of q.1 = some searched)
    (hrow : searched.row content = .ok (row, id)) (hrow' : searched.row content' = .ok (row', id))
    (hlead : ∀ column, searched.leading = some column → row.value column = row'.value column) :
    p = q := by
  have hholds := hs _ _ hp
  have hholds' := hs _ _ hq
  have hplain : searched.leading = none → p = q := by
    intro hnone
    have hkind : p.1 = q.1 := Searched.kind_eq htable htable' (by rintro rfl; cases hnone)
    have hkey := Kind.holds_id hholds htable hrow hnone
    have hkey' := Kind.holds_id hholds' htable' hrow' hnone
    exact Prod.ext hkind (hkey.trans hkey'.symm)
  have hqueue : ∀ k : Queues, Searched.of k.kinds.entry = some searched →
      searched.leading = some .queue → searched ≠ .administration → p = q := by
    intro k hk hlead' hne
    obtain ⟨kind, key⟩ := p
    obtain ⟨kind', key'⟩ := q
    obtain rfl : kind = k.kinds.entry := Searched.kind_eq htable hk hne
    obtain rfl : kind' = k.kinds.entry := Searched.kind_eq htable' hk hne
    obtain ⟨q, n, rfl⟩ := Kind.holds_pair hholds
    obtain ⟨q', n', rfl⟩ := Kind.holds_pair hholds'
    obtain ⟨rfl, rfl⟩ := Queues.place_unique hsole hp hq hk hrow hrow' (hlead _ hlead')
    rfl
  cases searched with
  | journey => exact hplain rfl
  | message => exact hplain rfl
  | audit => exact hplain rfl
  | secret => exact hplain rfl
  | held => exact hqueue .held rfl rfl (by simp)
  | dead => exact hqueue .dead rfl rfl (by simp)
  | failed => exact hqueue .failed rfl rfl (by simp)
  | administration =>
      obtain ⟨kind, rfl, hkind⟩ := administration_place hholds htable hrow
      obtain ⟨kind', rfl, hkind'⟩ := administration_place hholds' htable' hrow'
      have hword := hlead .kind rfl
      rw [hkind, hkind'] at hword
      have hwords : kind.word = kind'.word := by simpa using hword
      rw [AdministrationKind.word_inj hwords]
  | auditStream =>
      obtain ⟨stream, rfl, hstream⟩ := keptStream_place hholds htable hrow
      obtain ⟨stream', rfl, hstream'⟩ := keptStream_place hholds' htable' hrow'
      have hsame := hlead .stream rfl
      rw [hstream, hstream'] at hsame
      obtain rfl : stream = stream' := by simpa using hsame
      rfl

/-- No two places of a store whose queues are in order share a key. -/
theorem Store.apart {s : Store} (hs : s.Proper) (hsole : s.view.Sole) {numbers : Set ℕ}
    (hfits : s.Fits (columnsOf numbers)) :
    Indexed.Apart entriesAt (keysOf numbers) s.records where
  place := by
    intro key hkey p q content content' id id' hp hq hid hid'
    obtain ⟨searched, row, index, values, h⟩ := mem_entriesAt.mp hid
    obtain ⟨searched', row', index', values', h'⟩ := mem_entriesAt.mp hid'
    obtain ⟨rfl, rfl, rfl, rfl⟩ := h.same h' hkey (hfits p _ hp) (hfits q _ hq)
    refine place_unique hs hsole hp hq h.table h'.table h.laid h'.laid fun column hc => ?_
    rw [h.leading hc, h'.leading hc]
  value := by
    intro key _ p content id id' _ hid hid'
    obtain ⟨searched, row, index, values, h⟩ := mem_entriesAt.mp hid
    obtain ⟨searched', row', index', values', h'⟩ := mem_entriesAt.mp hid'
    obtain rfl := Option.some.inj (h.table.symm.trans h'.table)
    exact (Prod.mk.inj (Except.ok.inj (h.laid.symm.trans h'.laid))).2

/-! ## A batch laid out -/

theorem forall₂_exists {α β : Type} {R : α → β → Prop} {xs : List α} {ys : List β}
    (h : List.Forall₂ R xs ys) {x : α} (hx : x ∈ xs) : ∃ y ∈ ys, R x y := by
  induction h with
  | nil => cases hx
  | @cons a b xs ys hab h ih =>
      rcases List.mem_cons.mp hx with rfl | hx
      · exact ⟨b, by simp, hab⟩
      · obtain ⟨y, hy, hr⟩ := ih hx
        exact ⟨y, by simp [hy], hr⟩

theorem stamp_row {α : Type} [Columned α] {bytes bytes' : Content}
    {before : Option Content} {now id : ℕ} {row : Row}
    (hstamp : ∀ (a : α) b, Columned.id (Columned.stamp a now b) = Columned.id a ∧
      List.Forall₂ (fun cell old => cell = old ∨ cell.2 = some (.time now) ∨
        ∃ c, b = some c ∧ cell ∈ Columned.row c)
        (Columned.row (Columned.stamp a now b)) (Columned.row a))
    (h : stamp α bytes before now = .ok (bytes', row, id)) :
    rowOf α bytes' = .ok (row, id) ∧ ∃ row₀, rowOf α bytes = .ok (row₀, id) ∧
      ∀ cell ∈ row, cell ∈ row₀ ∨ cell.2 = some (.time now) ∨
        ∃ content row' id', before = some content ∧ rowOf α content = .ok (row', id') ∧
          cell ∈ row' := by
  simp only [stamp, bind_eq_ok] at h
  obtain ⟨a, ha, b, hb, h⟩ := h
  simp only [pure, Except.pure, Except.ok.injEq, Prod.mk.injEq] at h
  obtain ⟨rfl, rfl, rfl⟩ := h
  have hrow : ∀ x : α, rowOf α (Form.bytes x) = .ok (Columned.row x, Columned.id x) := by
    intro x
    simp [rowOf, bind, Except.bind, pure, Except.pure]
  obtain ⟨hid, hcells⟩ := hstamp a b
  refine ⟨hrow _, Columned.row a, ?_, fun cell hcell => ?_⟩
  · rw [Form.bytes_of_fromBytes _ _ ha, hrow, hid]
  · obtain ⟨old, hold, hcase⟩ := forall₂_exists hcells hcell
    rcases hcase with rfl | hnow | ⟨c, rfl, hc⟩
    · exact .inl hold
    · exact .inr (.inl hnow)
    · cases before with
      | none => cases hb
      | some content =>
          refine .inr (.inr ⟨content, Columned.row c, Columned.id c, rfl, ?_, hc⟩)
          have hcontent : Form.fromBytes content = .ok c := by
            revert hb
            cases hf : Form.fromBytes (α := α) content <;> simp [decoded, hf, Except.map]
          rw [Form.bytes_of_fromBytes _ _ hcontent, hrow]

/-- A record stamped holds what it held, but for times that are now's or the record's it
replaces. -/
theorem Searched.stamped_row {searched : Searched} {bytes bytes' : Content}
    {before : Option Content} {now id : ℕ} {row : Row}
    (h : searched.stamped bytes before now = .ok (bytes', row, id)) :
    searched.row bytes' = .ok (row, id) ∧
      ∃ row₀, searched.row bytes = .ok (row₀, id) ∧
        ∀ cell ∈ row, cell ∈ row₀ ∨ cell.2 = some (.time now) ∨
          ∃ content row' id', before = some content ∧ searched.row content = .ok (row', id') ∧
            cell ∈ row' := by
  cases searched <;> refine stamp_row (fun a b => ⟨rfl, ?_⟩) h <;> cases b <;>
    simp [Columned.row, Columned.stamp, Held.dueAt]
theorem Searched.counted_of_row {searched : Searched} {content : Content} {row : Row} {id : ℕ}
    (h : searched.row content = .ok (row, id)) : content.Counted := by
  cases searched <;> obtain ⟨a, rfl, -, -⟩ := rowOf_ok h <;> trivial

theorem Content.Fits.stamped {columns : Set Column} {kind : Kind} {searched : Searched}
    {bytes bytes' : Content} {before : Option Content} {now id : ℕ} {row : Row}
    (htable : Searched.of kind = some searched) (hnow : now ≤ u64Max)
    (hbytes : bytes.Fits columns kind)
    (hbefore : ∀ content, before = some content → content.Fits columns kind)
    (h : searched.stamped bytes before now = .ok (bytes', row, id)) :
    bytes'.Fits columns kind := by
  obtain ⟨hrow, row₀, hrow₀, hcells⟩ := Searched.stamped_row h
  refine ⟨Searched.counted_of_row hrow, fun searched' row' id' htable' hrow' => ?_⟩
  obtain rfl := Option.some.inj (htable.symm.trans htable')
  cases hrow.symm.trans hrow'
  obtain ⟨hid, hfits⟩ := hbytes.laid searched row₀ id htable hrow₀
  refine ⟨hid, fun cell hcell hcolumn v hv => ?_⟩
  rcases hcells cell hcell with hold | htime | ⟨content, row', id', hcontent, hrow', hmem⟩
  · exact hfits cell hold hcolumn v hv
  · obtain rfl : Value.time now = v := Option.some.inj (htime.symm.trans hv)
    exact hnow
  · exact ((hbefore content hcontent).laid searched row' id' htable hrow').2 cell hmem hcolumn v hv

namespace Store

/-- A store once changes are made to it, whatever entries are written with them. -/
theorem applyIndexed_records (s : Store) (cs : List Change) (es : List IndexEntry) :
    (s.applyIndexed cs es).records = (s.applyIndexed cs []).records := rfl

theorem applyIndexed_snoc (s : Store) (cs : List Change) (c : Change) :
    (s.applyIndexed (cs ++ [c]) []).records =
      Function.update (s.applyIndexed cs []).records c.place c.value := by
  funext p
  simp only [applyIndexed, written_append, written_cons, written_nil, Option.none_or]
  by_cases hp : p = c.place
  · subst hp
    simp
  · rw [Function.update_of_ne hp, if_neg (Ne.symm hp), Option.none_or]

end Store

/-- What a change lays out: the entries of what its place held taken out, and its own set. -/
theorem laidOut_entries {s : Store} (hs : s.Proper) {done : List Change} {c c' : Change}
    {before : Option Content} {now : ℕ} {es : List IndexEntry}
    (hbefore : replaced s.get done c = .ok before) (h : laidOut c before now = .ok (c', es)) :
    es = Indexed.gone (Indexed.at' entriesAt c.place ((s.applyIndexed done []).records c.place)) ++
      Indexed.set (Indexed.at' entriesAt c.place c'.value) := by
  cases htable : Searched.of c.kind with
  | none =>
      have hat : ∀ value, Indexed.at' entriesAt c.place value = [] := by
        intro value
        cases value <;> simp [Indexed.at', entriesAt, Change.place, htable]
      simp only [laidOut, htable, Except.ok.injEq, Prod.mk.injEq] at h
      rw [hat, hat, ← h.2]
      rfl
  | some searched =>
      have hread : before = (s.applyIndexed done []).records c.place := by
        simp only [replaced, htable] at hbefore
        cases hw : written done c.place with
        | none => simpa [hw, hs.get, Store.applyIndexed, eq_comm] using hbefore
        | some value => simpa [hw, Store.applyIndexed, eq_comm] using hbefore
      rw [← hread]
      have hrow : ∀ content row id, searched.row content = .ok (row, id) →
          entriesAt c.place content = (entries searched row id).map fun key => (key, id) := by
        intro content row id hrow
        simp [entriesAt, Change.place, htable, hrow]
      have hgone : ∀ gone, goneEntries searched before = .ok gone →
          gone = Indexed.gone (Indexed.at' entriesAt c.place before) := by
        intro gone hgone
        cases before with
        | none => cases hgone; rfl
        | some content =>
            obtain ⟨⟨row, id⟩, hcontent, hgone⟩ := bind_eq_ok.mp hgone
            cases hgone
            rw [Indexed.at', hrow content row id hcontent, Indexed.gone, List.map_map]
            rfl
      simp only [laidOut, htable, bind_eq_ok] at h
      obtain ⟨gone, hg, h⟩ := h
      rw [hgone gone hg] at h
      cases hvalue : c.value with
      | none =>
          simp only [hvalue, pure, Except.pure, Except.ok.injEq, Prod.mk.injEq] at h
          obtain ⟨rfl, rfl⟩ := h
          simp [hvalue, Indexed.at', Indexed.set]
      | some bytes =>
          simp only [hvalue, bind_eq_ok] at h
          obtain ⟨⟨bytes', row, id⟩, hst, h⟩ := h
          simp only [pure, Except.pure, Except.ok.injEq, Prod.mk.injEq] at h
          obtain ⟨rfl, rfl⟩ := h
          rw [Indexed.at', hrow bytes' row id (Searched.stamped_row hst).1, Indexed.set,
            List.map_map]
          rfl

/-- Where no two places share a key after any of the changes, their entries are exact after
them all. -/
theorem writtenOver_exact {keys : Set IndexKey} {s : Store} (hs : s.Proper) {now : ℕ}
    {done cs cs' : List Change} {es : List IndexEntry} {m : OrderedMap IndexKey ℕ}
    (h : writtenOver s.get now done cs = .ok (cs', es))
    (hm : Indexed.Exact entriesAt keys (s.applyIndexed done []).records m)
    (hapart : ∀ n, Indexed.Apart entriesAt keys
      (s.applyIndexed (done ++ cs'.take n) []).records) :
    Indexed.Exact entriesAt keys (s.applyIndexed (done ++ cs') []).records (m.apply es) := by
  induction cs generalizing done cs' es m with
  | nil =>
      simp only [writtenOver, Except.ok.injEq, Prod.mk.injEq] at h
      obtain ⟨rfl, rfl⟩ := h
      simpa using hm
  | cons c cs ih =>
      simp only [writtenOver, bind_eq_ok] at h
      obtain ⟨before, hbefore, ⟨c', entries⟩, hc, ⟨rest, more⟩, hrest, h⟩ := h
      simp only [pure, Except.pure, Except.ok.injEq, Prod.mk.injEq] at h
      obtain ⟨rfl, rfl⟩ := h
      have hplace : c'.place = c.place := (laidOut_bare hc).1
      have hnow := hapart 0
      have hnext := hapart 1
      simp only [List.take_zero, List.append_nil, List.take_succ_cons] at hnow hnext
      rw [Store.applyIndexed_snoc] at hnext
      have hone := hm.replace hnow hnext
      rw [hplace, ← laidOut_entries hs hbefore hc] at hone
      have hrec := ih hrest (m := m.apply entries) ?_ fun n => ?_
      · rw [OrderedMap.apply_append]
        simpa using hrec
      · rw [Store.applyIndexed_snoc, hplace]
        exact hone
      · have hlater := hapart (n + 1)
        simpa using hlater

end XmipPersist
