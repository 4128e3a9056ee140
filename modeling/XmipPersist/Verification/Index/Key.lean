import XmipPersist.Model.Columns

/-! # What an index entry's key tells

A value within its bounds is read back from the bytes it is encoded in, whatever follows them.
So a key tells its index, the values of the index's columns and the record it finds.
-/

namespace XmipPersist

/-! ## Values of a column -/

/-- The kinds of value a column holds. -/
inductive Shape
  | time
  | count
  | flag
  | text
  | id
  | bytes
  deriving DecidableEq

namespace Value

def shape : Value → Shape
  | .time _ => .time
  | .count _ => .count
  | .flag _ => .flag
  | .text _ => .text
  | .id _ => .id
  | .bytes _ => .bytes

/-- A value within its machine type's bounds: a time or a count in 64 bits, an identifier in
128, words and bytes whose length 32 bits hold. -/
def Fits : Value → Prop
  | .time n => n ≤ u64Max
  | .count n => n ≤ u64Max
  | .flag _ => True
  | .text words => words.toUTF8.data.toList.length ≤ u32Max
  | .id n => n < 256 ^ 16
  | .bytes kept => kept.length ≤ u32Max

instance (v : Value) : Decidable v.Fits :=
  match v with
  | .time n => inferInstanceAs (Decidable (n ≤ u64Max))
  | .count n => inferInstanceAs (Decidable (n ≤ u64Max))
  | .flag _ => .isTrue trivial
  | .text words => inferInstanceAs (Decidable (words.toUTF8.data.toList.length ≤ u32Max))
  | .id n => inferInstanceAs (Decidable (n < 256 ^ 16))
  | .bytes kept => inferInstanceAs (Decidable (kept.length ≤ u32Max))

end Value

theorem lt_pow_of_le_u64Max {n : ℕ} (h : n ≤ u64Max) : n < 256 ^ 8 := by
  have hmax : u64Max < 256 ^ 8 := by decide
  omega

theorem counted_append_inj {v w : Bytes} {xs ys : List ℕ} (hv : v.length ≤ u32Max)
    (hw : w.length ≤ u32Max) (h : counted v ++ xs = counted w ++ ys) : v = w ∧ xs = ys := by
  have hmax : u32Max < 256 ^ 4 := by decide
  rw [counted, counted, List.append_assoc, List.append_assoc, min_eq_left hv,
    min_eq_left hw] at h
  obtain ⟨hlen, hrest⟩ := List.append_inj h (by simp)
  rw [bigEndian_inj (by omega) (by omega)] at hlen
  obtain ⟨hbytes, hrest⟩ := List.append_inj hrest (by simpa using hlen)
  exact ⟨List.map_injective_iff.mpr (fun a b hab => UInt8.toNat_inj.mp hab) hbytes, hrest⟩

/-- Of two values of one shape, the bytes one is encoded in are no start of the other's. -/
theorem encoded_append_inj {v w : Value} {xs ys : List ℕ} (hshape : v.shape = w.shape)
    (hv : v.Fits) (hw : w.Fits) (h : encoded v ++ xs = encoded w ++ ys) : v = w ∧ xs = ys := by
  cases v <;> cases w <;> cases hshape
  case time.time m n =>
    obtain ⟨hbytes, hrest⟩ := List.append_inj h (by simp [encoded])
    have hmn := (bigEndian_inj (lt_pow_of_le_u64Max hv) (lt_pow_of_le_u64Max hw)).mp hbytes
    exact ⟨congrArg _ hmn, hrest⟩
  case count.count m n =>
    obtain ⟨hbytes, hrest⟩ := List.append_inj h (by simp [encoded])
    have hmn := (bigEndian_inj (lt_pow_of_le_u64Max hv) (lt_pow_of_le_u64Max hw)).mp hbytes
    exact ⟨congrArg _ hmn, hrest⟩
  case flag.flag a b =>
    obtain ⟨hbytes, hrest⟩ := List.append_inj h (by simp [encoded])
    refine ⟨?_, hrest⟩
    revert hbytes
    cases a <;> cases b <;> simp [encoded]
  case text.text s t =>
    obtain ⟨hbytes, hrest⟩ := counted_append_inj hv hw h
    refine ⟨congrArg _ (String.toByteArray_inj.mp ?_), hrest⟩
    exact ByteArray.ext (Array.toList_inj.mp hbytes)
  case id.id m n =>
    obtain ⟨hbytes, hrest⟩ := List.append_inj h (by simp [encoded])
    exact ⟨congrArg _ ((bigEndian_inj hv hw).mp hbytes), hrest⟩
  case bytes.bytes s t =>
    obtain ⟨hbytes, hrest⟩ := counted_append_inj hv hw h
    exact ⟨congrArg _ hbytes, hrest⟩

theorem values_append_inj {vs ws : List Value} {xs ys : List ℕ}
    (hshape : vs.map Value.shape = ws.map Value.shape) (hv : ∀ v ∈ vs, v.Fits)
    (hw : ∀ w ∈ ws, w.Fits) (h : vs.flatMap encoded ++ xs = ws.flatMap encoded ++ ys) :
    vs = ws ∧ xs = ys := by
  induction vs generalizing ws with
  | nil =>
      cases ws with
      | nil => exact ⟨rfl, h⟩
      | cons w ws => cases hshape
  | cons v vs ih =>
      cases ws with
      | nil => cases hshape
      | cons w ws =>
          simp only [List.map_cons, List.cons.injEq] at hshape
          simp only [List.flatMap_cons, List.append_assoc] at h
          obtain ⟨rfl, hrest⟩ := encoded_append_inj hshape.1 (hv v (by simp)) (hw w (by simp)) h
          obtain ⟨rfl, hlast⟩ := ih hshape.2 (fun u hu => hv u (by simp [hu]))
            (fun u hu => hw u (by simp [hu])) hrest
          exact ⟨rfl, hlast⟩

/-! ## Rows -/

def Column.shape : Column → Shape
  | .createdAt | .updatedAt | .heldAt | .dueAt | .queuedAt | .failedAt | .occurredAt | .keptAt
  | .writtenAt | .setAt => .time
  | .depth | .sendLocation | .attempts | .generation | .sizeBytes | .sequence | .place
  | .process | .position | .bodyLength | .bodyChunks | .length | .chunks => .count
  | .isOpen | .groupOpen | .failed | .hidden => .flag
  | .previousJourney | .message | .origin | .groupDelivery | .previousMessage | .stream | .queue
  | .execution | .journey => .id
  | .previousDigest | .digest | .bodyDigest => .bytes
  | _ => .text

/-- A row whose every value is of its column's kind. -/
def Row.Shaped (row : Row) : Prop := ∀ cell ∈ row, ∀ v ∈ cell.2, v.shape = cell.1.shape

theorem rowOf_ok {α : Type} [Columned α] {content : Content} {row : Row} {id : ℕ}
    (h : rowOf α content = .ok (row, id)) :
    ∃ a : α, content = Form.bytes a ∧ row = Columned.row a ∧ id = Columned.id a := by
  unfold rowOf at h
  cases ha : Form.fromBytes (α := α) content with
  | error e => simp [ha, bind, Except.bind] at h
  | ok a =>
      simp only [ha, bind, Except.bind, pure, Except.pure, Except.ok.injEq, Prod.mk.injEq] at h
      exact ⟨a, Form.bytes_of_fromBytes _ _ ha, h.1.symm, h.2.symm⟩

theorem Searched.row_shaped {searched : Searched} {content : Content} {row : Row} {id : ℕ}
    (h : searched.row content = .ok (row, id)) : row.Shaped := by
  cases searched <;> obtain ⟨a, -, rfl, -⟩ := rowOf_ok h <;>
    simp [Row.Shaped, Columned.row, Column.shape, Value.shape, forall_eq_or_imp]

theorem Row.value_mem {row : Row} {column : Column} {v : Value} (h : row.value column = some v) :
    (column, some v) ∈ row := by
  obtain ⟨cell, hcell, hv⟩ := Option.bind_eq_some_iff.mp h
  have hname : cell.1 = column := by simpa using List.find?_some hcell
  have hmem := List.mem_of_find?_eq_some hcell
  rwa [← hname, ← hv]

theorem Row.values_mem {row : Row} {columns : List Column} {values : List Value}
    (h : row.values columns = some values) :
    ∀ v ∈ values, ∃ column ∈ columns, row.value column = some v := by
  induction columns generalizing values with
  | nil => cases h; simp
  | cons column columns ih =>
      simp only [Row.values, Option.bind_eq_bind, Option.bind_eq_some_iff, Option.pure_def,
        Option.some.injEq] at h
      obtain ⟨v, hv, rest, hrest, rfl⟩ := h
      intro w hw
      rcases List.mem_cons.mp hw with rfl | hw
      · exact ⟨column, by simp, hv⟩
      · obtain ⟨other, hother, hvalue⟩ := ih hrest w hw
        exact ⟨other, by simp [hother], hvalue⟩

theorem Row.Shaped.values {row : Row} (hrow : row.Shaped) {columns : List Column}
    {values : List Value} (h : row.values columns = some values) :
    values.map Value.shape = columns.map Column.shape := by
  induction columns generalizing values with
  | nil => cases h; rfl
  | cons column columns ih =>
      simp only [Row.values, Option.bind_eq_bind, Option.bind_eq_some_iff, Option.pure_def,
        Option.some.injEq] at h
      obtain ⟨v, hv, rest, hrest, rfl⟩ := h
      rw [List.map_cons, List.map_cons, ih hrest, hrow _ (Row.value_mem hv) v rfl]

/-! ## Keys -/

theorem mem_entries {searched : Searched} {row : Row} {id : ℕ} {key : IndexKey} :
    key ∈ entries searched row id ↔ ∃ index ∈ searched.indexes, index.takes row ∧
      ∃ values, row.values index.columns = some values ∧ key = index.key values id := by
  simp only [entries, List.mem_filterMap]
  constructor
  · rintro ⟨index, hindex, h⟩
    split at h
    · next htakes =>
        obtain ⟨values, hvalues, rfl⟩ := Option.map_eq_some_iff.mp h
        exact ⟨index, hindex, htakes, values, hvalues, rfl⟩
    · cases h
  · rintro ⟨index, hindex, htakes, values, hvalues, rfl⟩
    exact ⟨index, hindex, by simp [htakes, hvalues]⟩

namespace Searched

/-- Every table with each of its indexes. -/
def all : List (Searched × Index) :=
  [journey, message, held, dead, failed, audit, auditStream, administration, secret].flatMap
    fun searched => searched.indexes.map (searched, ·)

theorem mem_all {searched : Searched} {index : Index} (h : index ∈ searched.indexes) :
    (searched, index) ∈ all := by
  refine List.mem_flatMap.mpr ⟨searched, ?_, List.mem_map.mpr ⟨index, h, rfl⟩⟩
  cases searched <;> simp

/-- No two indexes have one number. -/
theorem index_unique {searched searched' : Searched} {index index' : Index}
    (h : index ∈ searched.indexes) (h' : index' ∈ searched'.indexes)
    (hn : index.number = index'.number) : searched = searched' ∧ index = index' := by
  have hnodup : (all.map fun entry => entry.2.number).Nodup := by decide
  have heq := List.inj_on_of_nodup_map hnodup (mem_all h) (mem_all h') hn
  exact Prod.mk.inj heq

end Searched

theorem Index.key_number {index index' : Index} {values values' : List Value} {id id' : ℕ}
    (h : index.key values id = index'.key values' id') : index.number = index'.number := by
  simp only [Index.key, List.cons_append, List.cons.injEq] at h
  exact h.1

/-- An index's key tells the values it is made of and the record it finds. -/
theorem Index.key_inj {index : Index} {values values' : List Value} {id id' : ℕ}
    (hshape : values.map Value.shape = values'.map Value.shape) (hv : ∀ v ∈ values, v.Fits)
    (hv' : ∀ v ∈ values', v.Fits) (hid : id < 256 ^ 16) (hid' : id' < 256 ^ 16)
    (h : index.key values id = index.key values' id') : values = values' ∧ id = id' := by
  simp only [Index.key, List.cons_append, List.cons.injEq, true_and] at h
  obtain ⟨hvalues, hrest⟩ := values_append_inj hshape hv hv' h
  exact ⟨hvalues, (bigEndian_inj hid hid').mp hrest⟩

end XmipPersist
