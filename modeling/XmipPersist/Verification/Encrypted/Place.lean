import XmipPersist.Model.EncryptedStore

/-! # What a record and an index entry are kept under

A place tells its kind and its key, however long, and no index entry's key is a place. In the
engine the data key, what a store keeps of its own, the records and the index entries are apart.
-/

namespace XmipPersist.EncryptedStore

/-! ## Places -/

theorem utf8_inj {words words' : String} : utf8 words = utf8 words' ↔ words = words' := by
  constructor
  · intro h
    exact String.toByteArray_inj.mp (ByteArray.ext (Array.toList_inj.mp h))
  · rintro rfl
    rfl

/-- Bytes copied to the start of what is left of zeros. -/
theorem copied_zeros (pre others : Bytes) (n : ℕ) :
    copied (pre ++ List.replicate n 0) pre.length others =
      pre ++ others ++ List.replicate (n - others.length) 0 := by
  have hdrop : (pre ++ List.replicate n 0).drop (pre.length + others.length) =
      List.replicate (n - others.length) 0 := by
    rw [List.drop_append]
    simp
  rw [copied, hdrop, List.take_left]

/-- A place is its kind, a zero and its key, however long. -/
theorem place_bytes (kind : String) (key : Bytes) :
    (place kind key).bytes = utf8 kind ++ 0 :: key := by
  by_cases hlong : short < (utf8 kind).length + 1 + key.length
  · rw [place, if_pos hlong, Place.bytes, List.append_assoc]
    rfl
  · have hkind : copied (List.replicate short 0) 0 (utf8 kind) =
        (utf8 kind ++ [0]) ++ List.replicate (short - (utf8 kind).length - 1) 0 := by
      have hzeros := copied_zeros [] (utf8 kind) short
      have hone : short - (utf8 kind).length = 1 + (short - (utf8 kind).length - 1) := by omega
      rw [List.nil_append, List.nil_append, List.length_nil] at hzeros
      rw [hzeros, hone, List.replicate_add, Nat.add_sub_cancel_left]
      simp
    have hkey := copied_zeros (utf8 kind ++ [0]) key (short - (utf8 kind).length - 1)
    rw [List.length_append, List.length_singleton] at hkey
    have hlength : (utf8 kind).length + 1 + key.length = (utf8 kind ++ [0] ++ key).length := by
      simp only [List.length_append, List.length_singleton]
    rw [place, if_neg hlong, Place.bytes, hkind, hkey, hlength, List.take_left, List.append_assoc]
    rfl

/-- A kind as the program has them: a word, not empty and with no zero byte. -/
def Word (kind : String) : Prop := kind ≠ "" ∧ 0 ∉ utf8 kind

instance (kind : String) : Decidable (Word kind) := inferInstanceAs (Decidable (_ ∧ _))

/-- What comes before the first zero, and after it. -/
theorem zero_split {xs xs' ys ys' : Bytes} (h : 0 ∉ xs) (h' : 0 ∉ xs')
    (heq : xs ++ 0 :: ys = xs' ++ 0 :: ys') : xs = xs' ∧ ys = ys' := by
  induction xs generalizing xs' with
  | nil =>
      cases xs' with
      | nil => exact ⟨rfl, (List.cons.inj heq).2⟩
      | cons x' xs' =>
          have hzero : 0 = x' := (List.cons.inj heq).1
          exact absurd (by simp [hzero]) h'
  | cons x xs ih =>
      cases xs' with
      | nil =>
          have hzero : x = 0 := (List.cons.inj heq).1
          exact absurd (by simp [hzero]) h
      | cons x' xs' =>
          have hcons := List.cons.inj heq
          have hrest := ih (fun hm => h (List.mem_cons_of_mem _ hm))
            (fun hm => h' (List.mem_cons_of_mem _ hm)) hcons.2
          exact ⟨by rw [hcons.1, hrest.1], hrest.2⟩

/-- A place tells its kind and its key. -/
theorem place_inj {kind kind' : String} {key key' : Bytes} (hkind : Word kind)
    (hkind' : Word kind') (h : (place kind key).bytes = (place kind' key').bytes) :
    kind = kind' ∧ key = key' := by
  rw [place_bytes, place_bytes] at h
  have hsplit := zero_split hkind.2 hkind'.2 h
  exact ⟨utf8_inj.mp hsplit.1, hsplit.2⟩

/-- No index entry's key is a place. -/
theorem place_ne_index {kind : String} {key key' : Bytes} (hkind : Word kind) :
    (place kind key).bytes ≠ index ++ key' := by
  rw [place_bytes]
  intro h
  have hindex : index ++ key' = 0 :: (index.tail ++ key') := rfl
  rw [hindex] at h
  cases hbytes : utf8 kind with
  | nil => exact hkind.1 (utf8_inj.mp (hbytes.trans rfl))
  | cons first rest =>
      rw [hbytes, List.cons_append] at h
      exact hkind.2 (by simp [hbytes, (List.cons.inj h).1])

/-! ## Keys of the engine -/

theorem own_dataKey : own <+: dataKey := ⟨utf8 "key\x00", by decide +kernel⟩

/-- What opens as an index entry's key does not open as a store's own. -/
theorem index_not_own {key : Bytes} (h : index <+: key) : ¬own <+: key := by
  intro hown
  obtain ⟨rest, rfl⟩ := h
  obtain ⟨rest', hrest⟩ := hown
  have hindex : index ++ rest = 0 :: 105 :: (index.drop 2 ++ rest) := rfl
  have hshared : own ++ rest' = 0 :: 120 :: (own.drop 2 ++ rest') := rfl
  rw [hindex, hshared] at hrest
  simp at hrest

theorem index_ne_dataKey (key : Bytes) : index ++ key ≠ dataKey := by
  intro h
  have hprefix : index <+: dataKey := ⟨key, h⟩
  exact index_not_own hprefix own_dataKey

theorem lookupKey_ne_dataKey {k : DataKeys} (store : EncryptedStore k) (kind : String)
    (key : Bytes) : store.lookupKey kind key ≠ dataKey := by
  intro h
  have hlength : (store.lookupKey kind key).length = 32 := k.length_keyedHash _ _
  have hdata : dataKey.length = 23 := by decide +kernel
  rw [h, hdata] at hlength
  omega

/-- Of some records, the hashes of their places tell them apart, and are neither an index entry's
key nor a store's own. -/
structure Apart (k : DataKeys) (lookup : k.Key) (places : Set (String × Bytes)) : Prop where
  told : Set.InjOn (fun p : String × Bytes => k.keyedHash lookup (place p.1 p.2).bytes) places
  index : ∀ p ∈ places, ¬index <+: k.keyedHash lookup (place p.1 p.2).bytes
  own : ∀ p ∈ places, ¬own <+: k.keyedHash lookup (place p.1 p.2).bytes

end XmipPersist.EncryptedStore
