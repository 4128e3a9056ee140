import XmipPersist.Verification.Index.Key

/-! # What a range of an index finds

The entries that open with the same values are found in the order of the numbers that follow
them, from the first numbers asked on and up to the last, so many of them at most.
-/

namespace XmipPersist

/-! ## Keys that open alike -/

/-- The key of an entry that opens with `pre` and holds the numbers `vs` after it. -/
def orderedKey (pre : IndexKey) (vs : List ℕ) (id : ℕ) : IndexKey :=
  pre ++ vs.flatMap (bigEndian 8) ++ bigEndian 16 id

/-- So many numbers of 64 bits, and an identifier of 128. -/
structure Numbers (count : ℕ) (vs : List ℕ) (id : ℕ) : Prop where
  length : vs.length = count
  bounds : ∀ v ∈ vs, v ≤ u64Max
  id : id < 256 ^ 16

section Keys

variable {pre : IndexKey} {count : ℕ} {vs ws first rest : List ℕ} {id id' last : ℕ}

theorem Numbers.lt_pow (h : Numbers count vs id) : ∀ v ∈ vs, v < 256 ^ 8 :=
  fun v hv => lt_pow_of_le_u64Max (h.bounds v hv)

@[simp] theorem length_flatMap_bigEndian (width : ℕ) (vs : List ℕ) :
    (vs.flatMap (bigEndian width)).length = width * vs.length := by
  induction vs with
  | nil => rfl
  | cons v vs ih =>
      simp only [List.flatMap_cons, List.length_append, length_bigEndian, ih, List.length_cons]
      ring

theorem orderedKey_lt_iff (hv : Numbers count vs id) (hw : Numbers count ws id') :
    orderedKey pre vs id < orderedKey pre ws id' ↔ vs < ws ∨ vs = ws ∧ id < id' := by
  have hlen : vs.length = ws.length := hv.length.trans hw.length.symm
  rw [orderedKey, orderedKey, List.append_assoc, List.append_assoc, append_left_lt_iff,
    append_lt_append_iff (by simp [hlen]), flatMap_bigEndian_lt_iff hlen hv.lt_pow hw.lt_pow,
    flatMap_bigEndian_inj hlen hv.lt_pow hw.lt_pow, bigEndian_lt_iff hv.id hw.id]

theorem orderedKey_inj (hv : Numbers count vs id) (hw : Numbers count ws id')
    (h : orderedKey pre vs id = orderedKey pre ws id') : vs = ws ∧ id = id' := by
  have hlen : vs.length = ws.length := hv.length.trans hw.length.symm
  rw [orderedKey, orderedKey, List.append_assoc, List.append_assoc,
    List.append_cancel_left_eq] at h
  obtain ⟨hvs, hid⟩ := List.append_inj h (by simp [hlen])
  exact ⟨(flatMap_bigEndian_inj hlen hv.lt_pow hw.lt_pow).mp hvs,
    (bigEndian_inj hv.id hw.id).mp hid⟩

theorem le_orderedKey_iff (hv : Numbers count vs id) (hlen : first.length ≤ count)
    (hfirst : ∀ v ∈ first, v ≤ u64Max) :
    pre ++ first.flatMap (bigEndian 8) ≤ orderedKey pre vs id ↔ first ≤ vs := by
  rw [orderedKey, List.append_assoc, append_left_le_iff]
  exact flatMap_bigEndian_le_iff (hlen.trans hv.length.ge)
    (fun v hm => lt_pow_of_le_u64Max (hfirst v hm)) hv.lt_pow

/-- A key no later than the last of a range is of an entry whose first number is not. -/
theorem orderedKey_le_iff {v : ℕ} {vs : List ℕ} (hv : Numbers count (v :: vs) id)
    (hlast : last ≤ u64Max) :
    orderedKey pre (v :: vs) id ≤ pre ++ bigEndian 8 last ++ tops (8 * (count - 1) + 17) ↔
      v ≤ last := by
  have hv' := hv.lt_pow v (by simp)
  have hlast' := lt_pow_of_le_u64Max hlast
  have hrest : vs.flatMap (bigEndian 8) ++ bigEndian 16 id ≤ tops (8 * (count - 1) + 17) := by
    have hcount : vs.length = count - 1 := by
      have := hv.length
      simp only [List.length_cons] at this
      omega
    refine le_replicate (fun x hx => ?_) ?_
    · rcases List.mem_append.mp hx with hx | hx
      · obtain ⟨w, -, hx⟩ := List.mem_flatMap.mp hx
        exact le_of_mem_bigEndian hx
      · exact le_of_mem_bigEndian hx
    · simp only [List.length_append, length_flatMap_bigEndian, length_bigEndian, hcount]
      omega
  rw [orderedKey, List.flatMap_cons, List.append_assoc, List.append_assoc, List.append_assoc,
    append_left_le_iff, append_le_append_iff (by simp), bigEndian_lt_iff hv' hlast',
    bigEndian_inj hv' hlast']
  constructor
  · rintro (hlt | ⟨heq, -⟩)
    · exact hlt.le
    · exact heq.le
  · intro hle
    rcases Nat.lt_or_eq_of_le hle with hlt | heq
    · exact .inl hlt
    · exact .inr ⟨heq, hrest⟩

theorem numbers_flatMap (hv : ∀ v ∈ vs, v ≤ u64Max) :
    Index.numbers vs.length (vs.flatMap (bigEndian 8)) = vs := by
  induction vs with
  | nil => rfl
  | cons v vs ih =>
      have hhead := ofBigEndian_bigEndian (lt_pow_of_le_u64Max (hv v (by simp)))
      rw [List.flatMap_cons, List.length_cons, Index.numbers,
        List.take_left' (length_bigEndian 8 v), List.drop_left' (length_bigEndian 8 v), hhead,
        ih fun u hu => hv u (by simp [hu])]

end Keys

/-! ## A range in order -/

/-- One number list before another, or the same with an earlier identifier. -/
def Before (a b : List ℕ × ℕ) : Prop := a.1 < b.1 ∨ a.1 = b.1 ∧ a.2 < b.2

theorem Index.ordered_ok {index : Index} {pre : IndexKey} {count : ℕ} {vs : List ℕ} {id : ℕ}
    (hv : Numbers count vs id) :
    index.ordered pre count (orderedKey pre vs id, id) = .ok (vs, id) := by
  have hlen : (orderedKey pre vs id).length - 16 = (pre ++ vs.flatMap (bigEndian 8)).length := by
    simp only [orderedKey, List.length_append, length_bigEndian]
    omega
  have hvalues : ((orderedKey pre vs id).take ((orderedKey pre vs id).length - 16)).drop
      pre.length = vs.flatMap (bigEndian 8) := by
    rw [hlen, orderedKey, List.take_left, List.drop_left]
  have hcount := hv.length
  subst hcount
  simp only [Index.ordered, hvalues, length_flatMap_bigEndian, if_true,
    numbers_flatMap hv.bounds]

theorem mapM_eq_map {ε α β : Type} {f : α → Except ε β} {g : α → β} {xs : List α}
    (h : ∀ x ∈ xs, f x = .ok (g x)) : xs.mapM f = .ok (xs.map g) := by
  induction xs with
  | nil => rfl
  | cons x xs ih =>
      rw [List.mapM_cons, h x (by simp), ih fun y hy => h y (by simp [hy])]
      rfl

/-- Where every entry that opens with the values asked holds so many numbers after them, those
from `first` on and up to `last` are found in their order. -/
theorem Index.findOrdered_ok {index : Index} {s : Store} {equal : List Value} {count : ℕ}
    (hcount : index.columns.length - equal.length = count)
    (hshape : ∀ key id, s.entries.get key = some id → index.opens equal <+: key →
      ∃ vs, Numbers count vs id ∧ key = orderedKey (index.opens equal) vs id)
    {first : List ℕ} {last : ℕ} (hne : first ≠ []) (hlen : first.length ≤ count)
    (hfirst : ∀ v ∈ first, v ≤ u64Max) (hlast : last ≤ u64Max) :
    ∃ found : List (List ℕ × ℕ), found.Pairwise Before ∧
      (∀ vs id, (vs, id) ∈ found ↔ Numbers count vs id ∧
        s.entries.get (orderedKey (index.opens equal) vs id) = some id ∧ first ≤ vs ∧
          ∀ v ∈ vs.head?, v ≤ last) ∧
      ∀ most, index.findOrdered s equal first last most = .ok (found.take most) := by
  obtain ⟨start, more, rfl⟩ := List.exists_cons_of_ne_nil hne
  by_cases hempty : last < start
  · refine ⟨[], .nil, fun vs id => ?_, fun most => ?_⟩
    · simp only [List.not_mem_nil, false_iff]
      rintro ⟨hv, -, hle, hhead⟩
      cases vs with
      | nil => simp [← not_lt] at hle
      | cons v vs =>
          have hv' := hhead v rfl
          rw [← not_lt, List.cons_lt_cons_iff] at hle
          exact hle (.inl (by omega))
    · simp [findOrdered, hempty]
  · let lo := index.opens equal ++ (start :: more).flatMap (bigEndian 8)
    let hi := index.opens equal ++ bigEndian 8 last ++ tops (8 * (count - 1) + 17)
    -- an entry of the range opens as its ends do
    have hopens : ∀ e ∈ s.entries.between lo hi, ∃ vs, Numbers count vs e.2 ∧
        e.1 = orderedKey (index.opens equal) vs e.2 := by
      intro e he
      obtain ⟨hget, hlo, hhi⟩ := OrderedMap.mem_between.mp he
      simp only [hi, List.append_assoc] at hhi
      exact hshape e.1 e.2 hget (prefix_of_between hlo hhi)
    choose! values hvalues hkeys using hopens
    have hordered : ∀ e ∈ s.entries.between lo hi,
        index.ordered (index.opens equal) count e = .ok (values e, e.2) := by
      intro e he
      have hok := @Index.ordered_ok index (index.opens equal) _ _ _ (hvalues e he)
      rwa [← hkeys e he] at hok
    refine ⟨(s.entries.between lo hi).map fun e => (values e, e.2), ?_, fun vs id => ?_,
      fun most => ?_⟩
    · rw [List.pairwise_map]
      refine (s.entries.between_ascending lo hi).imp_of_mem fun {a b} ha hb hab => ?_
      rw [hkeys a ha, hkeys b hb] at hab
      exact (orderedKey_lt_iff (hvalues a ha) (hvalues b hb)).mp hab
    · have hends : ∀ {vs : List ℕ} {id : ℕ}, Numbers count vs id →
          (lo ≤ orderedKey (index.opens equal) vs id ∧
            orderedKey (index.opens equal) vs id ≤ hi ↔
              start :: more ≤ vs ∧ ∀ v ∈ vs.head?, v ≤ last) := by
        intro vs id hv
        rw [le_orderedKey_iff hv hlen hfirst]
        cases vs with
        | nil =>
            have hzero := hv.length
            simp only [List.length_nil, List.length_cons] at hzero hlen
            omega
        | cons v vs =>
            rw [orderedKey_le_iff hv hlast]
            simp
      constructor
      · intro hmem
        obtain ⟨e, he, heq⟩ := List.mem_map.mp hmem
        obtain ⟨rfl, rfl⟩ := Prod.mk.inj heq
        obtain ⟨hget, hrange⟩ := OrderedMap.mem_between.mp he
        rw [hkeys e he] at hrange hget
        exact ⟨hvalues e he, hget, (hends (hvalues e he)).mp hrange⟩
      · rintro ⟨hv, hget, hrange⟩
        have he : (orderedKey (index.opens equal) vs id, id) ∈ s.entries.between lo hi :=
          OrderedMap.mem_between.mpr ⟨hget, (hends hv).mpr hrange⟩
        refine List.mem_map.mpr ⟨_, he, ?_⟩
        have hsame := orderedKey_inj hv (hvalues _ he) (hkeys _ he)
        rw [← hsame.1]
    · have hle : ¬(count < (start :: more).length ∨ last < start) := by
        rintro (hlt | hlt)
        · omega
        · exact hempty hlt
      simp only [findOrdered, hcount, List.head?_cons, hle, if_false]
      rw [OrderedMap.range_eq, if_neg (by simp)]
      rw [mapM_eq_map fun e he => hordered e (List.mem_of_mem_take he), List.map_take]

/-- What a range in order finds is what the index keeps of the entries that open as it does. -/
theorem Index.findOrdered_congr {index : Index} {s s' : Store} {equal : List Value}
    (h : ∀ key, index.opens equal <+: key → s.entries.get key = s'.entries.get key)
    (first : List ℕ) (last most : ℕ) :
    index.findOrdered s equal first last most = index.findOrdered s' equal first last most := by
  have hrange : ∀ lo hi : IndexKey, s.entries.range (index.opens equal ++ lo)
      (index.opens equal ++ hi) most false =
        s'.entries.range (index.opens equal ++ lo) (index.opens equal ++ hi) most false := by
    intro lo hi
    rw [OrderedMap.range_eq, OrderedMap.range_eq, OrderedMap.between_congr fun key hlo hhi =>
      h key (prefix_of_between hlo hhi)]
  simp only [findOrdered, List.append_assoc, hrange]

end XmipPersist
