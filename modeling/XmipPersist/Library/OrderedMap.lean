import XmipPersist.Library.OrderedSet

/-! # Finite maps kept in the order of their keys

What an ordered engine holds: a value for each of its keys, changed one key at a time or
several at once, and read page by page.
-/

namespace XmipPersist

variable {κ ν : Type} [LinearOrder κ]

/-- A finite map as its keys in order and the value of each. -/
structure OrderedMap (κ ν : Type) [LinearOrder κ] where
  keys : OrderedSet κ
  get : κ → Option ν
  mem_keys : ∀ k, k ∈ keys ↔ (get k).isSome

namespace OrderedMap

@[ext] theorem ext {m m' : OrderedMap κ ν} (h : ∀ k, m.get k = m'.get k) : m = m' := by
  obtain ⟨keys, get, hk⟩ := m
  obtain ⟨keys', get', hk'⟩ := m'
  have hget : get = get' := funext h
  subst hget
  have hkeys : keys = keys' := OrderedSet.ext fun k => (hk k).trans (hk' k).symm
  subst hkeys
  rfl

/-- The map with nothing in it. -/
def empty : OrderedMap κ ν := ⟨.empty, fun _ => none, by simp⟩

@[simp] theorem get_empty (k : κ) : (empty : OrderedMap κ ν).get k = none := rfl

/-! ## Changes -/

/-- `k` given the value `v`, or removed where there is none. -/
def change (m : OrderedMap κ ν) (k : κ) (v : Option ν) : OrderedMap κ ν where
  keys := if v.isSome then m.keys.insert k else m.keys.erase k
  get := Function.update m.get k v
  mem_keys k' := by
    cases v with
    | none => by_cases h : k' = k <;> simp [h, m.mem_keys]
    | some v => by_cases h : k' = k <;> simp [h, m.mem_keys]

@[simp] theorem get_change (m : OrderedMap κ ν) (k k' : κ) (v : Option ν) :
    (m.change k v).get k' = if k' = k then v else m.get k' := by
  simp [change, Function.update_apply]

/-- Every change made, one after another. -/
def apply (m : OrderedMap κ ν) (changes : List (κ × Option ν)) : OrderedMap κ ν :=
  changes.foldl (fun m c => m.change c.1 c.2) m

@[simp] theorem apply_nil (m : OrderedMap κ ν) : m.apply [] = m := rfl

@[simp] theorem apply_cons (m : OrderedMap κ ν) (c : κ × Option ν)
    (changes : List (κ × Option ν)) :
    m.apply (c :: changes) = (m.change c.1 c.2).apply changes := rfl

theorem apply_append (m : OrderedMap κ ν) (xs ys : List (κ × Option ν)) :
    m.apply (xs ++ ys) = (m.apply xs).apply ys :=
  List.foldl_append

/-- A key no change names keeps its value. -/
theorem get_apply_of_notMem (m : OrderedMap κ ν) {changes : List (κ × Option ν)} {k : κ}
    (h : k ∉ changes.map Prod.fst) : (m.apply changes).get k = m.get k := by
  induction changes generalizing m with
  | nil => rfl
  | cons c changes ih =>
      have hne : k ≠ c.1 := fun he => h (by simp [he])
      have hrest : k ∉ changes.map Prod.fst := fun hk => h (by simp [hk])
      rw [apply_cons, ih _ hrest, get_change, if_neg hne]

/-- A key the changes name is given the same value, whatever it had before. -/
theorem get_apply_of_mem (m m' : OrderedMap κ ν) {changes : List (κ × Option ν)} {k : κ}
    (h : k ∈ changes.map Prod.fst) : (m.apply changes).get k = (m'.apply changes).get k := by
  induction changes generalizing m m' with
  | nil => simp at h
  | cons c changes ih =>
      rw [apply_cons, apply_cons]
      by_cases hrest : k ∈ changes.map Prod.fst
      · exact ih _ _ hrest
      · have hk : k = c.1 := by simpa [hrest] using h
        rw [get_apply_of_notMem _ hrest, get_apply_of_notMem _ hrest]
        simp [hk]

/-- A change that names its key alone is what the key is left with. -/
theorem get_apply_of_unique (m : OrderedMap κ ν) {changes : List (κ × Option ν)}
    (hnodup : (changes.map Prod.fst).Nodup) {k : κ} {v : Option ν} (h : (k, v) ∈ changes) :
    (m.apply changes).get k = v := by
  induction changes generalizing m with
  | nil => simp at h
  | cons c changes ih =>
      have ⟨hc, hrest⟩ := List.nodup_cons.mp hnodup
      rw [apply_cons]
      rcases List.mem_cons.mp h with rfl | h
      · rw [get_apply_of_notMem _ hc]
        simp
      · exact ih _ hrest h

/-- Changes that agree on a key leave it what they say. -/
theorem get_apply_of_same (m : OrderedMap κ ν) {changes : List (κ × Option ν)} {k : κ}
    {v : Option ν} (hmem : k ∈ changes.map Prod.fst) (h : ∀ c ∈ changes, c.1 = k → c.2 = v) :
    (m.apply changes).get k = v := by
  induction changes generalizing m with
  | nil => simp at hmem
  | cons c changes ih =>
      rw [apply_cons]
      by_cases hrest : k ∈ changes.map Prod.fst
      · exact ih _ hrest fun d hd => h d (by simp [hd])
      · have hk : k = c.1 := by simpa [hrest] using hmem
        rw [get_apply_of_notMem _ hrest, get_change, if_pos hk]
        exact h c (by simp) hk.symm

/-! ## Reading a page -/

/-- Up to `most` entries in the order of their keys, those after `passed` where it is given. -/
def page (m : OrderedMap κ ν) (passed : Option κ) (most : ℕ) : List (κ × ν) :=
  ((m.keys.toList.filter fun k => ∀ p ∈ passed, p < k).take most).filterMap fun k =>
    (m.get k).map (Prod.mk k)

/-- The key of a page's last entry. -/
def lastOf (page : List (κ × ν)) : Option κ := page.getLast?.map Prod.fst

omit [LinearOrder κ] in
theorem page_of_lastOf_none {page : List (κ × ν)} (h : lastOf page = none) : page = [] := by
  simpa [lastOf] using h

theorem mem_page {m : OrderedMap κ ν} {passed : Option κ} {most : ℕ} {k : κ} {v : ν}
    (h : (k, v) ∈ m.page passed most) : m.get k = some v ∧ ∀ p ∈ passed, p < k := by
  obtain ⟨k', hk', he⟩ := List.mem_filterMap.mp h
  obtain ⟨w, hw, hkw⟩ := Option.map_eq_some_iff.mp he
  obtain ⟨rfl, rfl⟩ := Prod.mk.inj hkw
  have hmem := (List.mem_filter.mp (List.mem_of_mem_take hk')).2
  exact ⟨hw, by simpa using hmem⟩

/-- Every key of the list has its entry in what is read of it. -/
private theorem map_fst_read (m : OrderedMap κ ν) {ks : List κ} (h : ∀ k ∈ ks, k ∈ m.keys) :
    (ks.filterMap fun k => (m.get k).map (Prod.mk k)).map Prod.fst = ks := by
  induction ks with
  | nil => rfl
  | cons k ks ih =>
      have ⟨v, hv⟩ := Option.isSome_iff_exists.mp ((m.mem_keys k).mp (h k (by simp)))
      have hks := ih fun k' hk' => h k' (by simp [hk'])
      rw [List.filterMap_cons_some (by rw [hv]; rfl), List.map_cons, hks]

theorem map_fst_page (m : OrderedMap κ ν) (passed : Option κ) (most : ℕ) :
    (m.page passed most).map Prod.fst =
      (m.keys.toList.filter fun k => ∀ p ∈ passed, p < k).take most :=
  map_fst_read m fun _ hk =>
    OrderedSet.mem_def.mpr (List.mem_of_mem_filter (List.mem_of_mem_take hk))

theorem page_ascending (m : OrderedMap κ ν) (passed : Option κ) (most : ℕ) :
    ((m.page passed most).map Prod.fst).Pairwise (· < ·) := by
  rw [map_fst_page]
  exact (m.keys.ascending.filter _).sublist (List.take_sublist _ _)

theorem page_nodup (m : OrderedMap κ ν) (passed : Option κ) (most : ℕ) :
    ((m.page passed most).map Prod.fst).Nodup :=
  (page_ascending m passed most).imp fun h => ne_of_lt h

/-- A page with nothing on it is read where no key is left. -/
theorem get_of_page_nil {m : OrderedMap κ ν} {passed : Option κ} {most : ℕ} (hmost : 0 < most)
    (h : m.page passed most = []) {k : κ} (hk : ∀ p ∈ passed, p < k) : m.get k = none := by
  have hkeys := map_fst_page m passed most
  rw [h, List.map_nil] at hkeys
  have hnil : (m.keys.toList.filter fun k => ∀ p ∈ passed, p < k) = [] := by
    rcases List.take_eq_nil_iff.mp hkeys.symm with h0 | hnil
    · omega
    · exact hnil
  by_contra hne
  have hmem : k ∈ m.keys := (m.mem_keys k).mpr (Option.isSome_iff_ne_none.mpr hne)
  have : k ∈ m.keys.toList.filter fun k => ∀ p ∈ passed, p < k :=
    List.mem_filter.mpr ⟨hmem, by simpa using hk⟩
  rw [hnil] at this
  exact absurd this List.not_mem_nil

/-- In an ascending list, what stands no later than the last element of a prefix is in it. -/
private theorem mem_take_of_le {xs : List κ} (h : xs.Pairwise (· < ·)) {n : ℕ} {l k : κ}
    (hl : (xs.take n).getLast? = some l) (hk : k ∈ xs) (hkl : k ≤ l) : k ∈ xs.take n := by
  have hsplit := List.take_append_drop n xs
  rw [← hsplit] at h hk
  rcases List.mem_append.mp hk with hk | hk
  · exact hk
  · have hlt := (List.pairwise_append.mp h).2.2 l (List.mem_of_getLast? hl) k hk
    exact absurd hkl (not_le.mpr hlt)

/-- A page holds every entry up to its last key. -/
theorem mem_page_of_le {m : OrderedMap κ ν} {passed : Option κ} {most : ℕ} {l k : κ} {v : ν}
    (hl : lastOf (m.page passed most) = some l) (hpassed : ∀ p ∈ passed, p < k) (hkl : k ≤ l)
    (hv : m.get k = some v) : (k, v) ∈ m.page passed most := by
  have hkeys := map_fst_page m passed most
  have hlast : ((m.keys.toList.filter fun k => ∀ p ∈ passed, p < k).take most).getLast? =
      some l := by
    rw [← hkeys, List.getLast?_map]
    exact hl
  have hmem : k ∈ m.keys.toList.filter fun k => ∀ p ∈ passed, p < k :=
    List.mem_filter.mpr ⟨(m.mem_keys k).mpr (by simp [hv]), by simpa using hpassed⟩
  have htake := mem_take_of_le (m.keys.ascending.filter _) hlast hmem hkl
  exact List.mem_filterMap.mpr ⟨k, htake, by simp [hv]⟩

theorem lt_of_lastOf {m : OrderedMap κ ν} {passed : Option κ} {most : ℕ} {l : κ}
    (hl : lastOf (m.page passed most) = some l) : ∀ p ∈ passed, p < l := by
  obtain ⟨e, he, rfl⟩ := Option.map_eq_some_iff.mp hl
  exact (mem_page (k := e.1) (v := e.2) (List.mem_of_getLast? he)).2

theorem le_of_mem_page {m : OrderedMap κ ν} {passed : Option κ} {most : ℕ} {l k : κ} {v : ν}
    (hl : lastOf (m.page passed most) = some l) (h : (k, v) ∈ m.page passed most) : k ≤ l := by
  have hlast : ((m.page passed most).map Prod.fst).getLast? = some l := by
    rw [List.getLast?_map]
    exact hl
  have hk : k ∈ (m.page passed most).map Prod.fst := List.mem_map_of_mem h
  have hasc := page_ascending m passed most
  obtain ⟨init, hinit⟩ := List.getLast?_eq_some_iff.mp hlast
  rw [hinit] at hk hasc
  rcases List.mem_append.mp hk with hk | hk
  · exact ((List.pairwise_append.mp hasc).2.2 k hk l (by simp)).le
  · simp only [List.mem_singleton] at hk
    exact hk.le

/-! ## Reading a range -/

/-- Up to `most` entries whose keys are from `first` to `last`, both included, in the order of
their keys or the reverse. -/
def range (m : OrderedMap κ ν) (first last : κ) (most : ℕ) (reverse : Bool) : List (κ × ν) :=
  let found := m.keys.toList.filter fun k => first ≤ k ∧ k ≤ last
  ((if reverse then found.reverse else found).take most).filterMap fun k =>
    (m.get k).map (Prod.mk k)

/-- All of them. -/
def between (m : OrderedMap κ ν) (first last : κ) : List (κ × ν) :=
  (m.keys.toList.filter fun k => first ≤ k ∧ k ≤ last).filterMap fun k =>
    (m.get k).map (Prod.mk k)

/-- Keys that are a map's are read as many as they are. -/
private theorem read_take (m : OrderedMap κ ν) {ks : List κ} (h : ∀ k ∈ ks, k ∈ m.keys)
    (n : ℕ) :
    (ks.take n).filterMap (fun k => (m.get k).map (Prod.mk k)) =
      (ks.filterMap fun k => (m.get k).map (Prod.mk k)).take n := by
  induction ks generalizing n with
  | nil => simp
  | cons k ks ih =>
      have ⟨v, hv⟩ := Option.isSome_iff_exists.mp ((m.mem_keys k).mp (h k (by simp)))
      cases n with
      | zero => simp
      | succ n => simp [hv, ih (fun k' hk' => h k' (by simp [hk']))]

theorem range_eq (m : OrderedMap κ ν) (first last : κ) (most : ℕ) (reverse : Bool) :
    m.range first last most reverse =
      (if reverse then (m.between first last).reverse else m.between first last).take most := by
  have hkeys : ∀ k ∈ m.keys.toList.filter fun k => first ≤ k ∧ k ≤ last, k ∈ m.keys :=
    fun k hk => OrderedSet.mem_def.mpr (List.mem_of_mem_filter hk)
  cases reverse with
  | false => exact read_take m hkeys most
  | true =>
      have hreverse := read_take m (fun k hk => hkeys k (List.mem_reverse.mp hk)) most
      simp only [range, if_true, hreverse, List.filterMap_reverse]
      rfl

theorem mem_between {m : OrderedMap κ ν} {first last k : κ} {v : ν} :
    (k, v) ∈ m.between first last ↔ m.get k = some v ∧ first ≤ k ∧ k ≤ last := by
  simp only [between, List.mem_filterMap, Option.map_eq_some_iff, Prod.mk.injEq, List.mem_filter,
    decide_eq_true_eq]
  constructor
  · rintro ⟨k', ⟨-, hrange⟩, w, hw, rfl, rfl⟩
    exact ⟨hw, hrange⟩
  · rintro ⟨hv, hrange⟩
    have hmem : k ∈ m.keys := (m.mem_keys k).mpr (by simp [hv])
    exact ⟨k, ⟨hmem, hrange⟩, v, hv, rfl, rfl⟩

theorem between_ascending (m : OrderedMap κ ν) (first last : κ) :
    (m.between first last).Pairwise fun a b => a.1 < b.1 := by
  have hkeys : (m.between first last).map Prod.fst =
      m.keys.toList.filter fun k => first ≤ k ∧ k ≤ last :=
    map_fst_read m fun _ hk => OrderedSet.mem_def.mpr (List.mem_of_mem_filter hk)
  rw [← List.pairwise_map, hkeys]
  exact m.keys.ascending.filter _

/-- Maps that agree between two keys hold the same there. -/
theorem between_congr {m m' : OrderedMap κ ν} {first last : κ}
    (h : ∀ k, first ≤ k → k ≤ last → m.get k = m'.get k) :
    m.between first last = m'.between first last := by
  have hirrefl : Std.Irrefl fun a b : κ × ν => a.1 < b.1 := ⟨fun a => lt_irrefl a.1⟩
  have hasymm : Std.Antisymm fun a b : κ × ν => a.1 < b.1 :=
    ⟨fun a b hab hba => absurd hab (lt_asymm hba)⟩
  refine (between_ascending m first last).eq_of_mem_iff (between_ascending m' first last) ?_
  rintro ⟨k, v⟩
  rw [mem_between, mem_between]
  constructor
  · rintro ⟨hget, hfirst, hlast⟩
    exact ⟨by rw [← h k hfirst hlast, hget], hfirst, hlast⟩
  · rintro ⟨hget, hfirst, hlast⟩
    exact ⟨by rw [h k hfirst hlast, hget], hfirst, hlast⟩

end OrderedMap

end XmipPersist
