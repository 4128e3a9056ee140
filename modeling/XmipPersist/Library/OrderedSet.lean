import Mathlib

/-! # Finite sets kept in their order

The keys of an ordered store, held ascending and each once, with what a range read of
them finds first.
-/

namespace XmipPersist

variable {α : Type*} [LinearOrder α]

/-- A finite set as the ascending list of its elements. -/
structure OrderedSet (α : Type*) [LinearOrder α] where
  toList : List α
  ascending : toList.Pairwise (· < ·)

namespace OrderedSet

/-! ## Membership and equality -/

instance : Membership α (OrderedSet α) := ⟨fun s x => x ∈ s.toList⟩

theorem mem_def {s : OrderedSet α} {x : α} : x ∈ s ↔ x ∈ s.toList := Iff.rfl

@[ext] theorem ext {s t : OrderedSet α} (h : ∀ x, x ∈ s ↔ x ∈ t) : s = t := by
  obtain ⟨xs, hx⟩ := s
  obtain ⟨ys, hy⟩ := t
  have : xs = ys := hx.eq_of_mem_iff hy h
  subst this
  rfl

/-- The set with nothing in it. -/
def empty : OrderedSet α := ⟨[], .nil⟩

@[simp] theorem not_mem_empty (x : α) : ¬x ∈ (empty : OrderedSet α) :=
  fun h => nomatch (mem_def.mp h)

/-! ## Inserting and erasing -/

/-- `x` put in its place among `xs`, once. -/
def insertInto (x : α) : List α → List α
  | [] => [x]
  | y :: ys => if x < y then x :: y :: ys else if x = y then y :: ys else y :: insertInto x ys

theorem mem_insertInto (x z : α) (xs : List α) :
    z ∈ insertInto x xs ↔ z = x ∨ z ∈ xs := by
  induction xs with
  | nil => simp [insertInto]
  | cons y ys ih =>
      simp only [insertInto]
      split
      · simp
      · split
        · next h => simp [h]
        · simp only [List.mem_cons, ih]
          tauto

theorem insertInto_ascending (x : α) {xs : List α} (h : xs.Pairwise (· < ·)) :
    (insertInto x xs).Pairwise (· < ·) := by
  induction xs with
  | nil => simp [insertInto]
  | cons y ys ih =>
      obtain ⟨hy, hys⟩ := List.pairwise_cons.mp h
      simp only [insertInto]
      split
      · next hxy =>
          refine List.pairwise_cons.mpr ⟨fun z hz => ?_, h⟩
          rcases List.mem_cons.mp hz with rfl | hz
          · exact hxy
          · exact hxy.trans (hy z hz)
      · next hxy =>
          split
          · exact h
          · next hne =>
              refine List.pairwise_cons.mpr ⟨fun z hz => ?_, ih hys⟩
              rcases (mem_insertInto x z ys).mp hz with rfl | hz
              · exact lt_of_le_of_ne (not_lt.mp hxy) (Ne.symm hne)
              · exact hy z hz

def insert (s : OrderedSet α) (x : α) : OrderedSet α :=
  ⟨insertInto x s.toList, insertInto_ascending x s.ascending⟩

def erase (s : OrderedSet α) (x : α) : OrderedSet α :=
  ⟨s.toList.filter (· ≠ x), s.ascending.filter _⟩

@[simp] theorem mem_insert {s : OrderedSet α} {x z : α} :
    z ∈ s.insert x ↔ z = x ∨ z ∈ s :=
  mem_insertInto x z s.toList

@[simp] theorem mem_erase {s : OrderedSet α} {x z : α} :
    z ∈ s.erase x ↔ z ∈ s ∧ z ≠ x := by
  simp [mem_def, erase]

/-! ## Reading a range -/

/-- Up to `most` of the elements from `first` to `last`, both included, in order. -/
def scan (s : OrderedSet α) (first last : α) (most : ℕ) : List α :=
  (s.toList.filter fun x => first ≤ x ∧ x ≤ last).take most

theorem mem_of_mem_scan {s : OrderedSet α} {first last x : α} {most : ℕ}
    (h : x ∈ s.scan first last most) : x ∈ s ∧ first ≤ x ∧ x ≤ last := by
  have := List.mem_of_mem_take h
  simpa [mem_def] using this

/-- Of an ascending list, the first element satisfying `p` is the least that does. -/
theorem find?_ascending {xs : List α} (h : xs.Pairwise (· < ·)) {p : α → Bool} {x : α} :
    xs.find? p = some x ↔ x ∈ xs ∧ p x ∧ ∀ y ∈ xs, p y → x ≤ y := by
  induction xs with
  | nil => simp
  | cons y ys ih =>
      obtain ⟨hy, hys⟩ := List.pairwise_cons.mp h
      rw [List.find?_cons]
      cases hp : p y with
      | true =>
          simp only [Option.some.injEq]
          constructor
          · rintro rfl
            refine ⟨by simp, hp, fun z hz _ => ?_⟩
            rcases List.mem_cons.mp hz with rfl | hz
            · exact le_rfl
            · exact (hy z hz).le
          · rintro ⟨hx, _, hle⟩
            have hxy := hle y (by simp) hp
            rcases List.mem_cons.mp hx with rfl | hx
            · rfl
            · exact absurd hxy (not_le.mpr (hy x hx))
      | false =>
          simp only [ih hys, List.mem_cons, forall_eq_or_imp]
          constructor
          · rintro ⟨hx, hpx, hle⟩
            exact ⟨.inr hx, hpx, fun h => by simp [hp] at h, hle⟩
          · rintro ⟨hx, hpx, _, hle⟩
            rcases hx with rfl | hx
            · simp [hp] at hpx
            · exact ⟨hx, hpx, hle⟩

omit [LinearOrder α] in
/-- A prefix longer than the number of elements that fail `p` holds the first one that
satisfies it. -/
theorem find?_take_of_few {xs : List α} {p : α → Bool} {most : ℕ}
    (h : (xs.filter fun x => !p x).length < most) : (xs.take most).find? p = xs.find? p := by
  induction xs generalizing most with
  | nil => simp
  | cons x xs ih =>
      cases most with
      | zero => simp at h
      | succ most =>
          rw [List.take_succ_cons, List.find?_cons, List.find?_cons]
          cases hp : p x with
          | true => rfl
          | false =>
              refine ih ?_
              simpa [hp] using h

/-- The first element of a range that satisfies `p`, where the range read is longer than the
number of its elements that do not. -/
theorem find?_scan {s : OrderedSet α} {first last x : α} {most : ℕ} {p : α → Bool}
    (h : ((s.scan first last s.toList.length).filter fun y => !p y).length < most) :
    (s.scan first last most).find? p = some x ↔
      x ∈ s ∧ (first ≤ x ∧ x ≤ last) ∧ p x ∧
        ∀ y ∈ s, first ≤ y → y ≤ last → p y → x ≤ y := by
  have hall : s.scan first last s.toList.length =
      s.toList.filter fun x => first ≤ x ∧ x ≤ last :=
    List.take_of_length_le (List.length_filter_le _ _)
  rw [hall] at h
  rw [scan, find?_take_of_few h, find?_ascending (s.ascending.filter _)]
  simp only [List.mem_filter, decide_eq_true_eq, mem_def]
  constructor
  · rintro ⟨⟨hx, hr⟩, hp, hle⟩
    exact ⟨hx, hr, hp, fun y hy h₁ h₂ => hle y ⟨hy, h₁, h₂⟩⟩
  · rintro ⟨hx, hr, hp, hle⟩
    exact ⟨⟨hx, hr⟩, hp, fun y hy => hle y hy.1 hy.2.1 hy.2.2⟩

/-! ## A range of which some keys are passed over -/

section Untouched

variable {κ : Type*} [DecidableEq κ] {key : α → κ} {s : OrderedSet α} {touched : List κ}
  {first last x y : α}

omit [DecidableEq κ] in
/-- Where no two elements share a key, no more of a range is touched than there are keys. -/
theorem length_filter_touched (hkey : ∀ x ∈ s, ∀ y ∈ s, key x = key y → x = y) {p : α → Bool}
    (hp : ∀ x, (!p x) = true → key x ∈ touched) (first last : α) (most : ℕ) :
    ((s.scan first last most).filter fun x => !p x).length ≤ touched.length := by
  have hnodup : (((s.scan first last most).filter fun x => !p x).map key).Nodup := by
    refine List.Nodup.map_on (fun x hx y hy h => ?_) ?_
    · exact hkey x (mem_of_mem_scan (List.mem_of_mem_filter hx)).1 y
        (mem_of_mem_scan (List.mem_of_mem_filter hy)).1 h
    · have hasc : (s.scan first last most).Pairwise (· < ·) := (s.ascending.filter _).take
      exact (hasc.imp fun h => h.ne).filter _
  have hsub : ((s.scan first last most).filter fun x => !p x).map key ⊆ touched := by
    intro k hk
    obtain ⟨x, hx, rfl⟩ := List.mem_map.mp hk
    exact hp x (List.mem_filter.mp hx).2
  have hlength := hnodup.length_le_of_subset hsub
  rwa [List.length_map] at hlength

/-- The first element of a range that is not touched is in the range. -/
theorem find?_untouched (hfind : (s.scan first last (touched.length + 1)).find?
    (fun x => key x ∉ touched) = some x) : x ∈ s ∧ first ≤ x ∧ x ≤ last :=
  mem_of_mem_scan (List.mem_of_find?_eq_some hfind)

/-- It is at or before each element of the range that is not touched. -/
theorem exists_find?_le (hkey : ∀ x ∈ s, ∀ y ∈ s, key x = key y → x = y) (hy : y ∈ s)
    (hfirst : first ≤ y) (hlast : y ≤ last) (huntouched : key y ∉ touched) :
    ∃ x, (s.scan first last (touched.length + 1)).find? (fun x => key x ∉ touched) = some x ∧
      x ≤ y := by
  have hpassed : ∀ x, (!decide (key x ∉ touched)) = true → key x ∈ touched := by simp
  have hfew := length_filter_touched hkey hpassed first last s.toList.length
  have hlt := Nat.lt_succ_of_le hfew
  cases hfind : (s.scan first last (touched.length + 1)).find? (fun x => key x ∉ touched) with
  | some x => exact ⟨x, rfl, ((find?_scan hlt).mp hfind).2.2.2 y hy hfirst hlast (by simpa)⟩
  | none =>
      have hall : s.scan first last s.toList.length =
          s.toList.filter fun x => first ≤ x ∧ x ≤ last :=
        List.take_of_length_le (List.length_filter_le _ _)
      rw [hall] at hlt
      rw [scan, find?_take_of_few hlt, List.find?_eq_none] at hfind
      have hmem : y ∈ s.toList.filter fun x => first ≤ x ∧ x ≤ last :=
        List.mem_filter.mpr ⟨hy, by simpa using ⟨hfirst, hlast⟩⟩
      exact absurd (by simpa using huntouched) (hfind y hmem)

end Untouched

end OrderedSet

end XmipPersist
