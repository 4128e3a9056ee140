import Mathlib

/-! # Lists each of whose elements is linked to the one before it -/

namespace XmipPersist

variable {α : Type}

/-- A list whose elements each follow the one before, the first none. -/
inductive Linked (follows : Option α → α → Prop) : List α → Prop
  | nil : Linked follows []
  | snoc {xs : List α} {x : α} (h : Linked follows xs) (hx : follows xs.getLast? x) :
      Linked follows (xs ++ [x])

namespace Linked

variable {follows : Option α → α → Prop} {xs ys : List α}

/-- The last element follows what is before it, itself linked. -/
theorem dropLast {x : α} (h : Linked follows (xs ++ [x])) :
    Linked follows xs ∧ follows xs.getLast? x := by
  generalize hall : xs ++ [x] = all at h
  cases h with
  | nil => simp at hall
  | snoc h hx =>
      obtain ⟨rfl, hlast⟩ := List.append_inj' hall rfl
      obtain rfl : x = _ := List.singleton_inj.mp hlast
      exact ⟨h, hx⟩

/-- Every element follows one before it or none. -/
theorem follows_of_mem (h : Linked follows xs) {x : α} (hx : x ∈ xs) :
    ∃ before, follows before x := by
  induction h with
  | nil => cases hx
  | snoc h hlast ih =>
      rcases List.mem_append.mp hx with hx | hx
      · exact ih hx
      · rw [List.mem_singleton.mp hx]
        exact ⟨_, hlast⟩

theorem rel_getLast? {β : Type} {same : α → β → Prop} {zs : List β}
    (h : List.Forall₂ same xs zs) : Option.Rel same xs.getLast? zs.getLast? := by
  have hreverse := List.forall₂_reverse_iff.mpr h
  rw [← List.head?_reverse, ← List.head?_reverse]
  generalize xs.reverse = as at hreverse ⊢
  generalize zs.reverse = bs at hreverse ⊢
  cases hreverse with
  | nil => exact .none
  | cons hlast _ => exact .some hlast

/-- Elements told apart from linked ones by nothing that links them are linked too. -/
theorem forall₂ {β : Type} {follows' : Option β → β → Prop} {same : α → β → Prop} {zs : List β}
    (h : Linked follows xs) (hsame : List.Forall₂ same xs zs)
    (hfollows : ∀ before before' x z, Option.Rel same before before' → same x z →
      follows before x → follows' before' z) : Linked follows' zs := by
  induction h generalizing zs with
  | nil =>
      cases hsame
      exact .nil
  | @snoc xs x h hx ih =>
      rcases List.eq_nil_or_concat zs with rfl | ⟨zs, z, rfl⟩
      · have hlength := hsame.length_eq
        simp at hlength
      · rw [List.concat_eq_append] at hsame ⊢
        have hlength : xs.length = zs.length := by
          have hall := hsame.length_eq
          simpa using hall
        have hbefore := List.forall₂_take_append _ _ _ hsame
        have hlast := List.forall₂_drop_append _ _ _ hsame
        rw [← hlength, List.take_left] at hbefore
        rw [← hlength, List.drop_left] at hlast
        refine .snoc (ih hbefore) (hfollows _ _ x z (rel_getLast? hbefore) ?_ hx)
        cases hlast
        assumption

/-- Where elements that agree are the same, and follow ones that agree or none both, lists linked
to elements that agree are the same throughout. -/
theorem forall₂_of_last {agree same : α → α → Prop} (hxs : Linked follows xs)
    (hys : Linked follows ys) (hlast : Option.Rel agree xs.getLast? ys.getLast?)
    (hback : ∀ before before' x y, x ∈ xs → y ∈ ys → (∀ u ∈ before, u ∈ xs) →
      (∀ u ∈ before', u ∈ ys) → follows before x → follows before' y → agree x y →
        same x y ∧ Option.Rel agree before before') :
    List.Forall₂ same xs ys := by
  induction hxs generalizing ys with
  | nil =>
      rcases List.eq_nil_or_concat ys with rfl | ⟨ys, y, rfl⟩
      · exact .nil
      · simp only [List.concat_eq_append, List.getLast?_nil, List.getLast?_append_cons] at hlast
        cases hlast
  | @snoc xs x hxs hx ih =>
      rcases List.eq_nil_or_concat ys with rfl | ⟨ys, y, rfl⟩
      · simp only [List.getLast?_nil, List.getLast?_append_cons] at hlast
        cases hlast
      · rw [List.concat_eq_append] at *
        obtain ⟨hys, hy⟩ := hys.dropLast
        have hagree : agree x y := by
          simp only [List.getLast?_append_cons, List.getLast?_singleton] at hlast
          cases hlast
          assumption
        obtain ⟨hsame, hbefore⟩ := hback _ _ x y (by simp) (by simp)
          (fun u hu => by simp [List.mem_of_getLast? hu])
          (fun u hu => by simp [List.mem_of_getLast? hu]) hx hy hagree
        refine List.rel_append (ih hys hbefore ?_) (.cons hsame .nil)
        intro before before' z z' hz hz' hu hu'
        exact hback before before' z z' (by simp [hz]) (by simp [hz'])
          (fun u h => by simp [hu u h]) fun u h => by simp [hu' u h]

end Linked

end XmipPersist
