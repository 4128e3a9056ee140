import XmipPersist.Library.OrderedMap

/-! # Values kept sealed, each under a name of its own

The values of one map are kept by another, each under a name of its place and as something that
opens, for that place, to the value. What is written to the one and to the other in step keeps
them so, and a range of the one is a range of the other where names sort as places do. Whatever is
moved about in the keeping map, nothing in it opens to a value that was not written at its place.
-/

namespace XmipPersist.Sealed

variable {π κ ν σ : Type} {name : π → κ} {opens : π → σ → ν → Prop} {places : Set π}
  {plain : π → Option ν} {kept : κ → Option σ} {p : π} {k : κ}

/-! ## One map kept by another -/

/-- What is kept under a place's name opens there to the place's value, and nothing is kept where
there is none. -/
def Keeps (name : π → κ) (opens : π → σ → ν → Prop) (places : Set π) (plain : π → Option ν)
    (kept : κ → Option σ) : Prop :=
  ∀ p ∈ places, Option.Rel (fun v s => opens p s v) (plain p) (kept (name p))

theorem Keeps.read_none (h : Keeps name opens places plain kept) (hp : p ∈ places)
    (hkept : kept (name p) = none) : plain p = none := by
  have hrel := h p hp
  rw [hkept] at hrel
  cases hv : plain p with
  | none => rfl
  | some v =>
      rw [hv] at hrel
      cases hrel

theorem Keeps.read_some (h : Keeps name opens places plain kept) (hp : p ∈ places) {s : σ}
    (hkept : kept (name p) = some s) : ∃ v, plain p = some v ∧ opens p s v := by
  have hrel := h p hp
  rw [hkept] at hrel
  cases hv : plain p with
  | none =>
      rw [hv] at hrel
      cases hrel
  | some v =>
      rw [hv] at hrel
      cases hrel with
      | some hopens => exact ⟨v, rfl, hopens⟩

/-- A value written at its place, and sealed under its place's name. -/
theorem Keeps.update {_ : DecidableEq π} {_ : DecidableEq κ}
    (h : Keeps name opens places plain kept) (hname : Set.InjOn name places) (hp : p ∈ places)
    {v : Option ν} {s : Option σ} (hs : Option.Rel (fun v s => opens p s v) v s) :
    Keeps name opens places (Function.update plain p v) (Function.update kept (name p) s) := by
  intro q hq
  by_cases hqp : q = p
  · subst hqp
    rw [Function.update_self, Function.update_self]
    exact hs
  · have hne : name q ≠ name p := fun he => hqp (hname hq hp he)
    rw [Function.update_of_ne hqp, Function.update_of_ne hne]
    exact h q hq

/-- What is written under the name of no place. -/
theorem Keeps.other {_ : DecidableEq κ} (h : Keeps name opens places plain kept)
    (hk : k ∉ name '' places) (s : Option σ) :
    Keeps name opens places plain (Function.update kept k s) := by
  intro q hq
  have hne : name q ≠ k := fun he => hk ⟨q, hq, he⟩
  rw [Function.update_of_ne hne]
  exact h q hq

/-! ## A range -/

theorem forall₂_mem {α β : Type} {R : α → β → Prop} {xs : List α} {ys : List β}
    (h : List.Forall₂ R xs ys) : List.Forall₂ (fun x y => R x y ∧ x ∈ xs ∧ y ∈ ys) xs ys := by
  induction h with
  | nil => exact .nil
  | @cons x y xs ys hxy _ ih =>
      refine .cons ⟨hxy, by simp, by simp⟩ (ih.imp fun a b hab => ?_)
      exact ⟨hab.1, List.mem_cons_of_mem _ hab.2.1, List.mem_cons_of_mem _ hab.2.2⟩

theorem forall₂_of_map_eq {α β γ : Type} {f : α → γ} {g : β → γ} {xs : List α} {ys : List β}
    (h : xs.map f = ys.map g) : List.Forall₂ (fun x y => f x = g y) xs ys := by
  induction xs generalizing ys with
  | nil =>
      cases ys with
      | nil => exact .nil
      | cons y ys => cases h
  | cons x xs ih =>
      cases ys with
      | nil => cases h
      | cons y ys =>
          have hcons := List.cons.inj h
          exact .cons hcons.1 (ih hcons.2)

variable [LinearOrder π] [LinearOrder κ] {index : OrderedMap π ν} {engine : OrderedMap κ σ}

/-- An entry of the one map and what keeps it in the other. -/
def Found (name : π → κ) (opens : π → σ → ν → Prop) (entry : π × ν) (found : κ × σ) : Prop :=
  found.1 = name entry.1 ∧ opens entry.1 found.2 entry.2

/-- Where names sort as places do and nothing else is kept between two of them, all that is kept
there is what the places between hold. -/
theorem Keeps.between (h : Keeps name opens Set.univ index.get engine.get)
    (hname : StrictMono name) {first last : π}
    (hclosed : ∀ k s, engine.get k = some s → name first ≤ k → k ≤ name last →
      k ∈ Set.range name) :
    List.Forall₂ (Found name opens) (index.between first last)
      (engine.between (name first) (name last)) := by
  have hmem : ∀ k, k ∈ (index.between first last).map (fun e => name e.1) ↔
      k ∈ (engine.between (name first) (name last)).map Prod.fst := by
    intro k
    constructor
    · intro hk
      obtain ⟨⟨p, v⟩, he, rfl⟩ := List.mem_map.mp hk
      obtain ⟨hget, hfirst, hlast⟩ := OrderedMap.mem_between.mp he
      have hrel := h p trivial
      rw [hget] at hrel
      cases hs : engine.get (name p) with
      | none =>
          rw [hs] at hrel
          cases hrel
      | some s =>
          have hfound : (name p, s) ∈ engine.between (name first) (name last) :=
            OrderedMap.mem_between.mpr
              ⟨hs, hname.le_iff_le.mpr hfirst, hname.le_iff_le.mpr hlast⟩
          exact List.mem_map_of_mem hfound
    · intro hk
      obtain ⟨⟨k, s⟩, he, rfl⟩ := List.mem_map.mp hk
      obtain ⟨hget, hfirst, hlast⟩ := OrderedMap.mem_between.mp he
      obtain ⟨p, rfl⟩ := hclosed k s hget hfirst hlast
      obtain ⟨v, hv, -⟩ := h.read_some trivial hget
      have hfound : (p, v) ∈ index.between first last :=
        OrderedMap.mem_between.mpr
          ⟨hv, hname.le_iff_le.mp hfirst, hname.le_iff_le.mp hlast⟩
      exact List.mem_map.mpr ⟨(p, v), hfound, rfl⟩
  -- both in their order, so the same names in the same order
  have hsame : (index.between first last).map (fun e => name e.1) =
      (engine.between (name first) (name last)).map Prod.fst := by
    have hleft : ((index.between first last).map fun e => name e.1).Pairwise (· < ·) := by
      rw [List.pairwise_map]
      exact (index.between_ascending first last).imp fun hab => hname hab
    have hright : ((engine.between (name first) (name last)).map Prod.fst).Pairwise (· < ·) := by
      rw [List.pairwise_map]
      exact engine.between_ascending _ _
    exact hleft.eq_of_mem_iff hright hmem
  refine (forall₂_mem (forall₂_of_map_eq hsame)).imp fun e e' he => ?_
  obtain ⟨hnamed, hentry, hfound⟩ := he
  obtain ⟨hget, -, -⟩ := OrderedMap.mem_between.mp hentry
  obtain ⟨hget', -, -⟩ := OrderedMap.mem_between.mp hfound
  rw [← hnamed] at hget'
  obtain ⟨v, hv, hopens⟩ := h.read_some trivial hget'
  obtain rfl := Option.some.inj (hget.symm.trans hv)
  exact ⟨hnamed.symm, hopens⟩

theorem Keeps.range (h : Keeps name opens Set.univ index.get engine.get)
    (hname : StrictMono name) {first last : π}
    (hclosed : ∀ k s, engine.get k = some s → name first ≤ k → k ≤ name last →
      k ∈ Set.range name) (most : ℕ) (reverse : Bool) :
    List.Forall₂ (Found name opens) (index.range first last most reverse)
      (engine.range (name first) (name last) most reverse) := by
  have hbetween := h.between hname hclosed
  rw [OrderedMap.range_eq, OrderedMap.range_eq]
  apply List.forall₂_take
  cases reverse with
  | false => exact hbetween
  | true => exact List.forall₂_reverse_iff.mpr hbetween

/-! ## Where what opens was written -/

section Told

variable {written : π → ν → Prop}

omit [LinearOrder π] [LinearOrder κ] in
/-- Whatever is kept, under whatever name, opens for a place only to a value written there. -/
def Told (opens : π → σ → ν → Prop) (written : π → ν → Prop) (kept : κ → Option σ) : Prop :=
  ∀ k s, kept k = some s → ∀ p v, opens p s v → written p v

omit [LinearOrder π] [LinearOrder κ] in
theorem Told.nothing : Told opens written (fun _ : κ => none) := by
  intro k s hs
  cases hs

omit [LinearOrder π] [LinearOrder κ] in
theorem Told.mono {written' : π → ν → Prop} (h : Told opens written kept)
    (hsub : ∀ p v, written p v → written' p v) : Told opens written' kept :=
  fun k s hs p v hopens => hsub p v (h k s hs p v hopens)

omit [LinearOrder π] [LinearOrder κ] in
/-- What is kept under one name more, where it opens only to what was written. -/
theorem Told.update {_ : DecidableEq κ} (h : Told opens written kept) {s : Option σ}
    (hs : ∀ s', s = some s' → ∀ p v, opens p s' v → written p v) (k : κ) :
    Told opens written (Function.update kept k s) := by
  intro k' s' hk'
  by_cases he : k' = k
  · subst he
    rw [Function.update_self] at hk'
    exact hs s' hk'
  · rw [Function.update_of_ne he] at hk'
    exact h k' s' hk'

omit [LinearOrder π] in
theorem Told.apply (h : Told opens written engine.get) {batch : List (κ × Option σ)}
    (hbatch : ∀ c ∈ batch, ∀ s, c.2 = some s → ∀ p v, opens p s v → written p v) :
    Told opens written (engine.apply batch).get := by
  induction batch generalizing engine with
  | nil => exact h
  | cons c batch ih =>
      have hnext : Told opens written (engine.change c.1 c.2).get :=
        h.update (hbatch c (by simp)) c.1
      exact ih hnext fun c' hc' => hbatch c' (by simp [hc'])

end Told

end XmipPersist.Sealed
