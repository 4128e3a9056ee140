import Mathlib

/-! # Fenced leases

A lease is taken by a token behind a fence, until a time; it is extended, kept on or finished
under that token, and taken anew once it is finished or has lapsed. What a history of such acts
keeps, whoever asked for them.
-/

namespace XmipPersist

/-- A lease as it is kept: its token, its fence, until when, and whether it still stands. -/
structure Tenure (Token Time Fence : Type*) where
  token : Token
  fence : Fence
  until' : Time
  stands : Bool

/-- What a lease says of itself. -/
def Tenure.own {Token Time Fence : Type*} (t : Tenure Token Time Fence) : Token × Fence × Bool :=
  (t.token, t.fence, t.stands)

/-- What was done to a lease. -/
inductive Act (Time : Type*)
  | take (now : Time)
  | extend
  | keep
  | finish
  deriving DecidableEq

namespace Lease

variable {Token Time Fence : Type*}

def takes : Act Time → Bool
  | .take _ => true
  | _ => false

variable [LinearOrder Time] [LinearOrder Fence]

/-- From what an act leads to what: taken where none stands, or the one that stands has lapsed,
behind a higher fence; anything else under the token and the fence of the one that stands. -/
def Allowed : Act Time → Option (Tenure Token Time Fence) → Tenure Token Time Fence → Prop
  | .take now, before, t =>
      t.stands = true ∧ ∀ s, before = some s →
        s.fence < t.fence ∧ (s.stands = true → s.until' < now)
  | .extend, before, t => ∃ s, before = some s ∧ s.stands = true ∧ s.until' ≤ t.until' ∧
      t = { s with until' := t.until' }
  | .keep, before, t => ∃ s, before = some s ∧ s.stands = true ∧
      t = { s with until' := t.until' }
  | .finish, before, t => ∃ s, before = some s ∧ s.stands = true ∧ t = { s with stands := false }

/-- Acts, each with the lease it left, from one lease to another. -/
inductive History : Option (Tenure Token Time Fence) → List (Act Time × Tenure Token Time Fence) →
    Option (Tenure Token Time Fence) → Prop
  | nil (s : Option (Tenure Token Time Fence)) : History s [] s
  | cons {s u : Option (Tenure Token Time Fence)} {act : Act Time} {t : Tenure Token Time Fence}
      {h : List (Act Time × Tenure Token Time Fence)} (allowed : Allowed act s t)
      (rest : History (some t) h u) : History s ((act, t) :: h) u

namespace History

variable {s u v : Option (Tenure Token Time Fence)} {act : Act Time}
  {t : Tenure Token Time Fence} {h h' : List (Act Time × Tenure Token Time Fence)}

theorem split (hh : History s (h ++ (act, t) :: h') u) :
    ∃ v, History s h v ∧ Allowed act v t ∧ History (some t) h' u := by
  induction h generalizing s with
  | nil =>
      cases hh with
      | cons allowed rest => exact ⟨s, .nil s, allowed, rest⟩
  | cons e h ih =>
      cases hh with
      | cons allowed rest =>
          obtain ⟨v, h₁, h₂, h₃⟩ := ih rest
          exact ⟨v, .cons allowed h₁, h₂, h₃⟩

/-- Where a history leads is the lease its last act left. -/
theorem last (hh : History s h u) : u = (h.getLast?.map Prod.snd).or s := by
  induction hh with
  | nil s => simp
  | @cons s u act t h allowed rest ih =>
      rw [ih]
      cases hl : h.getLast? <;> simp [List.getLast?_cons, hl]

end History

/-! ## The fences of the takings -/

theorem fence_le_of_allowed {act : Act Time}
    {s t : Tenure Token Time Fence} (h : Allowed act (some s) t) : s.fence ≤ t.fence := by
  cases act with
  | take now => exact (h.2 s rfl).1.le
  | extend => obtain ⟨s', he, -, -, ht⟩ := h; cases he; rw [ht]
  | keep => obtain ⟨s', he, -, ht⟩ := h; cases he; rw [ht]
  | finish => obtain ⟨s', he, -, ht⟩ := h; cases he; rw [ht]

theorem History.fence_lt_of_taking {s : Tenure Token Time Fence}
    {u : Option (Tenure Token Time Fence)} {h : List (Act Time × Tenure Token Time Fence)}
    (hh : History (some s) h u) : ∀ e ∈ h, takes e.1 = true → s.fence < e.2.fence := by
  induction h generalizing s with
  | nil => simp
  | cons e h ih =>
      obtain ⟨act, t⟩ := e
      cases hh with
      | cons allowed rest =>
          intro e he htakes
          rcases List.mem_cons.mp he with rfl | he
          · cases act with
            | take now => exact (allowed.2 s rfl).1
            | extend => simp [takes] at htakes
            | keep => simp [takes] at htakes
            | finish => simp [takes] at htakes
          · exact (fence_le_of_allowed allowed).trans_lt (ih rest e he htakes)

/-- The fences of successive takings strictly grow. -/
theorem History.takings_ascend {s u : Option (Tenure Token Time Fence)}
    {h : List (Act Time × Tenure Token Time Fence)} (hh : History s h u) :
    (h.filter fun e => takes e.1).Pairwise fun a b => a.2.fence < b.2.fence := by
  induction hh with
  | nil s => simp
  | @cons s u act t h allowed rest ih =>
      rw [List.filter_cons]
      split
      · refine List.pairwise_cons.mpr ⟨fun e he => ?_, ih⟩
        obtain ⟨hmem, htakes⟩ := List.mem_filter.mp he
        exact rest.fence_lt_of_taking e hmem htakes
      · exact ih

/-! ## The one that was taken last -/

/-- The token and the fence of the last taking of a history, and whether the lease still stands
since: what the acts alone tell. -/
def current : Option (Token × Fence × Bool) → List (Act Time × Tenure Token Time Fence) →
    Option (Token × Fence × Bool)
  | now, [] => now
  | _, (.take _, t) :: h => current (some (t.token, t.fence, true)) h
  | now, (.extend, _) :: h => current now h
  | now, (.keep, _) :: h => current now h
  | now, (.finish, _) :: h => current (now.map fun c => (c.1, c.2.1, false)) h

/-- A history leads to the lease taken last in it, standing exactly if it was not finished
since. -/
theorem History.current_eq {s u : Option (Tenure Token Time Fence)}
    {h : List (Act Time × Tenure Token Time Fence)} (hh : History s h u) :
    current (s.map Tenure.own) h = u.map Tenure.own := by
  induction hh with
  | nil s => simp [current]
  | @cons s u act t h allowed rest ih =>
      rw [← ih]
      cases act with
      | take now => simp [current, Tenure.own, allowed.1]
      | extend =>
          obtain ⟨s, rfl, -, -, ht⟩ := allowed
          rw [current, ht]
          rfl
      | keep =>
          obtain ⟨s, rfl, -, ht⟩ := allowed
          rw [current, ht]
          rfl
      | finish =>
          obtain ⟨s, rfl, -, ht⟩ := allowed
          rw [current, ht]
          rfl

end Lease

end XmipPersist
