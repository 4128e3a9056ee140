import Mathlib

/-! # What a computation fails with

One that takes steps one after another fails with what the first of them that fails does.
-/

namespace XmipPersist

variable {ε α β : Type}

/-- What a computation failed with, where it did. -/
def failureOf : Except ε α → Option ε
  | .ok _ => none
  | .error e => some e

@[simp] theorem failureOf_ok (a : α) : failureOf (.ok a : Except ε α) = none := rfl

@[simp] theorem failureOf_error (e : ε) : failureOf (.error e : Except ε α) = some e := rfl

theorem failureOf_eq_some {x : Except ε α} {e : ε} : failureOf x = some e ↔ x = .error e := by
  cases x <;> simp

theorem failureOf_eq_none {x : Except ε α} : failureOf x = none ↔ ∃ a, x = .ok a := by
  cases x <;> simp

/-- Where what follows fails alike whatever the first step came to. -/
theorem failureOf_bind {x : Except ε α} {f : α → Except ε β} {o : Option ε}
    (h : ∀ a, x = .ok a → failureOf (f a) = o) : failureOf (x >>= f) = (failureOf x).or o := by
  cases x with
  | error e => rfl
  | ok a => exact h a rfl

/-- Where what follows does not fail. -/
@[simp] theorem failureOf_bind_pure (x : Except ε α) (f : α → β) :
    failureOf (x >>= fun a => pure (f a)) = failureOf x := by
  cases x <;> rfl

@[simp] theorem failureOf_map (x : Except ε α) (f : α → β) : failureOf (x.map f) = failureOf x := by
  cases x <;> rfl

theorem findSome?_congr {f g : α → Option β} {as : List α} (h : ∀ a ∈ as, f a = g a) :
    as.findSome? f = as.findSome? g := by
  induction as with
  | nil => rfl
  | cons a as ih =>
      rw [List.findSome?_cons, List.findSome?_cons, h a (by simp),
        ih fun b hb => h b (by simp [hb])]

end XmipPersist
