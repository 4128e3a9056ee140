import Mathlib

/-! # Forms that end where they end

A form is bytes written of a value. One tells a part of the value where that part, and what was
written after the form, can be taken from them. Forms written one after another then tell what
each of them does.
-/

namespace XmipPersist

variable {α β γ δ : Type}

/-- Of values that meet `P`, what is written tells `f`, and what follows it. -/
def Tells (P : α → Prop) (w : α → List δ) (f : α → β) : Prop :=
  ∀ ⦃a a' : α⦄ ⦃rest rest' : List δ⦄, P a → P a' → w a ++ rest = w a' ++ rest' →
    f a = f a' ∧ rest = rest'

namespace Tells

variable {P : α → Prop} {w v : α → List δ} {f : α → β} {g : α → γ}

/-- Two forms, one after the other. -/
theorem append (hw : Tells P w f) (hv : Tells P v g) :
    Tells P (fun a => w a ++ v a) fun a => (f a, g a) := by
  intro a a' rest rest' ha ha' h
  rw [List.append_assoc, List.append_assoc] at h
  obtain ⟨hf, h⟩ := hw ha ha' h
  obtain ⟨hg, h⟩ := hv ha ha' h
  exact ⟨Prod.ext hf hg, h⟩

/-- What is told tells what depends on it alone. -/
theorem map (hw : Tells P w f) (h : ∀ a a', f a = f a' → g a = g a') : Tells P w g := by
  intro a a' rest rest' ha ha' happend
  obtain ⟨hf, hrest⟩ := hw ha ha' happend
  exact ⟨h a a' hf, hrest⟩

/-- A form of a part of a value. -/
theorem comp {Q : γ → Prop} {u : γ → List δ} {k : γ → β} (h : Tells Q u k)
    (hg : ∀ a, P a → Q (g a)) : Tells P (fun a => u (g a)) fun a => k (g a) :=
  fun a a' _ _ ha ha' happend => h (hg a ha) (hg a' ha') happend

/-- A form always as long tells what it is not the same without. -/
theorem of_length {n : ℕ} (hlength : ∀ a, P a → (w a).length = n)
    (hf : ∀ a a', P a → P a' → w a = w a' → f a = f a') : Tells P w f := by
  intro a a' rest rest' ha ha' h
  have hsame : (w a).length = (w a').length := by rw [hlength a ha, hlength a' ha']
  obtain ⟨hw, hrest⟩ := List.append_inj h hsame
  exact ⟨hf a a' ha ha' hw, hrest⟩

/-- So many values, each with a form that tells it. -/
theorem flatMap {Q : γ → Prop} {u : γ → List δ} (hu : Tells Q u id) {xs ys : List γ}
    {rest rest' : List δ} (hlength : xs.length = ys.length) (hxs : ∀ x ∈ xs, Q x)
    (hys : ∀ y ∈ ys, Q y) (h : xs.flatMap u ++ rest = ys.flatMap u ++ rest') :
    xs = ys ∧ rest = rest' := by
  induction xs generalizing ys with
  | nil =>
      obtain rfl : ys = [] := List.length_eq_zero_iff.mp hlength.symm
      exact ⟨rfl, h⟩
  | cons x xs ih =>
      cases ys with
      | nil => simp at hlength
      | cons y ys =>
          rw [List.flatMap_cons, List.flatMap_cons, List.append_assoc, List.append_assoc] at h
          obtain ⟨hx, h⟩ := hu (hxs x (by simp)) (hys y (by simp)) h
          obtain ⟨hrest, h⟩ := ih (by simpa using hlength) (fun z hz => hxs z (by simp [hz]))
            (fun z hz => hys z (by simp [hz])) h
          exact ⟨by rw [show x = y from hx, hrest], h⟩

end Tells

end XmipPersist
