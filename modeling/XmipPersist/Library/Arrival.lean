import Mathlib

/-! # Frames taken in the order they were sent

What a receiver comes to when it takes the frames on their way one after another, each while it
may, the last of them perhaps one it stops at: a property that every frame taken leaves, and one
that the last leaves, told of the frames still on their way.
-/

namespace XmipPersist

variable {σ φ : Type} (take : σ → φ → σ × Bool) (may : σ → φ → Prop)

/-- Taken one after another, as each may be, each frame leaves `P`, and the last leaves `Q`. -/
def Arrives (P Q : σ → Prop) : σ → List φ → Prop
  | r, [] => Q r
  | r, frame :: rest => (take r frame).2 = true → may r frame →
      P (take r frame).1 ∧ Arrives P Q (take r frame).1 rest

namespace Arrives

variable {take may} {may' : σ → φ → Prop} {P P' Q Q' : σ → Prop} {r : σ} {frame : φ}
  {sent rest : List φ}

theorem next (h : Arrives take may P Q r (frame :: rest)) (hgoes : (take r frame).2 = true)
    (hmay : may r frame) : P (take r frame).1 ∧ Arrives take may P Q (take r frame).1 rest :=
  h hgoes hmay

/-- What holds of every receiver that has one property holds with the other in its place, and
where no more may be taken. -/
theorem mono (h : Arrives take may P Q r sent) (hmay : ∀ r frame, may' r frame → may r frame)
    (hP : ∀ r, P r → P' r) (hQ : ∀ r, Q r → Q' r) : Arrives take may' P' Q' r sent := by
  induction sent generalizing r with
  | nil => exact hQ r h
  | cons frame rest ih =>
      intro hgoes hframe
      have ⟨hp, hrest⟩ := h hgoes (hmay r frame hframe)
      exact ⟨hP _ hp, ih hrest⟩

/-- Frames sent after those on their way. -/
theorem append (h : Arrives take may P Q r sent) (hQ : ∀ r, Q r → Arrives take may P Q' r rest) :
    Arrives take may P Q' r (sent ++ rest) := by
  induction sent generalizing r with
  | nil => exact hQ r h
  | cons frame sent ih =>
      intro hgoes hmay
      have ⟨hp, hrest⟩ := h hgoes hmay
      exact ⟨hp, ih hrest⟩

/-- A frame the receiver stops at leaves nothing to say. -/
theorem stops (h : (take r frame).2 = false) : Arrives take may P Q r [frame] := by
  intro hgoes _
  rw [h] at hgoes
  cases hgoes

/-- One frame taken. -/
theorem one {r' : σ} (h : take r frame = (r', true)) (hP : P r') (hQ : Q r') :
    Arrives take may P Q r [frame] := by
  intro _ _
  rw [h]
  exact ⟨hP, hQ⟩

end Arrives

end XmipPersist
