import Mathlib

/-! # Runs of a step function, and what each of their steps meets -/

namespace XmipPersist

variable {σ ε : Type} (after : σ → ε → σ)

/-- Whether every step of a run meets `P`, told of the state it is taken in. -/
def EachStep (P : σ → ε → Prop) : σ → List ε → Prop
  | _, [] => True
  | s, event :: events => P s event ∧ EachStep P (after s event) events

namespace EachStep

variable {after} {P Q : σ → ε → Prop} {s : σ} {event : ε} {events : List ε}

theorem head (h : EachStep after P s (event :: events)) : P s event := h.1

theorem tail (h : EachStep after P s (event :: events)) :
    EachStep after P (after s event) events := h.2

/-- What every step meets. -/
theorem of_forall (h : ∀ s event, P s event) (s : σ) (events : List ε) :
    EachStep after P s events := by
  induction events generalizing s with
  | nil => trivial
  | cons event events ih => exact ⟨h s event, ih (after s event)⟩

theorem mono (h : EachStep after P s events) (hPQ : ∀ s event, P s event → Q s event) :
    EachStep after Q s events := by
  induction events generalizing s with
  | nil => trivial
  | cons event events ih => exact ⟨hPQ s event h.head, ih h.tail⟩

/-- A run that meets `P`, gone on with. -/
theorem append {more : List ε} (h : EachStep after P s events)
    (hmore : EachStep after P (events.foldl after s) more) :
    EachStep after P s (events ++ more) := by
  induction events generalizing s with
  | nil => exact hmore
  | cons event events ih => exact ⟨h.head, ih h.tail hmore⟩

/-- The two parts of a run that meets `P`. -/
theorem of_append {more : List ε} (h : EachStep after P s (events ++ more)) :
    EachStep after P s events ∧ EachStep after P (events.foldl after s) more := by
  induction events generalizing s with
  | nil => exact ⟨trivial, h⟩
  | cons event events ih => exact ⟨⟨h.head, (ih h.tail).1⟩, (ih h.tail).2⟩

/-- An invariant that a step keeps where it meets `P` holds at the end of a run that does. -/
theorem invariant {Inv : σ → Prop} (h : EachStep after P s events) (hs : Inv s)
    (hstep : ∀ s event, Inv s → P s event → Inv (after s event)) :
    Inv (events.foldl after s) := by
  induction events generalizing s with
  | nil => exact hs
  | cons event events ih => exact ih h.tail (hstep s event hs h.head)

/-- What steps that meet `P` do under an invariant that they keep. -/
theorem mono_of_invariant {Inv : σ → Prop} (h : EachStep after P s events) (hs : Inv s)
    (hPQ : ∀ s event, Inv s → P s event → Q s event)
    (hstep : ∀ s event, Inv s → P s event → Inv (after s event)) :
    EachStep after Q s events := by
  induction events generalizing s with
  | nil => trivial
  | cons event events ih =>
      exact ⟨hPQ s event hs h.head, ih h.tail (hstep s event hs h.head)⟩

/-- Two conditions that come to the same under an invariant they keep do so over a run. -/
theorem iff_of_invariant {Inv : σ → Prop} (hs : Inv s)
    (hiff : ∀ s event, Inv s → (P s event ↔ Q s event))
    (hstep : ∀ s event, Inv s → P s event → Inv (after s event)) :
    EachStep after P s events ↔ EachStep after Q s events := by
  induction events generalizing s with
  | nil => exact Iff.rfl
  | cons event events ih =>
      constructor
      · intro h
        exact ⟨(hiff s event hs).mp h.head, (ih (hstep s event hs h.head)).mp h.tail⟩
      · intro h
        have hp := (hiff s event hs).mpr h.head
        exact ⟨hp, (ih (hstep s event hs hp)).mpr h.tail⟩

instance decidable [∀ s, DecidablePred (P s)] :
    (s : σ) → (events : List ε) → Decidable (EachStep after P s events)
  | _, [] => .isTrue trivial
  | s, event :: events =>
      have := decidable (after s event) events
      inferInstanceAs (Decidable (P s event ∧ EachStep after P (after s event) events))

end EachStep

end XmipPersist
