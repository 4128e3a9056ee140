import XmipPersist.Library.Numbered

/-! # What is entered once and taken once

Over a run of events of which some enter a thing and some take it, the first that enters it counts,
then the first that takes it, and no other: it is remembered as taken. A queue that keeps what it
took out in its index stands so of each thing.
-/

namespace XmipPersist

/-- Never entered, entered and not yet taken, or taken. -/
inductive Once (α : Type)
  | never
  | entered (a : α)
  | taken
  deriving DecidableEq

namespace Once

variable {α τ : Type} (enters : τ → Option α) (takes : τ → Prop) [DecidablePred takes]

/-- Entered with what is offered, where it never was. -/
def enter : Once α → Option α → Once α
  | never, some a => entered a
  | stands, _ => stands

/-- Taken, where it is there. -/
def take : Once α → Once α
  | entered _ => taken
  | stands => stands

/-- How often it was taken. -/
def times : Once α → ℕ
  | taken => 1
  | _ => 0

@[simp] theorem times_enter (stands : Once α) (offered : Option α) :
    (stands.enter offered).times = stands.times := by
  cases stands with
  | never => cases offered <;> rfl
  | entered a => rfl
  | taken => rfl

@[simp] theorem enter_none (stands : Once α) : stands.enter none = stands := by
  cases stands <;> rfl

theorem enter_of_ne {stands : Once α} (h : stands ≠ never) (offered : Option α) :
    stands.enter offered = stands := by
  cases stands with
  | never => exact absurd rfl h
  | entered a => rfl
  | taken => rfl

/-! ## Over a run of events -/

def after : Once α → τ → Once α
  | never, event => (enters event).elim never entered
  | entered a, event => if takes event then taken else entered a
  | taken, _ => taken

theorem after_of_enters {event : τ} (h : ¬takes event) (stands : Once α) :
    stands.after enters takes event = stands.enter (enters event) := by
  cases stands with
  | never => cases henters : enters event <;> simp [after, enter, henters]
  | entered a => simp [after, enter, h]
  | taken => rfl

theorem after_of_takes {event : τ} (h : takes event) (hnone : enters event = none)
    (stands : Once α) : stands.after enters takes event = stands.take := by
  cases stands <;> simp [after, take, h, hnone]

/-- How a thing stands once some events have happened. -/
def since (events : List τ) : Once α := events.foldl (after enters takes) never

theorem since_snoc (events : List τ) (event : τ) :
    since enters takes (events ++ [event]) = (since enters takes events).after enters takes event :=
  List.foldl_append

theorem foldl_taken (events : List τ) :
    events.foldl (after enters takes) (taken : Once α) = taken := by
  induction events with
  | nil => rfl
  | cons event events ih => exact ih

theorem foldl_entered (a : α) (events : List τ) :
    events.foldl (after enters takes) (entered a) =
      if ∃ event ∈ events, takes event then taken else entered a := by
  induction events with
  | nil => simp
  | cons event events ih =>
      rw [List.foldl_cons, after]
      by_cases htakes : takes event
      · rw [if_pos htakes, if_pos ⟨event, by simp, htakes⟩]
        exact foldl_taken enters takes events
      · rw [if_neg htakes, ih]
        simp [htakes]

variable {enters takes}

theorem since_of_none {events : List τ} (h : ∀ event ∈ events, enters event = none) :
    since enters takes events = never := by
  induction events using List.reverseRecOn with
  | nil => rfl
  | append_singleton events event ih =>
      have hevents : since enters takes events = never := ih fun e he => h e (by simp [he])
      have hevent : enters event = none := h event (by simp)
      rw [since_snoc, hevents, after, hevent]
      rfl

/-- The first event that enters it counts, and then the first that takes it. -/
theorem since_first {before later : List τ} {event : τ} {a : α}
    (hbefore : ∀ e ∈ before, enters e = none) (hevent : enters event = some a) :
    since enters takes (before ++ event :: later) =
      if ∃ e ∈ later, takes e then taken else entered a := by
  have hentered : (never : Once α).after enters takes event = entered a := by
    rw [after, hevent]
    rfl
  have hfold : since enters takes (before ++ event :: later) =
      (event :: later).foldl (after enters takes) (since enters takes before) :=
    List.foldl_append
  rw [hfold, since_of_none hbefore, List.foldl_cons, hentered, foldl_entered]

theorem since_eq_never {events : List τ} :
    since enters takes events = never ↔ ∀ event ∈ events, enters event = none := by
  refine ⟨fun hnever => ?_, since_of_none⟩
  induction events using List.reverseRecOn with
  | nil => simp
  | append_singleton events event ih =>
      rw [since_snoc] at hnever
      cases hstands : since enters takes events with
      | never =>
          rw [hstands, after] at hnever
          have hevent : enters event = none := by
            cases hentered : enters event with
            | none => rfl
            | some a => simp [hentered] at hnever
          intro e he
          rcases List.mem_append.mp he with he | he
          · exact ih hstands e he
          · rwa [List.mem_singleton.mp he]
      | entered a =>
          rw [hstands, after] at hnever
          split at hnever <;> cases hnever
      | taken =>
          rw [hstands, after] at hnever
          cases hnever

end Once

/-! ## In a queue -/

namespace Numbered

variable {ε β : Type} [DecidableEq β] {about : ε → β} {belongs : ℕ → ε → Prop} {q : Numbered ε β}

/-- How something stands in a queue: in no index, found at its place, or kept as taken out. -/
def standing (q : Numbered ε β) (b : β) : Once (ℕ × ε) :=
  if q.index b = none then .never else (q.find b).elim .taken .entered

omit [DecidableEq β] in
theorem standing_never {b : β} : q.standing b = .never ↔ q.index b = none := by
  unfold standing
  by_cases hnone : q.index b = none
  · simp [hnone]
  · rw [if_neg hnone]
    cases q.find b <;> simp [hnone]

omit [DecidableEq β] in
theorem standing_entered {b : β} {n : ℕ} {e : ε} :
    q.standing b = .entered (n, e) ↔ q.find b = some (n, e) := by
  unfold standing
  by_cases hnone : q.index b = none
  · rw [if_pos hnone, find_of_index (by simp [hnone])]
    simp
  · rw [if_neg hnone]
    cases q.find b <;> simp

theorem Orderly.standing_place (h : q.Orderly about belongs) {b : β} {e : ε}
    (hnone : q.index b = none) (hb : about e = b) (he : belongs q.next e) (b' : β) :
    (q.place b e).standing b' = if b' = b then .entered (q.next, e) else q.standing b' := by
  have hfind := h.find_place hnone hb he b'
  by_cases hb' : b' = b
  · rw [if_pos hb'] at hfind ⊢
    exact standing_entered.mpr hfind
  · rw [if_neg hb'] at hfind ⊢
    have hindex : (q.place b e).index b' = q.index b' := by simp [Numbered.place, hb']
    rw [standing, standing, hindex, hfind]

/-- Taken out and kept so. -/
theorem Orderly.standing_takeOut (h : q.Orderly about belongs) {n : ℕ} {b : β} {e : ε}
    (hn : q.entry n = some e) (hb : about e = b) (b' : β) :
    (q.takeOut n b (some none)).standing b' = if b' = b then .taken else q.standing b' := by
  have hfind : (q.takeOut n b (some none)).find b' = if b' = b then none else q.find b' :=
    h.find_takeOut hn hb (by simp) b'
  by_cases hb' : b' = b
  · rw [if_pos hb'] at hfind ⊢
    rw [standing, hfind]
    simp [Numbered.takeOut, hb']
  · rw [if_neg hb'] at hfind ⊢
    have hindex : (q.takeOut n b (some none)).index b' = q.index b' := by
      simp [Numbered.takeOut, hb']
    rw [standing, standing, hindex, hfind]

end Numbered

end XmipPersist
