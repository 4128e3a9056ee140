import Mathlib

/-! # A log of states, synced up to a point

A store writes one state after another and syncs now and then: a sync that completes keeps
every state written before it began, and a crash goes back to the last state kept.
-/

namespace XmipPersist

variable {σ β : Type}

/-- The states written one after another from `first` on, the first `kept` of them durable. -/
structure Synced (σ : Type) where
  first : σ
  later : List σ
  kept : ℕ
  kept_le : kept ≤ later.length

namespace Synced

/-- How many states were written. -/
def size (s : Synced σ) : ℕ := s.later.length

/-- The state after `n` writes. -/
def after (s : Synced σ) (n : ℕ) : σ := (s.first :: s.later).getD n s.first

/-- The state as it is. -/
def now (s : Synced σ) : σ := s.after s.size

def opened (first : σ) : Synced σ := ⟨first, [], 0, le_rfl⟩

def write (s : Synced σ) (state : σ) : Synced σ :=
  ⟨s.first, s.later ++ [state], s.kept,
    by have := s.kept_le; simp only [List.length_append]; omega⟩

/-- A sync completed that began after `began` writes. -/
def sync (s : Synced σ) (began : ℕ) : Synced σ :=
  ⟨s.first, s.later, max s.kept (min began s.size), by
    have := s.kept_le
    have : min began s.size ≤ s.later.length := min_le_right _ _
    omega⟩

/-- What a crash leaves: every state written after the last one kept is gone. -/
def crash (s : Synced σ) : Synced σ :=
  ⟨s.first, s.later.take s.kept, s.kept, by have := s.kept_le; simp [this]⟩

theorem kept_le_size (s : Synced σ) : s.kept ≤ s.size := s.kept_le

@[simp] theorem size_opened (first : σ) : (opened first).size = 0 := rfl

@[simp] theorem now_opened (first : σ) : (opened first).now = first := rfl

@[simp] theorem kept_opened (first : σ) : (opened first).kept = 0 := rfl

@[simp] theorem size_write (s : Synced σ) (state : σ) : (s.write state).size = s.size + 1 := by
  simp [size, write]

@[simp] theorem kept_write (s : Synced σ) (state : σ) : (s.write state).kept = s.kept := rfl

@[simp] theorem size_sync (s : Synced σ) (began : ℕ) : (s.sync began).size = s.size := rfl

@[simp] theorem kept_sync (s : Synced σ) (began : ℕ) :
    (s.sync began).kept = max s.kept (min began s.size) := rfl

@[simp] theorem after_sync (s : Synced σ) (began n : ℕ) : (s.sync began).after n = s.after n := rfl

@[simp] theorem now_sync (s : Synced σ) (began : ℕ) : (s.sync began).now = s.now := rfl

@[simp] theorem kept_crash (s : Synced σ) : s.crash.kept = s.kept := rfl

@[simp] theorem size_crash (s : Synced σ) : s.crash.size = s.kept := by
  have := s.kept_le
  simp [size, crash, this]

/-- A write leaves every state written before it. -/
theorem after_write (s : Synced σ) (state : σ) {n : ℕ} (h : n ≤ s.size) :
    (s.write state).after n = s.after n := by
  have hlt : n < (s.first :: s.later).length := by simpa [size] using Nat.lt_succ_of_le h
  simp only [after, write, ← List.cons_append]
  exact List.getD_append _ _ _ _ hlt

@[simp] theorem now_write (s : Synced σ) (state : σ) : (s.write state).now = state := by
  have hlen : (s.first :: s.later).length = s.size + 1 := by simp [size]
  simp only [now, size_write]
  simp only [after, write, ← List.cons_append]
  rw [List.getD_append_right _ _ _ _ (by omega), hlen]
  simp

/-- A crash leaves every state kept. -/
theorem after_crash (s : Synced σ) {n : ℕ} (h : n ≤ s.kept) : s.crash.after n = s.after n := by
  cases n with
  | zero => rfl
  | succ n =>
      have hn : n < s.kept := h
      simp [after, crash, List.getD_eq_getElem?_getD, hn]

@[simp] theorem now_crash (s : Synced σ) : s.crash.now = s.after s.kept := by
  rw [now, size_crash, after_crash s le_rfl]

/-! ## What no crash takes back -/

/-- What `view` saw after `position` writes is what it sees of every state from the last one
kept up to there: no crash takes it back. -/
def Holds (s : Synced σ) (view : σ → β) (position : ℕ) : Prop :=
  ∀ n, s.kept ≤ n → n ≤ position → view (s.after n) = view (s.after position)

namespace Holds

variable {s : Synced σ} {view : σ → β} {position : ℕ}

theorem write (h : s.Holds view position) (hposition : position ≤ s.size) (state : σ) :
    (s.write state).Holds view position := by
  intro n hkept hn
  rw [after_write s state (hn.trans hposition), after_write s state hposition]
  exact h n hkept hn

theorem sync (h : s.Holds view position) (began : ℕ) : (s.sync began).Holds view position := by
  intro n hkept hn
  have hle : s.kept ≤ n := (le_max_left _ _).trans hkept
  exact h n hle hn

/-- After a crash it is what the state gone back to says. -/
theorem crash (h : s.Holds view position) :
    view (s.crash.after (min position s.kept)) = view (s.after position) := by
  rw [after_crash s (min_le_right _ _)]
  rcases le_total position s.kept with hle | hle
  · rw [min_eq_left hle]
  · rw [min_eq_right hle]
    exact h s.kept le_rfl hle

end Holds

end Synced

end XmipPersist
