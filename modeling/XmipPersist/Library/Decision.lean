import Mathlib

/-! # Decisions: fallible steps over a state, and the rules a proof about one uses

A decision reads and moves a state and may fail, and what it moved is dropped with it
when it does. Two judgements cover the proofs below: what a decision can do to its
state (`Moves`), and that two decisions over two states go the same way (`Alike`).
-/

namespace XmipPersist

variable {ε σ τ α β γ : Type}

/-- A step that reads and moves a state `σ`, and fails with an `ε`. -/
abbrev Decision (ε σ α : Type) := StateT σ (Except ε) α

namespace Decision

/-! ## Running a decision -/

@[simp] theorem run_pure (a : α) (s : σ) :
    (pure a : Decision ε σ α).run s = .ok (a, s) := rfl

@[simp] theorem run_throw (e : ε) (s : σ) :
    (throw e : Decision ε σ α).run s = .error e := rfl

@[simp] theorem run_get (s : σ) : (get : Decision ε σ σ).run s = .ok (s, s) := rfl

@[simp] theorem run_modify (f : σ → σ) (s : σ) :
    (modify f : Decision ε σ Unit).run s = .ok ((), f s) := rfl

theorem run_bind (m : Decision ε σ α) (f : α → Decision ε σ β) (s : σ) :
    (m >>= f).run s = m.run s >>= fun p => (f p.1).run p.2 := rfl

theorem run_bind_ok {m : Decision ε σ α} {f : α → Decision ε σ β} {s s' : σ} {a : α}
    (h : m.run s = .ok (a, s')) : (m >>= f).run s = (f a).run s' := by
  rw [run_bind, h]; rfl

theorem run_bind_error {m : Decision ε σ α} {f : α → Decision ε σ β} {s : σ} {e : ε}
    (h : m.run s = .error e) : (m >>= f).run s = .error e := by
  rw [run_bind, h]; rfl

/-- A sequence of two decisions comes out exactly when each of them does. -/
theorem bind_ok_iff {m : Decision ε σ α} {f : α → Decision ε σ β} {s t : σ} {b : β} :
    (m >>= f).run s = .ok (b, t) ↔
      ∃ a s', m.run s = .ok (a, s') ∧ (f a).run s' = .ok (b, t) := by
  rw [run_bind]
  cases h : m.run s with
  | error e => simp [bind, Except.bind]
  | ok p =>
      obtain ⟨a, s'⟩ := p
      simp only [bind, Except.bind, Except.ok.injEq, Prod.mk.injEq]
      constructor
      · exact fun h => ⟨a, s', ⟨rfl, rfl⟩, h⟩
      · rintro ⟨_, _, ⟨rfl, rfl⟩, h⟩
        exact h

/-- A decision that reads its state first comes out as what follows does on it. -/
theorem reading_bind_ok_iff {g : σ → Except ε α} {f : α → Decision ε σ β} {s t : σ} {b : β} :
    (((fun s => (g s).map (·, s) : Decision ε σ α) >>= f).run s = .ok (b, t)) ↔
      ∃ a, g s = .ok a ∧ (f a).run s = .ok (b, t) := by
  rw [bind_ok_iff]
  constructor
  · rintro ⟨a, s', h, hf⟩
    change (g s).map (·, s) = _ at h
    cases hg : g s with
    | error e => simp [hg, Except.map] at h
    | ok c =>
        simp only [hg, Except.map, Except.ok.injEq, Prod.mk.injEq] at h
        obtain ⟨rfl, rfl⟩ := h
        exact ⟨c, rfl, hf⟩
  · rintro ⟨a, hg, hf⟩
    refine ⟨a, s, ?_, hf⟩
    change (g s).map (·, s) = _
    rw [hg]
    rfl

/-! ## What a decision can do to its state -/

/-- Every outcome of `m` that is not a failure moves the state along `R`. -/
def Moves (R : σ → σ → Prop) (m : Decision ε σ α) : Prop :=
  ∀ s a s', m.run s = .ok (a, s') → R s s'

namespace Moves

variable {R S : σ → σ → Prop} {m : Decision ε σ α} {f : α → Decision ε σ β}

theorem mono (h : ∀ s s', R s s' → S s s') (hm : Moves R m) : Moves S m :=
  fun s a s' hr => h s s' (hm s a s' hr)

theorem throw (e : ε) : Moves R (throw e : Decision ε σ α) := by
  intro s a s' h
  rw [run_throw] at h
  cases h

theorem ite {n : Decision ε σ α} {c : Prop} [Decidable c] (hm : Moves R m) (hn : Moves R n) :
    Moves R (if c then m else n) := by
  split <;> assumption

/-- A decision that only reads its state. -/
theorem reading (hR : ∀ s, R s s) {g : σ → Except ε α} :
    Moves R (fun s => (g s).map (·, s) : Decision ε σ α) := by
  intro s a s' h
  change (g s).map (·, s) = _ at h
  cases hg : g s with
  | error e => simp [hg, Except.map] at h
  | ok b =>
      simp only [hg, Except.map, Except.ok.injEq, Prod.mk.injEq] at h
      exact h.2 ▸ hR s

/-- A decision that leaves its state as it is moves it along every reflexive relation. -/
theorem of_eq (hR : ∀ s, R s s) (hm : Moves Eq m) : Moves R m :=
  fun s a s' h => hm s a s' h ▸ hR s

section Preorder

variable (hrefl : ∀ s, R s s) (htrans : ∀ s t u, R s t → R t u → R s u)

include hrefl in
theorem pure (a : α) : Moves R (pure a : Decision ε σ α) := by
  intro s b s' h
  simp only [run_pure, Except.ok.injEq, Prod.mk.injEq] at h
  exact h.2 ▸ hrefl s

include htrans in
theorem bind (hm : Moves R m) (hf : ∀ a, Moves R (f a)) : Moves R (m >>= f) := by
  intro s b t h
  obtain ⟨a, s', h₁, h₂⟩ := bind_ok_iff.mp h
  exact htrans _ _ _ (hm _ _ _ h₁) (hf a _ _ _ h₂)

include hrefl htrans in
theorem forM {g : β → Decision ε σ PUnit} (xs : List β) (hg : ∀ x ∈ xs, Moves R (g x)) :
    Moves R (xs.forM g) := by
  induction xs with
  | nil => exact Moves.pure hrefl _
  | cons x xs ih =>
      change Moves R (g x >>= fun _ => xs.forM g)
      exact Moves.bind htrans (hg x (by simp)) fun _ => ih fun y hy => hg y (by simp [hy])

end Preorder

end Moves

/-! ## A decision that comes out -/

/-- From every state in `P`, `m` comes out and leaves one in `P`. -/
def Comes (P : σ → Prop) (m : Decision ε σ α) : Prop :=
  ∀ s, P s → ∃ a s', m.run s = .ok (a, s') ∧ P s'

namespace Comes

variable {P : σ → Prop} {m : Decision ε σ α} {f : α → Decision ε σ β}

theorem pure (a : α) : Comes P (pure a : Decision ε σ α) := fun s hs => ⟨a, s, rfl, hs⟩

theorem bind (hm : Comes P m) (hf : ∀ a, Comes P (f a)) : Comes P (m >>= f) := by
  intro s hs
  obtain ⟨a, s', hrun, hs'⟩ := hm s hs
  rw [run_bind_ok hrun]
  exact hf a s' hs'

theorem ite {n : Decision ε σ α} {c : Prop} [Decidable c] (hm : Comes P m) (hn : Comes P n) :
    Comes P (if c then m else n) := by
  split <;> assumption

theorem reading {g : σ → Except ε α} (h : ∀ s, P s → ∃ a, g s = .ok a) :
    Comes P (fun s => (g s).map (·, s) : Decision ε σ α) := by
  intro s hs
  obtain ⟨a, ha⟩ := h s hs
  refine ⟨a, s, ?_, hs⟩
  change (g s).map (·, s) = _
  rw [ha]
  rfl

theorem forM {g : β → Decision ε σ PUnit} (xs : List β) (hg : ∀ x ∈ xs, Comes P (g x)) :
    Comes P (xs.forM g) := by
  induction xs with
  | nil => exact Comes.pure _
  | cons x xs ih =>
      change Comes P (g x >>= fun _ => xs.forM g)
      exact Comes.bind (hg x (by simp)) fun _ => ih fun y hy => hg y (by simp [hy])

end Comes

/-! ## Two decisions that go the same way -/

/-- From states related by `R`, `m` and `n` both fail alike, or both come out with the same
value and states related by `R` again. -/
def Alike (R : σ → τ → Prop) (m : Decision ε σ α) (n : Decision ε τ α) : Prop :=
  ∀ s t, R s t →
    (∃ a s' t', m.run s = .ok (a, s') ∧ n.run t = .ok (a, t') ∧ R s' t') ∨
      ∃ e, m.run s = .error e ∧ n.run t = .error e

namespace Alike

variable {R : σ → τ → Prop} {m : Decision ε σ α} {n : Decision ε τ α}

theorem pure (a : α) : Alike R (pure a : Decision ε σ α) (pure a : Decision ε τ α) :=
  fun s t h => .inl ⟨a, s, t, rfl, rfl, h⟩

theorem bind {f : α → Decision ε σ β} {g : α → Decision ε τ β} (hm : Alike R m n)
    (hf : ∀ a, Alike R (f a) (g a)) : Alike R (m >>= f) (n >>= g) := by
  intro s t h
  rcases hm s t h with ⟨a, s', t', hs, ht, h'⟩ | ⟨e, hs, ht⟩
  · rw [run_bind_ok hs, run_bind_ok ht]
    exact hf a s' t' h'
  · exact .inr ⟨e, run_bind_error hs, run_bind_error ht⟩

theorem ite {c : Prop} [Decidable c] {m' : Decision ε σ α} {n' : Decision ε τ α}
    (h : Alike R m n) (h' : Alike R m' n') :
    Alike R (if c then m else m') (if c then n else n') := by
  split <;> assumption

theorem mapM {f : β → Decision ε σ α} {g : β → Decision ε τ α} (xs : List β)
    (h : ∀ x ∈ xs, Alike R (f x) (g x)) : Alike R (xs.mapM f) (xs.mapM g) := by
  induction xs with
  | nil => exact Alike.pure _
  | cons x xs ih =>
      rw [List.mapM_cons, List.mapM_cons]
      refine Alike.bind (h x (by simp)) fun a => ?_
      exact Alike.bind (ih fun y hy => h y (by simp [hy])) fun as => Alike.pure _

end Alike

end Decision

end XmipPersist
