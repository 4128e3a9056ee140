import Mathlib

/-! # Steps on one component of a state at a time

A state of components, and steps each of which acts on the component it names, where it may. A run
of them is a run on each component alone, of the steps that name it.
-/

namespace XmipPersist.Components

variable {ι σ ε : Type} [DecidableEq ι] (named : ε → ι) (act : σ → ε → Option σ)

/-- One step: what it makes of the component it names, the others as they were. -/
def step (s : ι → σ) (e : ε) : Option (ι → σ) :=
  (act (s (named e)) e).map (Function.update s (named e))

variable {named act}

theorem run_eq_some_iff {es : List ε} {s s' : ι → σ} :
    es.foldlM (step named act) s = some s' ↔
      ∀ i, (es.filter (named · = i)).foldlM act (s i) = some (s' i) := by
  induction es generalizing s with
  | nil =>
      simp only [List.foldlM_nil, List.filter_nil, Option.pure_def, Option.some.injEq]
      exact ⟨fun h i => congrFun h i, funext⟩
  | cons e es ih =>
      rw [List.foldlM_cons, Option.bind_eq_bind, Option.bind_eq_some_iff]
      constructor
      · rintro ⟨s₁, hstep, hrun⟩ i
        obtain ⟨c, hact, rfl⟩ := Option.map_eq_some_iff.mp hstep
        have hi := ih.mp hrun i
        by_cases hname : named e = i
        · subst hname
          rw [Function.update_self] at hi
          simpa [hact] using hi
        · rw [Function.update_of_ne (Ne.symm hname)] at hi
          simpa [hname] using hi
      · intro h
        have hname := h (named e)
        rw [List.filter_cons_of_pos (by simp), List.foldlM_cons, Option.bind_eq_bind,
          Option.bind_eq_some_iff] at hname
        obtain ⟨c, hact, hrun⟩ := hname
        refine ⟨Function.update s (named e) c, by simp [step, hact], ih.mpr fun i => ?_⟩
        by_cases hi : named e = i
        · subst hi
          rw [Function.update_self]
          exact hrun
        · rw [Function.update_of_ne (Ne.symm hi)]
          simpa [hi] using h i

/-- Runs that do the same to each component do the same. -/
theorem run_congr {es es' : List ε} {s : ι → σ}
    (h : ∀ i, (es.filter (named · = i)).foldlM act (s i) =
      (es'.filter (named · = i)).foldlM act (s i)) :
    es.foldlM (step named act) s = es'.foldlM (step named act) s := by
  refine Option.ext fun s' => ?_
  simp only [run_eq_some_iff, h]

end XmipPersist.Components

namespace XmipPersist.Named

variable {κ α : Type} [DecidableEq κ]

/-- A name given to something, where nothing has it. -/
def give (m : κ → Option α) (p : κ × α) : Option (κ → Option α) :=
  if (m p.1).isSome then none else some (Function.update m p.1 (some p.2))

theorem give_comm (m : κ → Option α) (p q : κ × α) :
    (give m p).bind (give · q) = (give m q).bind (give · p) := by
  obtain ⟨k, a⟩ := p
  obtain ⟨k', a'⟩ := q
  by_cases hk : k' = k
  · subst hk
    by_cases hm : (m k').isSome <;> simp [give, hm]
  · by_cases hm : (m k).isSome <;> by_cases hm' : (m k').isSome <;>
      simp [give, hm, hm', hk, Ne.symm hk, Function.update_comm hk]

/-- Names are given in any order. -/
theorem give_perm {l l' : List (κ × α)} (h : l.Perm l') (m : κ → Option α) :
    l.foldlM give m = l'.foldlM give m := by
  induction h generalizing m with
  | nil => rfl
  | cons p _ ih => simp only [List.foldlM_cons, ih]
  | swap p q l =>
      simp only [List.foldlM_cons, Option.bind_eq_bind, ← Option.bind_assoc, give_comm m q p]
  | trans _ _ ih ih' => exact (ih m).trans (ih' m)

end XmipPersist.Named
