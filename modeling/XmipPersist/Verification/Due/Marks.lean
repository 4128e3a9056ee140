import XmipPersist.Verification.Due.Region

/-! # What a batch wrote of a queue, by when each entry is due

An entry is due since it was held, waits for a retry or failed, and a batch turns one into
another at the places it writes. What those places come to is the first of each part it wrote,
and how many more of the queue keep a retry's due time.
-/

namespace XmipPersist

/-! ## Marks -/

/-- Whether an entry failed, and when it is due. -/
structure Mark where
  failed : Bool
  due : ℕ
  deriving DecidableEq

namespace Mark

/-- One where it keeps a retry's due time and did not fail. -/
def retries : Option Mark → ℕ
  | some mark => if mark.failed = false ∧ mark.due ≠ 0 then 1 else 0
  | none => 0

/-- Its place, where it is due since it was held. -/
def freshAt (n : ℕ) : Option Mark → Option ℕ
  | some mark => if mark.failed = false ∧ mark.due = 0 then some n else none
  | none => none

/-- Its due time and place, where it waits for a retry. -/
def retryAt (n : ℕ) : Option Mark → Option (ℕ ×ₗ ℕ)
  | some mark =>
      if mark.failed = false ∧ mark.due ≠ 0 then some (toLex (mark.due, n)) else none
  | none => none

theorem freshAt_eq {n m : ℕ} {mark : Option Mark} :
    freshAt n mark = some m ↔ mark = some ⟨false, 0⟩ ∧ n = m := by
  cases mark with
  | none => simp [freshAt]
  | some mark =>
      obtain ⟨failed, due⟩ := mark
      simp [freshAt, and_assoc]

theorem retryAt_eq {n : ℕ} {at' : ℕ ×ₗ ℕ} {mark : Option Mark} :
    retryAt n mark = some at' ↔
      ∃ due, mark = some ⟨false, due⟩ ∧ due ≠ 0 ∧ toLex (due, n) = at' := by
  cases mark with
  | none => simp [retryAt]
  | some mark =>
      obtain ⟨failed, due⟩ := mark
      cases failed <;> simp [retryAt]

end Mark

def Held.mark (held : Held) : Mark := ⟨held.failed, held.dueAt⟩

def Content.mark : Content → Option Mark
  | .held entry => some entry.mark
  | _ => none

@[simp] theorem Content.mark_bare (content : Content) : content.bare.mark = content.mark := by
  cases content <;> rfl

theorem Held.dueAt_eq_zero {held : Held} : held.dueAt = 0 ↔ held.dueUnixNanos = none := by
  cases hdue : held.dueUnixNanos with
  | none => simp [Held.dueAt, hdue]
  | some due =>
      simp only [Held.dueAt, hdue, reduceCtorEq, iff_false]
      omega

theorem Due.retries_eq (held : Option Held) :
    Due.retries held = Mark.retries (held.map Held.mark) := by
  cases held with
  | none => rfl
  | some held =>
      have hdue := held.dueAt_eq_zero
      cases hfailed : held.failed <;> cases hnanos : held.dueUnixNanos <;>
        simp_all [Due.retries, Mark.retries, Held.mark]

/-- The marks of a queue's entries. -/
def View.marks (v : View) (q n : ℕ) : Option Mark := (v (.held, .pair q n)).bind Content.mark

theorem Store.marks_view (s : Store) (q n : ℕ) : s.view.marks q n = View.marks s.records q n := by
  simp only [View.marks, Store.view, Kind.seen, if_true]
  cases s.records (.held, .pair q n) <;> simp

/-- A place is marked as what is held there is. -/
theorem Store.Sound.marks_eq {numbers : Set ℕ} {s : Store} (hs : s.Sound numbers) {q n : ℕ}
    {failed : Bool} {due : ℕ} :
    View.marks s.records q n = some ⟨failed, due⟩ ↔
      ∃ held, s.holds q held ∧ held.failed = failed ∧ held.rank = toLex (due, n) := by
  simp only [View.marks, Option.bind_eq_some_iff]
  constructor
  · rintro ⟨content, hcontent, hmark⟩
    obtain ⟨held, rfl, -, rfl⟩ := hs.holds hcontent
    obtain ⟨hfailed, hdue⟩ := Mark.mk.inj (Option.some.inj hmark)
    exact ⟨held, hcontent, hfailed, by rw [Held.rank, hdue]⟩
  · rintro ⟨held, hholds, rfl, hrank⟩
    obtain ⟨rfl, rfl⟩ := Prod.mk.inj (toLex.injective hrank)
    exact ⟨_, hholds, rfl⟩

/-! ## The first of some candidates -/

section Least

variable {α β : Type} [LinearOrder α] {first found : Option α} {x : α} {candidate : β → Option α}
  {places : List β} {n : β}

/-- A first that is at or before an element. -/
def AtOrBefore (first : Option α) (x : α) : Prop := ∃ f, first = some f ∧ f ≤ x

theorem AtOrBefore.least_left (h : AtOrBefore first x) : AtOrBefore (Due.least first found) x := by
  obtain ⟨f, rfl, hf⟩ := h
  cases found with
  | none => exact ⟨f, rfl, hf⟩
  | some y => exact ⟨min f y, rfl, (min_le_left f y).trans hf⟩

theorem AtOrBefore.least_right (h : AtOrBefore found x) : AtOrBefore (Due.least first found) x := by
  obtain ⟨f, rfl, hf⟩ := h
  cases first with
  | none => exact ⟨f, rfl, hf⟩
  | some y => exact ⟨min y f, rfl, (min_le_right y f).trans hf⟩

theorem least_eq (h : Due.least first found = some x) : first = some x ∨ found = some x := by
  cases first with
  | none => exact .inr h
  | some y =>
      cases found with
      | none => exact .inl h
      | some z =>
          have hmin : min y z = x := Option.some.inj h
          rcases min_choice y z with heq | heq
          · exact .inl (by rw [← hmin, heq])
          · exact .inr (by rw [← hmin, heq])

/-- The least of some candidates is at or before each of them. -/
theorem AtOrBefore.foldl_init (h : AtOrBefore first x) :
    AtOrBefore (places.foldl (fun first n => Due.least first (candidate n)) first) x := by
  induction places generalizing first with
  | nil => exact h
  | cons n places ih => exact ih h.least_left

theorem AtOrBefore.foldl (hn : n ∈ places) (h : AtOrBefore (candidate n) x) :
    AtOrBefore (places.foldl (fun first n => Due.least first (candidate n)) first) x := by
  induction places generalizing first with
  | nil => simp at hn
  | cons m places ih =>
      rw [List.foldl_cons]
      rcases List.mem_cons.mp hn with rfl | hn
      · exact AtOrBefore.foldl_init h.least_right
      · exact ih hn

/-- It is one of them. -/
theorem foldl_least_eq
    (h : places.foldl (fun first n => Due.least first (candidate n)) first = some x) :
    first = some x ∨ ∃ n ∈ places, candidate n = some x := by
  induction places generalizing first with
  | nil => exact .inl h
  | cons n places ih =>
      rcases ih h with hfirst | ⟨m, hm, hx⟩
      · rcases least_eq hfirst with hfirst | hn
        · exact .inl hfirst
        · exact .inr ⟨n, by simp, hn⟩
      · exact .inr ⟨m, by simp [hm], hx⟩

end Least

/-! ## What the places written come to -/

/-- So many counted at some places, once each of some of them is counted anew. -/
theorem foldl_counted {S : Finset ℕ} {old new : ℕ → ℕ} {places : List ℕ} (hnodup : places.Nodup)
    (hS : ∀ n ∈ places, n ∈ S) :
    places.foldl (fun count n => count + new n - old n) (∑ n ∈ S, old n) =
      ∑ n ∈ S, if n ∈ places then new n else old n := by
  induction places generalizing old with
  | nil => simp
  | cons n places ih =>
      obtain ⟨hn, hnodup⟩ := List.nodup_cons.mp hnodup
      have hnS := hS n (by simp)
      have hupdate : ∑ m ∈ S, Function.update old n (new n) m = (∑ m ∈ S, old m) + new n - old n := by
        rw [Finset.sum_update_of_mem hnS, ← Finset.add_sum_erase S old hnS,
          Finset.sdiff_singleton_eq_erase]
        omega
      have hrest : ∀ m ∈ places, Function.update old n (new n) m = old m := by
        intro m hm
        rw [Function.update_of_ne]
        rintro rfl
        exact hn hm
      rw [List.foldl_cons, ← hupdate]
      have hfold : ∀ count, places.foldl (fun count m => count + new m - old m) count =
          places.foldl (fun count m => count + new m - Function.update old n (new n) m) count :=
        fun count => List.foldl_ext _ _ _ fun count m hm => by rw [hrest m hm]
      rw [hfold, ih hnodup fun m hm => hS m (by simp [hm])]
      refine Finset.sum_congr rfl fun m _ => ?_
      by_cases hm : m ∈ places
      · simp [hm]
      · by_cases heq : m = n
        · subst heq
          simp [hn]
        · simp [hm, heq]

namespace Due

variable {b : Batch} {q : ℕ}

theorem over'_eq (tally : Tally) (n : ℕ) (old new : Option Held) :
    tally.over' n old new =
      { retrying := tally.retrying + Mark.retries (new.map Held.mark) -
          Mark.retries (old.map Held.mark)
        fresh := least tally.fresh (Mark.freshAt n (new.map Held.mark))
        retry := least tally.retry (Mark.retryAt n (new.map Held.mark)) } := by
  have hnone : ∀ {α : Type} [LinearOrder α] (first : Option α), least first none = first := by
    intro α _ first
    cases first <;> rfl
  rw [Tally.over', retries_eq, retries_eq]
  cases new with
  | none => simp [Mark.freshAt, Mark.retryAt, hnone]
  | some held =>
      cases hfailed : held.failed with
      | true => simp [Option.filter, hfailed, Mark.freshAt, Mark.retryAt, Held.mark, hnone]
      | false =>
          cases hdue : held.dueAt with
          | zero =>
              simp [Option.filter, hfailed, hdue, Mark.freshAt, Mark.retryAt, Held.mark, hnone]
          | succ due =>
              simp [Option.filter, hfailed, hdue, Mark.freshAt, Mark.retryAt, Held.mark, hnone]

/-- What an entry at a place is read as, marked. -/
theorem read_mark {found : Option Content}
    (hholds : ∀ content, found = some content → Kind.held.holds (.pair q n) content) :
    ∃ held : Option Held, decoded found = .ok held ∧
      held.map Held.mark = found.bind Content.mark := by
  cases found with
  | none => exact ⟨none, rfl, rfl⟩
  | some content =>
      obtain ⟨held, rfl⟩ : Queues.held.Entry content := Kind.holds_entry (k := .held) (hholds _ rfl)
      exact ⟨some held, rfl, rfl⟩

end Due

end XmipPersist
