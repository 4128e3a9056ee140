import XmipPersist.Verification.Claim.Fencing
import XmipPersist.Verification.Due.Runs

/-! # What a queue reads as by when each is due

A read starts from where the queue's due places say the first of its part is. No entry of the
part is before it, so what it finds is the part itself, in its order.
-/

namespace XmipPersist

variable {digest : Publication → Bytes}

/-! ## Reads of one store -/

@[simp] theorem run_reads {α : Type} (g : Store → Except PersistError α) (s : Store) :
    (reads g).run (fun _ => s) = (g s).map (·, fun _ => s) := rfl

theorem run_reads_ok {α : Type} {g : Store → Except PersistError α} {s : Store} {a : α}
    (h : g s = .ok a) : (reads g).run (fun _ => s) = .ok (a, fun _ => s) := by
  rw [run_reads, h]
  rfl

theorem run_mapM_ok {α β : Type} {f : α → Reads β} {s : Store} {xs : List α} {ys : List β}
    (h : List.Forall₂ (fun x y => (f x).run (fun _ => s) = .ok (y, fun _ => s)) xs ys) :
    (xs.mapM f).run (fun _ => s) = .ok (ys, fun _ => s) := by
  induction h with
  | nil => rfl
  | cons hx _ ih =>
      rw [List.mapM_cons, Decision.run_bind_ok hx, Decision.run_bind_ok ih]
      rfl

theorem exists_forall₂ {α β : Type} {R : α → β → Prop} {xs : List α}
    (h : ∀ x ∈ xs, ∃ y, R x y) : ∃ ys, List.Forall₂ R xs ys := by
  induction xs with
  | nil => exact ⟨[], .nil⟩
  | cons x xs ih =>
      obtain ⟨y, hy⟩ := h x (by simp)
      obtain ⟨ys, hys⟩ := ih fun x hx => h x (by simp [hx])
      exact ⟨y :: ys, .cons hy hys⟩

/-! ## A part -/

namespace DuePart

/-- When an entry of a part is due, where the queue is read at `now`. -/
def whenDue (part : DuePart) (now at' : ℕ) : Prop :=
  match part with
  | due => at' ≤ now
  | waiting => now < at'
  | failed => True

def isFailed : DuePart → Bool
  | failed => true
  | _ => false

end DuePart

namespace Due

variable {numbers : Set ℕ} {s : Store} {q : ℕ} {places : DuePlaces} {next now : ℕ}

theorem max_fits {a b : ℕ ×ₗ ℕ} (ha : (ofLex a).1 ≤ u64Max ∧ (ofLex a).2 ≤ u64Max)
    (hb : (ofLex b).1 ≤ u64Max ∧ (ofLex b).2 ≤ u64Max) :
    (ofLex (max a b)).1 ≤ u64Max ∧ (ofLex (max a b)).2 ≤ u64Max := by
  rcases max_choice a b with h | h <;> rw [h] <;> assumption

/-- No entry not failed that is not due since it was held is before the first retry. -/
theorem Tells.retry_le (h : Tells (View.marks s.records q) next places) {at' : ℕ ×ₗ ℕ}
    (hmark : View.marks s.records q (ofLex at').2 = some ⟨false, (ofLex at').1⟩)
    (hdue : (ofLex at').1 ≠ 0) : places.retry ≤ at' :=
  h.retry _ _ hmark hdue

theorem Tells.fresh_le (h : Tells (View.marks s.records q) next places) {at' : ℕ ×ₗ ℕ}
    (hmark : View.marks s.records q (ofLex at').2 = some ⟨false, (ofLex at').1⟩)
    (hdue : (ofLex at').1 = 0) : places.fresh ≤ (ofLex at').2 := by
  rw [hdue] at hmark
  exact h.fresh _ hmark

/-- Nothing past the epoch is at or before an entry that is due since it was held. -/
theorem pastEpoch_le {at' : ℕ ×ₗ ℕ} (h : toLex (1, 0) ≤ at') : (ofLex at').1 ≠ 0 := by
  intro hzero
  rcases Prod.Lex.le_iff.mp h with hlt | ⟨heq, -⟩
  · simp only [ofLex_toLex] at hlt
    omega
  · simp only [ofLex_toLex] at heq
    omega

theorem le_last {at' : ℕ ×ₗ ℕ} {last : ℕ} (hplace : (ofLex at').2 ≤ u64Max) :
    at' ≤ toLex (last, u64Max) ↔ (ofLex at').1 ≤ last := by
  rw [Prod.Lex.le_iff]
  simp only [ofLex_toLex]
  omega

section Found

variable {all : OrderedSet (ℕ ×ₗ ℕ)} {failed : Bool}
  (hall : ∀ at', at' ∈ all ↔
    View.marks s.records q (ofLex at').2 = some ⟨failed, (ofLex at').1⟩)
  (hfit : ∀ at' ∈ all, (ofLex at').1 ≤ u64Max ∧ (ofLex at').2 ≤ u64Max)

include hall hfit in
/-- A range of a part, by what its entries are. -/
theorem mem_range {first at' : ℕ ×ₗ ℕ} {last : ℕ} :
    at' ∈ (all.toList.filter fun x => first ≤ x ∧ x ≤ toLex (last, u64Max)) ↔
      View.marks s.records q (ofLex at').2 = some ⟨failed, (ofLex at').1⟩ ∧
        first ≤ at' ∧ (ofLex at').1 ≤ last := by
  rw [List.mem_filter, ← OrderedSet.mem_def, ← hall, decide_eq_true_eq]
  refine and_congr_right fun hat => and_congr_right fun _ => ?_
  exact le_last (hfit at' hat).2

end Found

/-- What is due is found in two ranges: what is due since it was held, then the retries. -/
theorem found_due {all : OrderedSet (ℕ ×ₗ ℕ)}
    (hread : ∀ (first : ℕ ×ₗ ℕ) (last most : ℕ), (ofLex first).1 ≤ u64Max →
      (ofLex first).2 ≤ u64Max → last ≤ u64Max →
      region s q false first last most = .ok (all.scan first (toLex (last, u64Max)) most))
    (hfresh : places.fresh ≤ u64Max)
    (hretry : (ofLex places.retry).1 ≤ u64Max ∧ (ofLex places.retry).2 ≤ u64Max)
    {start : ℕ ×ₗ ℕ} (hstart : (ofLex start).1 ≤ u64Max ∧ (ofLex start).2 ≤ u64Max) (most : ℕ)
    (hnow : now < u64Max) :
    (found q .due start most now places).run (fun _ => s) =
      .ok (((if (ofLex start).1 = 0 then
          all.toList.filter fun x => toLex (0, max (ofLex start).2 places.fresh) ≤ x ∧
            x ≤ toLex (0, u64Max) else []) ++
        all.toList.filter fun x => max start places.retry ≤ x ∧ x ≤ toLex (now, u64Max)).take most,
        fun _ => s) := by
  let fresh : List (ℕ ×ₗ ℕ) := if (ofLex start).1 = 0 then
    all.toList.filter fun x => toLex (0, max (ofLex start).2 places.fresh) ≤ x ∧
      x ≤ toLex (0, u64Max) else []
  let retries := all.toList.filter fun x => max start places.retry ≤ x ∧ x ≤ toLex (now, u64Max)
  let rest (fresh : List (ℕ ×ₗ ℕ)) : Reads (List (ℕ ×ₗ ℕ)) :=
    if fresh.length < most ∧ (ofLex (max start places.retry)).1 ≤ now then do
      let retries ← reads fun s =>
        region s q false (max start places.retry) now (most - fresh.length)
      pure (fresh ++ retries)
    else pure fresh
  have hfirst : (found q .due start most now places).run (fun _ => s) =
      (rest (fresh.take most)).run fun _ => s := by
    by_cases hzero : (ofLex start).1 = 0
    · have hmax : max (ofLex start).2 places.fresh ≤ u64Max := max_le hstart.2 hfresh
      simp only [found, fresh, if_pos hzero]
      exact Decision.run_bind_ok
        (run_reads_ok (hread _ 0 most (Nat.zero_le _) hmax (Nat.zero_le _)))
    · simp only [found, fresh, if_neg hzero, List.take_nil]
      exact Decision.run_bind_ok rfl
  rw [hfirst]
  change _ = Except.ok ((fresh ++ retries).take most, fun _ => s)
  have hmax := max_fits hstart hretry
  by_cases hmore : (fresh.take most).length < most ∧ (ofLex (max start places.retry)).1 ≤ now
  · have hall : fresh.take most = fresh := by
      rw [List.length_take] at hmore
      exact List.take_of_length_le (by omega)
    have hrest : (reads fun s => region s q false (max start places.retry) now
        (most - (fresh.take most).length)).run (fun _ => s) =
          .ok (retries.take (most - (fresh.take most).length), fun _ => s) :=
      run_reads_ok (hread _ now _ hmax.1 hmax.2 hnow.le)
    simp only [rest, if_pos hmore, Decision.run_bind_ok hrest, Decision.run_pure]
    rw [List.take_append, hall]
  · have hnone : retries.take (most - fresh.length) = [] := by
      by_cases hlen : (fresh.take most).length < most
      · -- the retries begin past what is due
        have hpast : retries = [] := by
          refine List.filter_eq_nil_iff.mpr fun x _ hx => ?_
          obtain ⟨hle, hlast⟩ := of_decide_eq_true hx
          have hdue := Prod.Lex.monotone_fst _ _ (hle.trans hlast)
          exact hmore ⟨hlen, hdue⟩
        simp [hpast]
      · rw [List.length_take] at hlen
        have hzero : most - fresh.length = 0 := by omega
        rw [hzero, List.take_zero]
    simp only [rest, if_neg hmore, Decision.run_pure, List.take_append, hnone, List.append_nil]

section Due

variable (h : Tells (View.marks s.records q) next places) {all : OrderedSet (ℕ ×ₗ ℕ)}
  (hall : ∀ at', at' ∈ all ↔
    View.marks s.records q (ofLex at').2 = some ⟨false, (ofLex at').1⟩)
  (hfit : ∀ at' ∈ all, (ofLex at').1 ≤ u64Max ∧ (ofLex at').2 ≤ u64Max)

include h hall hfit

/-- The first range is what is due since it was held. -/
theorem mem_fresh (start at' : ℕ ×ₗ ℕ) :
    at' ∈ (if (ofLex start).1 = 0 then
        all.toList.filter fun x => toLex (0, max (ofLex start).2 places.fresh) ≤ x ∧
          x ≤ toLex (0, u64Max) else []) ↔
      View.marks s.records q (ofLex at').2 = some ⟨false, (ofLex at').1⟩ ∧
        (ofLex at').1 = 0 ∧ start ≤ at' := by
  constructor
  · intro hat
    by_cases hzero : (ofLex start).1 = 0
    · rw [if_pos hzero, mem_range hall hfit, Prod.Lex.le_iff] at hat
      obtain ⟨hmark, hle, hdue⟩ := hat
      simp only [ofLex_toLex, max_le_iff] at hle
      refine ⟨hmark, by omega, ?_⟩
      rw [Prod.Lex.le_iff]
      omega
    · rw [if_neg hzero] at hat
      simp at hat
  · rintro ⟨hmark, hdue, hle⟩
    have hfresh := h.fresh_le hmark hdue
    rw [Prod.Lex.le_iff] at hle
    have hzero : (ofLex start).1 = 0 := by omega
    rw [if_pos hzero, mem_range hall hfit, Prod.Lex.le_iff]
    simp only [ofLex_toLex, max_le_iff]
    refine ⟨hmark, ?_, hdue.le⟩
    omega

/-- The second is the retries due by now. -/
theorem mem_retries (start at' : ℕ ×ₗ ℕ) :
    at' ∈ (all.toList.filter fun x => max start places.retry ≤ x ∧ x ≤ toLex (now, u64Max)) ↔
      View.marks s.records q (ofLex at').2 = some ⟨false, (ofLex at').1⟩ ∧
        (ofLex at').1 ≠ 0 ∧ (ofLex at').1 ≤ now ∧ start ≤ at' := by
  rw [mem_range hall hfit, max_le_iff]
  constructor
  · rintro ⟨hmark, ⟨hle, hretry⟩, hdue⟩
    exact ⟨hmark, pastEpoch_le (h.pastEpoch.trans hretry), hdue, hle⟩
  · rintro ⟨hmark, hnonzero, hdue, hle⟩
    exact ⟨hmark, ⟨hle, h.retry_le hmark hnonzero⟩, hdue⟩

end Due

/-- What a read of a part finds: the part itself, from where it is asked for, up to so many. -/
theorem found_ok (hs : s.Sound numbers) (hn : index.number ∈ numbers) (hq : q < 256 ^ 16)
    (h : Tells (View.marks s.records q) next places) (part : DuePart) {start : ℕ ×ₗ ℕ}
    (hstart : (ofLex start).1 ≤ u64Max ∧ (ofLex start).2 ≤ u64Max) (most : ℕ)
    (hnow : now < u64Max) :
    ∃ all : List (ℕ ×ₗ ℕ), all.Pairwise (· < ·) ∧
      (∀ at', at' ∈ all ↔
        View.marks s.records q (ofLex at').2 = some ⟨part.isFailed, (ofLex at').1⟩ ∧
          part.whenDue now (ofLex at').1 ∧ start ≤ at') ∧
      (found q part start most now places).run (fun _ => s) = .ok (all.take most, fun _ => s) := by
  obtain ⟨all, hall, hread⟩ := region_marks hs hn hq part.isFailed
  have hfit : ∀ at' ∈ all, (ofLex at').1 ≤ u64Max ∧ (ofLex at').2 ≤ u64Max :=
    fun at' hat => marks_fit hs hn ((hall at').mp hat)
  cases part with
  | due =>
      refine ⟨_, ?_, fun at' => ?_, found_due hread h.freshFits h.retryFits hstart most hnow⟩
      · refine List.pairwise_append.mpr ⟨?_, all.ascending.filter _, fun x hx y hy => ?_⟩
        · split
          · exact all.ascending.filter _
          · exact .nil
        · have hx' := (mem_fresh h hall hfit start x).mp hx
          have hy' := (mem_retries h hall hfit start y).mp hy
          rw [Prod.Lex.lt_iff]
          omega
      · rw [List.mem_append, mem_fresh h hall hfit, mem_retries h hall hfit, DuePart.whenDue]
        by_cases hzero : (ofLex at').1 = 0
        · simp [hzero, DuePart.isFailed]
        · simp [hzero, DuePart.isFailed]
  | waiting =>
      have hfirst := max_fits hstart
        (max_fits (a := toLex (min (now + 1) u64Max, 0)) ⟨min_le_right _ _, Nat.zero_le _⟩
          h.retryFits)
      have hrun : (found q .waiting start most now places).run (fun _ => s) =
          .ok (all.scan (max start (later places now)) (toLex (u64Max, u64Max)) most,
            fun _ => s) :=
        run_reads_ok (g := fun s => region s q false (max start (later places now)) u64Max most)
          (hread _ u64Max most hfirst.1 hfirst.2 le_rfl)
      refine ⟨_, all.ascending.filter _, fun at' => ?_, hrun⟩
      rw [mem_range hall hfit, max_le_iff, later, max_le_iff, DuePart.whenDue]
      refine and_congr_right fun hmark => ?_
      have hdue := (hfit at' ((hall at').mpr hmark)).1
      have hafter : toLex (min (now + 1) u64Max, 0) ≤ at' ↔ now < (ofLex at').1 := by
        rw [Prod.Lex.le_iff]
        simp only [ofLex_toLex]
        omega
      rw [hafter]
      constructor
      · rintro ⟨⟨hle, hlt, -⟩, -⟩
        exact ⟨hlt, hle⟩
      · rintro ⟨hlt, hle⟩
        exact ⟨⟨hle, hlt, h.retry_le hmark (by omega)⟩, hdue⟩
  | failed =>
      have hrun : (found q .failed start most now places).run (fun _ => s) =
          .ok (all.scan start (toLex (u64Max, u64Max)) most, fun _ => s) :=
        run_reads_ok (g := fun s => region s q true start u64Max most)
          (hread start u64Max most hstart.1 hstart.2 le_rfl)
      refine ⟨_, all.ascending.filter _, fun at' => ?_, hrun⟩
      rw [mem_range hall hfit, DuePart.whenDue, true_and]
      refine and_congr_right fun hmark => and_iff_left ?_
      exact (hfit at' ((hall at').mpr hmark)).1

/-- The due time of the first of some entries in their order is the least of them. -/
theorem head_isLeast {xs : List (ℕ ×ₗ ℕ)} (hasc : xs.Pairwise (· < ·)) (due : ℕ) :
    ((xs.take 1).head?.map fun at' => (ofLex at').1) = some due ↔
      IsLeast {d | ∃ at' ∈ xs, (ofLex at').1 = d} due := by
  cases xs with
  | nil => simp [IsLeast]
  | cons x xs =>
      have hleast : IsLeast {d | ∃ at' ∈ x :: xs, (ofLex at').1 = d} (ofLex x).1 := by
        refine ⟨⟨x, by simp, rfl⟩, ?_⟩
        rintro d ⟨y, hy, rfl⟩
        rcases List.mem_cons.mp hy with rfl | hy
        · exact le_rfl
        · exact Prod.Lex.monotone_fst _ _ (List.rel_of_pairwise_cons hasc hy).le
      simp only [List.take_succ_cons, List.take_zero, List.head?_cons, Option.map_some,
        Option.some.injEq]
      constructor
      · rintro rfl
        exact hleast
      · exact hleast.unique

end Due

/-! ## A queue read by when each is due -/

/-- An entry of a part of a queue, read at `now`. -/
def DuePart.takes (part : DuePart) (now : ℤ) (held : Held) : Prop :=
  match part with
  | due => held.failed = false ∧ held.dueAt ≤ now
  | waiting => held.failed = false ∧ now < held.dueAt
  | failed => held.failed = true

/-- What a read of a part answers: the first `most` of it, from `start` on in its order; how many
entries not failed keep a due time; and the earliest retry not yet due. No entry not failed is
before where the queue's due places say the first is. -/
structure DueRead (s : Store) (q : ℕ) (part : DuePart) (start : ℕ ×ₗ ℕ) (most : ℕ) (now : ℤ)
    (answer : DueQueue) : Prop where
  held : ∃ all : List Held, all.Pairwise (fun a b => a.rank < b.rank) ∧
    (∀ held, held ∈ all ↔ s.holds q held ∧ part.takes now held ∧ start ≤ held.rank) ∧
    answer.held = all.take most
  retrying : answer.retrying =
    {held | s.holds q held ∧ held.failed = false ∧ held.dueUnixNanos ≠ none}.ncard
  next : ∀ due, answer.nextDueUnixNanos = some due ↔
    IsLeast {due | ∃ held, s.holds q held ∧ held.failed = false ∧ now < held.dueAt ∧
      held.dueAt = due} due
  clock : answer.readUnixNanos = now
  places : ∃ places, Due.keptIn q s = .ok places ∧
    ∀ held, s.holds q held → held.failed = false →
      (held.dueAt = 0 → places.fresh ≤ held.sequence) ∧
      (held.dueAt ≠ 0 → places.retry ≤ held.rank)

section Read

variable {numbers : Set ℕ} {s : Store} {q : ℕ}

theorem DuePart.takes_iff {part : DuePart} {now : ℤ} {n : ℕ} (hnow : (n : ℤ) = now)
    (held : Held) :
    part.takes now held ↔ held.failed = part.isFailed ∧ part.whenDue n held.dueAt := by
  subst hnow
  cases part <;> simp [takes, whenDue, isFailed]

/-- As many retries are counted as there are. -/
theorem retrying_ncard (hs : s.Sound numbers) :
    ∑ n ∈ Finset.range (s.queue .held q).next, Mark.retries (View.marks s.records q n) =
      {held | s.holds q held ∧ held.failed = false ∧ held.dueUnixNanos ≠ none}.ncard := by
  have hinj : Set.InjOn Held.sequence
      {held | s.holds q held ∧ held.failed = false ∧ held.dueUnixNanos ≠ none} := by
    rintro a ⟨ha, -⟩ b ⟨hb, -⟩ hab
    rw [Store.holds, hab, hb] at ha
    exact (Content.held.inj (Option.some.inj ha)).symm
  have himage : Held.sequence ''
      {held | s.holds q held ∧ held.failed = false ∧ held.dueUnixNanos ≠ none} =
      ((Finset.range (s.queue .held q).next).filter fun n =>
        Mark.retries (View.marks s.records q n) = 1 : Finset ℕ) := by
    ext n
    simp only [Set.mem_image, Set.mem_ofPred_eq, Finset.coe_filter, Finset.mem_range]
    constructor
    · rintro ⟨held, ⟨hholds, hfailed, hdue⟩, rfl⟩
      refine ⟨((hs.orderly .held q).bounds _ _ hholds).2, ?_⟩
      have hmark := hs.marks_eq.mpr ⟨held, hholds, hfailed, rfl⟩
      rw [hmark, Mark.retries, if_pos ⟨rfl, mt Held.dueAt_eq_zero.mp hdue⟩]
    · rintro ⟨-, hone⟩
      cases hmark : View.marks s.records q n with
      | none =>
          rw [hmark] at hone
          cases hone
      | some mark =>
          obtain ⟨failed, due⟩ := mark
          rw [hmark, Mark.retries] at hone
          by_cases hretry : failed = false ∧ due ≠ 0
          · obtain ⟨held, hholds, hfailed, hrank⟩ := hs.marks_eq.mp hmark
            obtain ⟨rfl, rfl⟩ := Prod.mk.inj (toLex.injective hrank)
            exact ⟨held, ⟨hholds, hfailed.trans hretry.1,
              mt Held.dueAt_eq_zero.mpr hretry.2⟩, rfl⟩
          · rw [if_neg hretry] at hone
            cases hone
  rw [← hinj.ncard_image, himage, Set.ncard_coe_finset, Finset.card_filter]
  refine Finset.sum_congr rfl fun n _ => ?_
  cases View.marks s.records q n with
  | none => rfl
  | some mark =>
      rw [Mark.retries]
      split <;> rfl

/-- An entry is the only one at its place. -/
theorem Store.holds_inj {held held' : Held} (h : s.holds q held) (h' : s.holds q held')
    (hrank : held.rank = held'.rank) : held = held' := by
  have hsequence := (Prod.mk.inj (toLex.injective hrank)).2
  rw [Store.holds, hsequence, h'] at h
  exact (Content.held.inj (Option.some.inj h)).symm

/-- The entries at some due times and places, in their order. -/
theorem exists_holds {xs : List (ℕ ×ₗ ℕ)} {P : Held → Prop} (hasc : xs.Pairwise (· < ·))
    (hmem : ∀ at', at' ∈ xs ↔ ∃ held, s.holds q held ∧ P held ∧ held.rank = at') :
    ∃ all : List Held, List.Forall₂ (fun at' held => s.holds q held ∧ held.rank = at') xs all ∧
      all.Pairwise (fun a b => a.rank < b.rank) ∧
      ∀ held, held ∈ all ↔ s.holds q held ∧ P held := by
  obtain ⟨all, hall⟩ := exists_forall₂ fun at' hat => (hmem at').mp hat
  have hranks : all.map Held.rank = xs := by
    clear hasc hmem
    induction hall with
    | nil => rfl
    | cons h _ ih => rw [List.map_cons, h.2.2, ih]
  refine ⟨all, hall.imp fun _ _ h => ⟨h.1, h.2.2⟩, ?_, fun held => ?_⟩
  · rw [← hranks, List.pairwise_map] at hasc
    exact hasc
  · constructor
    · intro hheld
      obtain ⟨at', -, hholds, hP, -⟩ := forall₂_exists hall.flip hheld
      exact ⟨hholds, hP⟩
    · rintro ⟨hholds, hP⟩
      obtain ⟨held', hheld', hholds', -, hrank⟩ :=
        forall₂_exists hall ((hmem held.rank).mpr ⟨held, hholds, hP, rfl⟩)
      rwa [Store.holds_inj hholds hholds' hrank.symm]

theorem Due.entry_ok (hs : s.Proper) {held : Held} (h : s.holds q held) :
    (Due.entry q held.sequence).run (fun _ => s) = .ok (some held, fun _ => s) := by
  refine run_reads_ok ?_
  rw [hs.get, h]
  rfl

theorem Due.read_ok (hs : s.Sound numbers) (hn : Due.index.number ∈ numbers)
    (hsettled : s.Settled) (hq : q < 256 ^ 16) (part : DuePart) {start : ℕ ×ₗ ℕ}
    (hstart : (ofLex start).1 ≤ u64Max ∧ (ofLex start).2 ≤ u64Max) (most : ℕ) {now : ℤ}
    (hpast : 1 ≤ now) (hnow : now < 2 ^ 64 - 1) :
    ∃ answer, (Due.read q part start most now).on s = .ok answer ∧
      DueRead s q part start most now answer := by
  obtain ⟨places, hread, htells⟩ := hsettled q hq
  have hnanos : (nanos now : ℤ) = now ∧ nanos now < u64Max := by
    simp only [nanos, u64Max]
    omega
  obtain ⟨found, hasc, hmem, hfound⟩ := found_ok hs hn hq htells part hstart most hnanos.2
  have hpart : ∀ at', at' ∈ found ↔ ∃ held, s.holds q held ∧
      (part.takes now held ∧ start ≤ held.rank) ∧ held.rank = at' := by
    intro at'
    rw [hmem, hs.marks_eq]
    constructor
    · rintro ⟨⟨held, hholds, hfailed, hrank⟩, hdue, hle⟩
      obtain rfl : held.rank = at' := hrank
      exact ⟨held, hholds, ⟨(DuePart.takes_iff hnanos.1 held).mpr ⟨hfailed, hdue⟩, hle⟩, rfl⟩
    · rintro ⟨held, hholds, ⟨htakes, hle⟩, rfl⟩
      obtain ⟨hfailed, hdue⟩ := (DuePart.takes_iff hnanos.1 held).mp htakes
      exact ⟨⟨held, hholds, hfailed, rfl⟩, hdue, hle⟩
  obtain ⟨all, hall, hallAsc, hallMem⟩ := exists_holds hasc hpart
  -- the earliest retry not yet due is the first of those that wait
  have hzero : (ofLex (toLex ((0 : ℕ), (0 : ℕ)))).1 ≤ u64Max ∧
      (ofLex (toLex ((0 : ℕ), (0 : ℕ)))).2 ≤ u64Max := ⟨Nat.zero_le _, Nat.zero_le _⟩
  obtain ⟨waiting, hascWaiting, hmemWaiting, hwaiting⟩ :=
    found_ok hs hn hq htells .waiting hzero 1 hnanos.2
  have hnext : (reads fun s => region s q false (later places (nanos now)) u64Max 1).run
      (fun _ => s) = .ok (waiting.take 1, fun _ => s) := by
    have hfirst : max (toLex (0, 0)) (later places (nanos now)) = later places (nanos now) :=
      max_eq_right (Prod.Lex.toLex_mono ⟨Nat.zero_le _, Nat.zero_le _⟩)
    rw [← hfirst]
    exact hwaiting
  have hentries : ((found.take most).mapM fun at' => entry q (ofLex at').2).run (fun _ => s) =
      .ok ((all.take most).map some, fun _ => s) := by
    refine run_mapM_ok (List.forall₂_map_right_iff.mpr ?_)
    refine (List.forall₂_take most hall).imp fun at' held h => ?_
    obtain ⟨hholds, rfl⟩ := h
    exact entry_ok hs.proper hholds
  refine ⟨⟨all.take most, places.retrying, (waiting.take 1).head?.map fun at' => (ofLex at').1,
    now⟩, ?_, ⟨all, hallAsc, hallMem, rfl⟩, ?_, fun due => ?_, rfl, places, hread, ?_⟩
  · rw [Reads.on, Due.read, Decision.run_bind_ok (run_reads_ok hread)]
    simp only [Decision.run_bind_ok hfound, Decision.run_bind_ok hnext,
      Decision.run_bind_ok hentries, Decision.run_pure]
    simp [Except.map]
  · rw [← retrying_ncard hs]
    exact htells.retrying
  · have hset : {d | ∃ at' ∈ waiting, (ofLex at').1 = d} = {due | ∃ held, s.holds q held ∧
        held.failed = false ∧ now < held.dueAt ∧ held.dueAt = due} := by
      ext due
      simp only [Set.mem_ofPred_eq, hmemWaiting, hs.marks_eq]
      constructor
      · rintro ⟨at', ⟨⟨held, hholds, hfailed, hrank⟩, hdue, -⟩, rfl⟩
        obtain rfl : held.rank = at' := hrank
        have htakes : DuePart.waiting.takes now held :=
          (DuePart.takes_iff hnanos.1 held).mpr ⟨hfailed, hdue⟩
        exact ⟨held, hholds, hfailed, htakes.2, rfl⟩
      · rintro ⟨held, hholds, hfailed, hlt, rfl⟩
        have htakes : DuePart.waiting.takes now held := ⟨hfailed, hlt⟩
        obtain ⟨hwaits, hdue⟩ := (DuePart.takes_iff hnanos.1 held).mp htakes
        exact ⟨held.rank, ⟨⟨held, hholds, hwaits, rfl⟩, hdue,
          Prod.Lex.toLex_mono ⟨Nat.zero_le _, Nat.zero_le _⟩⟩, rfl⟩
    rw [head_isLeast hascWaiting, hset]
  · intro held hholds hfailed
    have hmark := hs.marks_eq.mpr ⟨held, hholds, hfailed, rfl⟩
    refine ⟨fun hdue => ?_, fun hdue => htells.retry _ _ hmark hdue⟩
    rw [hdue] at hmark
    exact htells.fresh _ hmark

/-- In every state a run from nothing reaches, a part of a queue is read as it is. -/
theorem due_read {w : Writer} {steps : List Step} (hmade : ∀ s ∈ steps, s.Made)
    (hw : w.store = .empty)
    (hfits : w.Fits digest {.queue, .failed, .dueAt, .sequence} steps) {q : ℕ}
    (hq : q < 256 ^ 16) (part : DuePart) {start : ℕ ×ₗ ℕ}
    (hstart : (ofLex start).1 ≤ u64Max ∧ (ofLex start).2 ≤ u64Max) (most : ℕ) {now : ℤ}
    (hpast : 1 ≤ now) (hnow : now < 2 ^ 64 - 1) :
    ∃ answer, (Due.read q part start most now).on (w.run digest steps).store = .ok answer ∧
      DueRead (w.run digest steps).store q part start most now answer := by
  have hsound : w.store.Sound {Due.index.number} := by
    rw [hw]
    exact Store.empty_sound _
  have hsettled : w.store.Settled := by
    rw [hw]
    exact Store.empty_settled
  have hfits' := hfits.mono Due.columns_subset
  have hn : Due.index.number ∈ ({Due.index.number} : Set ℕ) := rfl
  exact Due.read_ok (Writer.run_sound hmade hsound hfits') hn
    (Writer.run_settled hmade hn hsound hsettled hfits') hq part hstart most hpast hnow

/-- Two Journeys held, the first of them then waiting for its retry. -/
def heldThenWaiting : List Step :=
  let at' (now : ℤ) (op : Op) : Step := .group ⟨now, 3, .asWritten, none⟩ [op]
  [at' 0 (.publish { message := { message := 1 }, journeys := [{ journey := 2 }, { journey := 3 }],
                     held := [{ queue := 5, journey := 2 }, { queue := 5, journey := 3 }],
                     audit := { id := 9 }, claims := [⟨2, "first", 7, 0, 0⟩], leaseNanos := 10 }),
    at' 1 (.handOn { claim := ⟨2, "first", 7, 0, 12884901889⟩,
                     result := { journey := 2, facts := { state := "retrying" } },
                     waits := some ⟨5, 1000⟩ })]

theorem due_read_waiting :
    ∃ answer, (Due.read 5 .waiting (toLex (0, 0)) 10 100).on
        (Writer.fresh.run (fun _ => []) heldThenWaiting).store = .ok answer ∧
      DueRead (Writer.fresh.run (fun _ => []) heldThenWaiting).store 5 .waiting (toLex (0, 0)) 10
        100 answer :=
  due_read (by simp [heldThenWaiting, Step.Made, Op.Made]) rfl (by decide +kernel) (by decide)
    .waiting ⟨Nat.zero_le _, Nat.zero_le _⟩ 10 (by decide) (by decide)

end Read

end XmipPersist
