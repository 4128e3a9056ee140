import XmipPersist.Verification.Due.Read
import XmipPersist.Verification.Queue.Kept

/-! # What a read operation answers with the writer at work

A read operation makes several reads of its engine, and batches land between them. One that reads
through a view answers what the store was at one moment. One that does not does so where no batch
that lands between its reads writes what it reads.
-/

namespace XmipPersist

variable {digest : Publication → Bytes}

/-! ## A read amid a run -/

/-- When a read operation is made in a run: it starts and ends when so many steps are done, and
each of its engine reads finds the store as it is at a time between, one after another. -/
structure Reading where
  started : ℕ
  ended : ℕ
  at' : ℕ → ℕ
  ordered : Monotone at'
  within : ∀ n, started ≤ at' n ∧ at' n ≤ ended

namespace Writer

/-- The store once so many steps of a run are done. -/
def storeAt (digest : Publication → Bytes) (w : Writer) (steps : List Step) (n : ℕ) : Store :=
  (w.run digest (steps.take n)).store

/-- A step of a run that leaves a place as it was: no operation of it that came out wrote it. -/
def Leaves (digest : Publication → Bytes) (w : Writer) (steps : List Step) (n : ℕ) (p : Place) :
    Prop :=
  ∀ step, steps[n]? = some step →
    ∀ r ∈ (w.run digest (steps.take n)).rulings digest step, ∀ c ∈ r.stage.changes, c.place ≠ p

end Writer

namespace Reading

/-- What a read operation answers. -/
def answer {α : Type} (r : Reading) (digest : Publication → Bytes) (w : Writer)
    (steps : List Step) (m : Reads α) : Except PersistError α :=
  (m.run fun n => w.storeAt digest steps (r.at' n)).map Prod.fst

/-- It answers as it does on one store the database was between its start and its end. -/
def AtOnce {α : Type} (r : Reading) (digest : Publication → Bytes) (w : Writer)
    (steps : List Step) (m : Reads α) : Prop :=
  ∃ n, r.started ≤ n ∧ n ≤ r.ended ∧ r.answer digest w steps m = m.on (w.storeAt digest steps n)

end Reading

/-! ## The reads of a queue -/

/-- A read of a queue as it is asked for. -/
inductive QueueRead
  | held (queue start most : ℕ)
  | failed (queue start most : ℕ)
  | dead (queue start most : ℕ)
  | due (queue : ℕ) (part : DuePart) (start : ℕ ×ₗ ℕ) (most : ℕ)
  | deadMessage (queue message : ℕ)

inductive QueueAnswer
  | held (answer : HeldQueue)
  | failed (answer : Paged Failed)
  | dead (answer : Paged Dead)
  | due (answer : DueQueue)
  | deadMessage (answer : DeadEntry)
  deriving DecidableEq

namespace QueueRead

/-- A read of a queue, with Xmip Storage's clock as it reads. -/
def read (asked : QueueRead) (now : ℤ) : Reads QueueAnswer :=
  match asked with
  | held queue start most => QueueAnswer.held <$> Hold.read queue start most now
  | failed queue start most => QueueAnswer.failed <$> Failed.read queue start most
  | dead queue start most => QueueAnswer.dead <$> Dead.read queue start most
  | due queue part start most => QueueAnswer.due <$> Due.read queue part start most now
  | deadMessage queue message => QueueAnswer.deadMessage <$> Dead.readOne queue message

/-- No batch that lands between two of the read's engine reads writes an entry of the queue it
reads by when each is due; none that lands after a Message's place was found and before its entry
is read writes that place. -/
def Undisturbed (asked : QueueRead) (r : Reading) (digest : Publication → Bytes) (w : Writer)
    (steps : List Step) : Prop :=
  match asked with
  | held _ _ _ | failed _ _ _ | dead _ _ _ => True
  | due queue _ _ _ => ∀ n i, r.at' 0 ≤ i → i < r.at' n →
      ∀ place, w.Leaves digest steps i (.held, .pair queue place)
  | deadMessage queue message => ∀ sequence,
      (w.storeAt digest steps (r.at' 0)).records (.deadMessage, .pair queue message) =
        some (.number sequence) →
      ∀ i, r.at' 0 ≤ i → i < r.at' 1 → w.Leaves digest steps i (.deadMessage, .pair queue message)

end QueueRead

/-! ## What a step leaves -/

theorem written_none_of_forall₂ {cs cs' : List Change} (h : List.Forall₂ WrittenAs cs cs')
    {p : Place} (hnone : written cs p = none) : written cs' p = none := by
  rw [written_eq_none] at hnone ⊢
  intro c' hc'
  obtain ⟨c, hc, hsame⟩ := forall₂_exists h.flip hc'
  rw [hsame.place]
  exact hnone c hc

/-- A place a group did not write is as it was. -/
theorem laid_unwritten {w : Writer} {m : Moment} {decided : Batch} {s : Store}
    (h : w.laid m decided = .ok s) {p : Place} (hp : p.1.seen = true)
    (hnone : written decided.changes p = none) : s.records p = w.store.records p := by
  unfold Writer.laid at h
  split at h
  · cases h
    rfl
  · simp only [bind_eq_ok] at h
    obtain ⟨⟨cs, es⟩, hl, h⟩ := h
    cases hr : m.refused with
    | some error => simp [hr, throw, throwThe, MonadExceptOf.throw] at h
    | none =>
        simp only [hr, pure, Except.pure, Except.ok.injEq] at h
        obtain ⟨extra, hover, hextra⟩ := laying_ok hl
        have hextraNone : written extra p = none := by
          rw [written_eq_none]
          rintro c hc rfl
          rcases List.mem_pair.mp (hextra c hc).2 with hkind | hkind <;>
            simp [Change.place, hkind, Kind.seen] at hp
        have hall : written (decided.changes ++ extra) p = none := by
          rw [written_append, hnone, hextraNone]
          rfl
        have hwritten := written_none_of_forall₂ (writtenOver_writtenAs hover) hall
        rw [← h]
        simp [Store.applyIndexed, hwritten]

theorem decided_unwritten {m : Moment} {w : Writer} {ops : List Op} {p : Place}
    (h : ∀ r ∈ XmipPersist.rulings digest m (Batch.over' w.store w.next) ops,
      ∀ c ∈ r.stage.changes, c.place ≠ p) :
    written (decideEach digest m (Batch.over' w.store w.next) ops).2.changes p = none := by
  rw [written_eq_none]
  intro c hc
  rcases decideEach_changes hc with hc | ⟨r, hr, hc⟩
  · simp [Batch.over'] at hc
  · exact h r hr c hc

namespace Writer

variable {w : Writer} {steps : List Step} {n : ℕ} {p : Place}

theorem storeAt_succ {step : Step} (h : steps[n]? = some step) :
    w.storeAt digest steps (n + 1) = ((w.run digest (steps.take n)).after digest step).store := by
  rw [storeAt, List.take_add_one, h, Option.toList_some, run, List.foldl_append]
  rfl

theorem storeAt_past (h : steps[n]? = none) :
    w.storeAt digest steps (n + 1) = w.storeAt digest steps n := by
  rw [storeAt, storeAt, List.take_add_one, h, Option.toList_none, List.append_nil]

theorem deferred_unwritten {cs : List Change} (hp : p.1.seen = true)
    (hcs : ∀ c ∈ cs, c.kind.seen = false) : (w.deferred cs).store.records p = w.store.records p := by
  have hnone : written cs p = none := by
    rw [written_eq_none]
    rintro c hc rfl
    have hseen := hcs c hc
    simp [Change.place, hseen] at hp
  simp [deferred, Store.applyIndexed, hnone]

theorem after_unwritten {step : Step} (hp : p.1.seen = true)
    (h : ∀ r ∈ w.rulings digest step, ∀ c ∈ r.stage.changes, c.place ≠ p) :
    (w.after digest step).store.records p = w.store.records p := by
  cases step with
  | group m ops =>
      simp only [after, committed]
      cases hl : w.laid m (decideEach digest m (Batch.over' w.store w.next) ops).2 with
      | error e => rfl
      | ok store =>
          simp only [rulings, hl] at h
          exact laid_unwritten hl hp (decided_unwritten h)
  | chunk chunk => exact deferred_unwritten hp (by simp [chunkChange, Kind.seen])
  | stream last stream now =>
      exact deferred_unwritten hp (by simp [streamChanges, chunkChange, Kind.seen])
  | restart =>
      simp only [after, start]
      cases w.store.get (.sequence, .next) >>= numbered <;> rfl

/-- A place left by every step between two times holds the same at both. -/
theorem storeAt_unwritten {first last : ℕ} (hp : p.1.seen = true) (hle : first ≤ last)
    (h : ∀ i, first ≤ i → i < last → w.Leaves digest steps i p) :
    (w.storeAt digest steps last).records p = (w.storeAt digest steps first).records p := by
  induction last, hle using Nat.le_induction with
  | base => rfl
  | succ last hle ih =>
      have hbefore := ih fun i hi hlt => h i hi (by omega)
      rw [← hbefore]
      cases hstep : steps[last]? with
      | none => rw [storeAt_past hstep]
      | some step =>
          rw [storeAt_succ hstep]
          exact after_unwritten hp (h last hle (by omega) step hstep)

end Writer

/-! ## A queue no entry of which is written -/

section Due

variable {numbers : Set ℕ} {s s' : Store} {q : ℕ}

/-- A part of a queue's index, from what the queue holds. -/
theorem Store.Sound.due_get_iff (hs : s.Sound numbers) (hn : Due.index.number ∈ numbers)
    (hq : q < 256 ^ 16) {failed : Bool} {key : IndexKey}
    (hopens : Due.index.opens [.id q, .flag failed] <+: key) (id : ℕ) :
    s.entries.get key = some id ↔ ∃ held, s.holds q held ∧ held.failed = failed ∧
      held.hold.journey = id ∧
      key = orderedKey (Due.index.opens [.id q, .flag failed]) [held.dueAt, held.sequence] id := by
  constructor
  · intro hget
    exact hs.duePlaced hn hq hget hopens
  · rintro ⟨held, hholds, rfl, rfl, rfl⟩
    exact (hs.dueFound hn hholds).2

/-- Stores that hold the same in a queue read the same of its index. -/
theorem Due.region_congr (hs : s.Sound numbers) (hs' : s'.Sound numbers)
    (hn : Due.index.number ∈ numbers) (hq : q < 256 ^ 16)
    (hholds : ∀ held, s'.holds q held ↔ s.holds q held) (failed : Bool) (first : ℕ ×ₗ ℕ)
    (last most : ℕ) :
    Due.region s' q failed first last most = Due.region s q failed first last most := by
  rw [Due.region, Due.region]
  rw [Index.findOrdered_congr fun key hopens => Option.ext fun id => ?_]
  rw [hs.due_get_iff hn hq hopens, hs'.due_get_iff hn hq hopens]
  simp only [hholds]

theorem Writer.deferred_keptIn {w : Writer} {cs : List Change}
    (hcs : ∀ c ∈ cs, c.kind ∈ [Kind.chunk, .stream]) :
    Due.keptIn q (w.deferred cs).store = Due.keptIn q w.store := by
  have hnone : written cs (.duePlaces, .id q) = none := by
    rw [written_eq_none]
    intro c hc hplace
    have hkind : c.kind = .duePlaces := congrArg Prod.fst hplace
    have hmem := hcs c hc
    simp [hkind] at hmem
  rw [Due.keptIn, Due.keptIn, Store.get, Store.get]
  simp [deferred, Store.applyIndexed, hnone]

/-- A step that writes no entry of a queue leaves its due places. -/
theorem Writer.after_keptIn {w : Writer} {step : Step} (hmade : step.Made) (hw : w.store.Proper)
    (h : ∀ n, ∀ r ∈ w.rulings digest step, ∀ c ∈ r.stage.changes, c.place ≠ (.held, .pair q n)) :
    Due.keptIn q (w.after digest step).store = Due.keptIn q w.store := by
  have hafter : (w.after digest step).store.Proper := after_proper hmade hw
  cases step with
  | group m ops =>
      simp only [after, committed] at hafter ⊢
      cases hl : w.laid m (decideEach digest m (Batch.over' w.store w.next) ops).2 with
      | error e => rfl
      | ok store =>
          rw [hl] at hafter
          simp only [rulings, hl] at h
          exact laid_unsettled hl hw hafter (decideEach_below m _ ops)
            (decideEach_settles hmade (by simp [Batch.over'])) fun n => decided_unwritten (h n)
  | chunk chunk => exact deferred_keptIn (by simp [chunkChange])
  | stream last stream now => exact deferred_keptIn (by simp [streamChanges, chunkChange])
  | restart =>
      simp only [after, start]
      cases w.store.get (.sequence, .next) >>= numbered <;> rfl

/-- A store that agrees with another on all that a read of a queue by when each is due reads. -/
structure Due.Agrees (q : ℕ) (s s' : Store) : Prop where
  keptIn : Due.keptIn q s' = Due.keptIn q s
  region : ∀ failed first last most,
    Due.region s' q failed first last most = Due.region s q failed first last most
  entry : ∀ n, s'.get (.held, .pair q n) = s.get (.held, .pair q n)

/-- Moments that all agree with one store, beside that store throughout. -/
def Due.Agreeing (q : ℕ) (s : Store) (moments moments' : ℕ → Store) : Prop :=
  (∀ n, Due.Agrees q s (moments n)) ∧ moments' = fun _ => s

theorem Due.Agreeing.reads {α : Type} {g : Store → Except PersistError α}
    (h : ∀ s', Due.Agrees q s s' → g s' = g s) :
    Decision.Alike (Due.Agreeing q s) (reads g) (reads g) := by
  rintro moments _ ⟨hagrees, rfl⟩
  have hsame := h (moments 0) (hagrees 0)
  cases hg : g s with
  | error e =>
      refine .inr ⟨e, ?_, run_reads g s |>.trans (by rw [hg]; rfl)⟩
      change (g (moments 0)).map (·, fun n => moments (n + 1)) = _
      rw [hsame, hg]
      rfl
  | ok a =>
      refine .inl ⟨a, fun n => moments (n + 1), fun _ => s, ?_, run_reads_ok hg,
        fun n => hagrees (n + 1), rfl⟩
      change (g (moments 0)).map (·, fun n => moments (n + 1)) = _
      rw [hsame, hg]
      rfl

/-- A read of a queue by when each is due goes the same way at moments that agree. -/
theorem Due.read_alike (part : DuePart) (start : ℕ ×ₗ ℕ) (most : ℕ) (now : ℤ) :
    Decision.Alike (Due.Agreeing q s) (Due.read q part start most now)
      (Due.read q part start most now) := by
  have hregion : ∀ failed first last most, Decision.Alike (Due.Agreeing q s)
      (reads fun s => Due.region s q failed first last most)
      (reads fun s => Due.region s q failed first last most) :=
    fun failed first last most => Agreeing.reads fun s' h => h.region failed first last most
  have hfound : ∀ places, Decision.Alike (Due.Agreeing q s)
      (Due.found q part start most (nanos now) places)
      (Due.found q part start most (nanos now) places) := by
    intro places
    cases part with
    | due =>
        have hrest : ∀ fresh : List (ℕ ×ₗ ℕ), Decision.Alike (Due.Agreeing q s)
            (if fresh.length < most ∧ (ofLex (max start places.retry)).1 ≤ nanos now then do
              let retries ← reads fun s =>
                Due.region s q false (max start places.retry) (nanos now) (most - fresh.length)
              pure (fresh ++ retries)
            else pure fresh)
            (if fresh.length < most ∧ (ofLex (max start places.retry)).1 ≤ nanos now then do
              let retries ← reads fun s =>
                Due.region s q false (max start places.retry) (nanos now) (most - fresh.length)
              pure (fresh ++ retries)
            else pure fresh) :=
          fun fresh => .ite (.bind (hregion _ _ _ _) fun _ => .pure _) (.pure _)
        simp only [Due.found]
        exact .ite (.bind (hregion _ _ _ _) hrest) (.bind (.pure _) hrest)
    | waiting => exact hregion _ _ _ _
    | failed => exact hregion _ _ _ _
  have hentry : ∀ place, Decision.Alike (Due.Agreeing q s) (Due.entry q place)
      (Due.entry q place) :=
    fun place => Agreeing.reads fun s' h => by rw [h.entry]
  exact .bind (Agreeing.reads fun s' h => h.keptIn) fun places => .bind (hfound places) fun found =>
    .bind (hregion _ _ _ _) fun next => .bind (.mapM found fun at' _ => hentry _) fun held =>
      .pure _

end Due

/-! ## At once -/

section AtOnce

variable {w : Writer} {steps : List Step} {r : Reading} {α β : Type} {m : Reads α}

theorem Reads.run_map (f : α → β) (moments : ℕ → Store) :
    (f <$> m).run moments = (m.run moments).map fun p => (f p.1, p.2) := by
  change (m >>= fun a => pure (f a)).run moments = _
  rw [Decision.run_bind]
  cases m.run moments <;> rfl

theorem Reading.AtOnce.map (h : r.AtOnce digest w steps m) (f : α → β) :
    r.AtOnce digest w steps (f <$> m) := by
  have hfst : ∀ moments : ℕ → Store, ((f <$> m).run moments).map Prod.fst =
      ((m.run moments).map Prod.fst).map f := by
    intro moments
    rw [Reads.run_map]
    cases m.run moments <;> rfl
  obtain ⟨n, hstarted, hended, hsame⟩ := h
  refine ⟨n, hstarted, hended, ?_⟩
  rw [answer, Reads.on, hfst, hfst]
  exact congrArg _ hsame

/-- One engine read, or one view, is of one moment. -/
theorem Reading.atOnce_reads (g : Store → Except PersistError α) :
    r.AtOnce digest w steps (reads g) := by
  refine ⟨r.at' 0, (r.within 0).1, (r.within 0).2, ?_⟩
  rw [answer, Reads.on, run_reads]
  change ((g (w.storeAt digest steps (r.at' 0))).map _).map _ = _
  cases g (w.storeAt digest steps (r.at' 0)) <;> rfl

theorem Writer.Fits.take {columns : Set Column} (h : w.Fits digest columns steps) (n : ℕ) :
    w.Fits digest columns (steps.take n) := by
  intro ruling hr
  refine h ruling ?_
  rw [← List.take_append_drop n steps, Writer.ruled_append]
  exact List.mem_append_left _ hr

variable (hmade : ∀ s ∈ steps, s.Made) (hw : w.store = .empty)
  (hfits : w.Fits digest {.queue, .failed, .dueAt, .sequence} steps)

include hmade hw hfits

theorem Writer.storeAt_sound (n : ℕ) :
    (w.storeAt digest steps n).Sound {Due.index.number} := by
  have hempty : w.store.Sound {Due.index.number} := by
    rw [hw]
    exact Store.empty_sound _
  exact run_sound (fun s hs => hmade s (List.mem_of_mem_take hs)) hempty
    ((hfits.take n).mono Due.columns_subset)

theorem Writer.storeAt_keptIn {q first last : ℕ} (hle : first ≤ last)
    (h : ∀ i, first ≤ i → i < last → ∀ place, w.Leaves digest steps i (.held, .pair q place)) :
    Due.keptIn q (w.storeAt digest steps last) = Due.keptIn q (w.storeAt digest steps first) := by
  induction last, hle using Nat.le_induction with
  | base => rfl
  | succ last hle ih =>
      have hbefore := ih fun i hi hlt => h i hi (by omega)
      rw [← hbefore]
      cases hstep : steps[last]? with
      | none => rw [storeAt_past hstep]
      | some step =>
          have hproper := (storeAt_sound hmade hw hfits last).proper
          rw [storeAt_succ hstep]
          exact after_keptIn (hmade step (List.mem_of_getElem? hstep)) hproper
            fun place => h last hle (by omega) place step hstep

/-- Where no batch between its engine reads writes an entry of the queue, a read of it by when
each is due answers what the queue was as it first read. -/
theorem Reading.atOnce_due {q : ℕ} (hq : q < 256 ^ 16) (part : DuePart) (start : ℕ ×ₗ ℕ)
    (most : ℕ) (now : ℤ)
    (h : ∀ n i, r.at' 0 ≤ i → i < r.at' n →
      ∀ place, w.Leaves digest steps i (.held, .pair q place)) :
    r.AtOnce digest w steps (Due.read q part start most now) := by
  have hsound := Writer.storeAt_sound hmade hw hfits
  have hagrees : ∀ n, Due.Agrees q (w.storeAt digest steps (r.at' 0))
      (w.storeAt digest steps (r.at' n)) := by
    intro n
    have hle : r.at' 0 ≤ r.at' n := r.ordered (Nat.zero_le n)
    have hrecord : ∀ place, (w.storeAt digest steps (r.at' n)).records (.held, .pair q place) =
        (w.storeAt digest steps (r.at' 0)).records (.held, .pair q place) :=
      fun place => Writer.storeAt_unwritten rfl hle fun i hi hlt => h n i hi hlt place
    refine ⟨Writer.storeAt_keptIn hmade hw hfits hle (h n), ?_, fun place => ?_⟩
    · exact Due.region_congr (hsound _) (hsound _) rfl hq fun held => by
        rw [Store.holds, Store.holds, hrecord]
    · rw [(hsound _).proper.get, (hsound _).proper.get, hrecord]
  refine ⟨r.at' 0, (r.within 0).1, (r.within 0).2, ?_⟩
  have hsame := Due.read_alike part start most now
    (fun n => w.storeAt digest steps (r.at' n)) (fun _ => w.storeAt digest steps (r.at' 0))
    ⟨hagrees, rfl⟩
  rw [answer, Reads.on]
  rcases hsame with ⟨a, s', t', hrun, hrun', -⟩ | ⟨e, hrun, hrun'⟩
  · rw [hrun, hrun']
    rfl
  · rw [hrun, hrun']

/-- Where no batch writes a Message's place after it was found, its entry is read as it was
kept. -/
theorem Reading.atOnce_deadMessage {q message : ℕ}
    (h : ∀ sequence, (w.storeAt digest steps (r.at' 0)).records (.deadMessage, .pair q message) =
      some (.number sequence) →
      ∀ i, r.at' 0 ≤ i → i < r.at' 1 → w.Leaves digest steps i (.deadMessage, .pair q message)) :
    r.AtOnce digest w steps (Dead.readOne q message) := by
  have hsound := Writer.storeAt_sound hmade hw hfits
  have hread : ∀ n, (reads fun s => s.get (.deadMessage, .pair q message)).run
      (fun _ => w.storeAt digest steps n) = .ok ((w.storeAt digest steps n).records
        (.deadMessage, .pair q message), fun _ => w.storeAt digest steps n) :=
    fun n => run_reads_ok ((hsound n).proper.get _)
  have hfirst : (reads fun s => s.get (.deadMessage, .pair q message)).run
      (fun n => w.storeAt digest steps (r.at' n)) =
        .ok ((w.storeAt digest steps (r.at' 0)).records (.deadMessage, .pair q message),
          fun n => w.storeAt digest steps (r.at' (n + 1))) := by
    change ((w.storeAt digest steps (r.at' 0)).get _).map _ = _
    rw [(hsound _).proper.get]
    rfl
  cases hplace : (w.storeAt digest steps (r.at' 0)).records (.deadMessage, .pair q message) with
  | none =>
      refine ⟨r.at' 0, (r.within 0).1, (r.within 0).2, ?_⟩
      rw [answer, Reads.on, Dead.readOne, Decision.run_bind_ok hfirst,
        Decision.run_bind_ok (hread _), hplace]
      rfl
  | some content =>
      cases content with
      | number sequence =>
          -- its place is still the same as its entry is read: that is the moment
          refine ⟨r.at' 1, (r.within 1).1, (r.within 1).2, ?_⟩
          have hseen : Kind.seen (Kind.deadMessage, Key.pair q message).1 = true := rfl
          have hsame := Writer.storeAt_unwritten hseen (r.ordered (Nat.zero_le 1))
            (h sequence hplace)
          rw [answer, Reads.on, Dead.readOne, Decision.run_bind_ok hfirst,
            Decision.run_bind_ok (hread _), hsame, hplace]
          let g (s : Store) := s.get (.dead, .pair q sequence) >>= decoded (α := Dead)
          have hentry : (reads g).run (fun n => w.storeAt digest steps (r.at' (n + 1))) =
              (g (w.storeAt digest steps (r.at' 1))).map
                (·, fun n => w.storeAt digest steps (r.at' (n + 2))) := rfl
          have hentry' : (reads g).run (fun _ => w.storeAt digest steps (r.at' 1)) =
              (g (w.storeAt digest steps (r.at' 1))).map
                (·, fun _ => w.storeAt digest steps (r.at' 1)) := rfl
          cases hg : g (w.storeAt digest steps (r.at' 1)) with
          | error e =>
              rw [hg] at hentry hentry'
              simp only [Decision.run_bind_error hentry, Decision.run_bind_error hentry', g]
          | ok found =>
              rw [hg] at hentry hentry'
              simp only [Decision.run_bind_ok hentry, Decision.run_bind_ok hentry', g]
              cases found <;> rfl
      | _ =>
          refine ⟨r.at' 0, (r.within 0).1, (r.within 0).2, ?_⟩
          rw [answer, Reads.on, Dead.readOne, Decision.run_bind_ok hfirst,
            Decision.run_bind_ok (hread _), hplace]
          rfl

/-- A read of a queue answers as it does on one store the database was between its start and its
end, where no batch disturbs it. -/
theorem reads_at_once (asked : QueueRead) (now : ℤ)
    (hq : ∀ q part start most, asked = .due q part start most → q < 256 ^ 16)
    (h : asked.Undisturbed r digest w steps) : r.AtOnce digest w steps (asked.read now) := by
  cases asked with
  | held q start most =>
      refine Reading.AtOnce.map ?_ _
      exact Reading.AtOnce.map (Reading.atOnce_reads _) fun page => (⟨page, now⟩ : HeldQueue)
  | failed q start most => exact Reading.AtOnce.map (Reading.atOnce_reads _) _
  | dead q start most => exact Reading.AtOnce.map (Reading.atOnce_reads _) _
  | due q part start most =>
      exact (Reading.atOnce_due hmade hw hfits (hq q part start most rfl) part start most now h).map
        _
  | deadMessage q message => exact (Reading.atOnce_deadMessage hmade hw hfits h).map _

end AtOnce

/-- A Message published between two reads of another queue does not disturb it. -/
def heldThenAnother : List Step :=
  let at' (now : ℤ) (op : Op) : Step := .group ⟨now, 3, .asWritten, none⟩ [op]
  [at' 0 (.publish { message := { message := 1 }, journeys := [{ journey := 2 }],
                     held := [{ queue := 5, journey := 2 }], audit := { id := 9 } }),
    at' 1 (.audit { id := 10 })]

/-- A read that begins once one step is done, and whose engine reads from `first` on find two
done. -/
def amid (first : ℕ) : Reading where
  started := 1
  ended := 2
  at' n := if n < first then 1 else 2
  ordered := by
    intro m n hle
    simp only
    split <;> split <;> omega
  within n := by
    split <;> omega

theorem reads_at_once_amid :
    (amid 3).AtOnce (fun _ => []) Writer.fresh heldThenAnother
      (QueueRead.read (.due 5 .due (toLex (0, 0)) 10) 100) := by
  refine reads_at_once (by simp [heldThenAnother, Step.Made, Op.Made]) rfl (by decide +kernel) _ 100
    (fun q part start most h => ?_) fun n i hfirst hlast place step hstep ruling hr c hc => ?_
  · cases h
    decide
  · have hi : i = 1 := by
      simp only [amid] at hfirst hlast
      split at hlast <;> split at hfirst <;> omega
    subst hi
    have hkinds : ∀ step, heldThenAnother[1]? = some step →
        ∀ ruling ∈ (Writer.fresh.run (fun _ => []) (heldThenAnother.take 1)).rulings
          (fun _ => []) step, ∀ c ∈ ruling.stage.changes, c.kind ≠ .held := by
      rintro _ ⟨⟩
      decide +kernel
    intro hplace
    exact hkinds step hstep ruling hr c hc (congrArg Prod.fst hplace)

/-- A Journey held, and moved to the end of its queue. -/
def heldThenRequeued : List Step :=
  let at' (now : ℤ) (op : Op) : Step := .group ⟨now, 3, .asWritten, none⟩ [op]
  [at' 0 (.publish { message := { message := 1 }, journeys := [{ journey := 2 }],
                     held := [{ queue := 5, journey := 2 }], audit := { id := 9 },
                     claims := [⟨2, "first", 7, 0, 0⟩], leaseNanos := 10 }),
    at' 1 (.handOn { claim := ⟨2, "first", 7, 0, 12884901889⟩,
                     result := { journey := 2, facts := { state := "ready" } },
                     requeued := [5] })]

/-- An entry moved to the end of its queue between its place and it is read is missing, and a
Message replayed between its place and its entry is read was never kept. -/
theorem reads_torn :
    (amid 3).answer (fun _ => []) Writer.fresh heldThenRequeued
        (QueueRead.read (.due 5 .due (toLex (0, 0)) 10) 100) =
      .ok (.due { held := [], retrying := 0, nextDueUnixNanos := none, readUnixNanos := 100 }) ∧
    ¬(amid 3).AtOnce (fun _ => []) Writer.fresh heldThenRequeued
        (QueueRead.read (.due 5 .due (toLex (0, 0)) 10) 100) ∧
    (amid 1).answer (fun _ => []) Writer.fresh deadThenReplayed
        (QueueRead.read (.deadMessage 5 1) 100) = .ok (.deadMessage .never) ∧
    ¬(amid 1).AtOnce (fun _ => []) Writer.fresh deadThenReplayed
        (QueueRead.read (.deadMessage 5 1) 100) := by
  have htimes : ∀ {first n : ℕ}, (amid first).started ≤ n → n ≤ (amid first).ended →
      n = 1 ∨ n = 2 := by
    intro first n hstarted hended
    simp only [amid] at hstarted hended
    omega
  refine ⟨by decide +kernel, ?_, by decide +kernel, ?_⟩
  · rintro ⟨n, hstarted, hended, h⟩
    rcases htimes hstarted hended with rfl | rfl <;> revert h <;> decide +kernel
  · rintro ⟨n, hstarted, hended, h⟩
    rcases htimes hstarted hended with rfl | rfl <;> revert h <;> decide +kernel

end XmipPersist
