import XmipPersist.Verification.Queue.Hall

/-! # The queues over a run

A run leaves in its queues the lines its operations come to, one after another, and a page of a
queue reads the first of its line. Nobody comes to stand before another but by that other one being
put last.
-/

namespace XmipPersist

variable {digest : Publication → Bytes}

def Hall.empty : Hall := ⟨⟨fun _ => none, fun _ => none, ∅⟩, .empty⟩

theorem Store.empty_hall : Store.empty.view.hall = Hall.empty := by
  have hline : ∀ (k : Queues) q, Store.empty.view.line k q = [] := by
    intro k q
    have hnext : (Store.empty.view.queue k q).next = 0 := by cases k <;> rfl
    have hheld : (Store.empty.view.queue k q).held = ∅ := by
      rw [Numbered.held, hnext, Finset.range_zero, Finset.filter_empty]
    simp [View.line, Numbered.line, Numbered.from', hheld]
  have hseats : Store.empty.view.seats = ∅ := by
    ext ⟨q, j⟩
    simp only [View.mem_seats, Set.mem_empty_iff_false, iff_false, not_not]
    rfl
  have hlines : Store.empty.view.lines = .empty := by
    have hreplayed :
        {p : ℕ × ℕ | (Store.empty.view.queue .dead p.1).index p.2 = some none} = ∅ := by
      ext p
      simp only [Set.mem_ofPred_eq, Set.mem_empty_iff_false, iff_false]
      intro hgone
      cases hgone
    rw [View.lines, hreplayed, Lines.empty]
    simp only [Lines.mk.injEq, and_true]
    exact ⟨funext (hline .held), funext (hline .failed), funext (hline .dead)⟩
  rw [View.hall, hlines, View.book, hseats]
  rfl

/-! ## The operations that move the hall -/

open Classical in
/-- Those of some operations that came out that moved the hall, in their order. -/
noncomputable def Ruling.moving (rs : List Ruling) : List Op :=
  (rs.filter fun r => r.op.Moves r.before.staged).map Ruling.op

namespace Writer

/-- The operations of a run that moved the hall, in their order. -/
noncomputable def moved (digest : Publication → Bytes) (w : Writer) (steps : List Step) : List Op :=
  Ruling.moving (w.ruled digest steps)

variable {w : Writer} {steps : List Step}

open Classical in
theorem run_hall (hmade : ∀ s ∈ steps, s.Made) (hw : w.store.Proper) (hq : w.store.view.Queued) :
    (w.run digest steps).store.view.Queued ∧
      (w.run digest steps).store.view.hall =
        (w.moved digest steps).foldl Op.does w.store.view.hall := by
  let stands (rs : List Ruling) (v : View) : Prop :=
    v.Queued ∧ v.hall = (Ruling.moving rs).foldl Op.does w.store.view.hall
  have hstart : stands [] w.store.view := ⟨hq, rfl⟩
  have hrun : stands ([] ++ w.ruled digest steps) (w.run digest steps).store.view := by
    refine run_keeps hmade hw hstart fun before r after _ hr hbefore hstands => ?_
    obtain ⟨hqueued, hhall⟩ := hstands
    have horder : r.before.staged.InOrder :=
      ⟨hbefore, by rw [Batch.view_staged]; exact hqueued⟩
    refine ⟨(Op.decide_ordering hr.made r.moment _ _ _ hr.ran horder).inOrder.queued, ?_⟩
    have hdone := Op.decide_hall hr.made horder hr.ran
    rw [Batch.view_staged] at hdone
    rw [hdone, List.nil_append, Ruling.moving, List.filter_append, List.map_append,
      List.foldl_append]
    rw [List.nil_append] at hhall
    by_cases hmoves : r.op.Moves r.before.staged
    · simp [hmoves, hhall, Ruling.moving]
    · simp [hmoves, hhall, Ruling.moving]
  exact hrun

end Writer

/-! ## In line -/

/-- A store whose queues are the lines of a hall, and are read as they are. -/
structure InLines (s : Store) (told : Hall) : Prop where
  hall : s.view.hall = told
  page : ∀ (k : Queues) (q : ℕ), q < 256 ^ 16 → ∀ most, ∃ places entries,
    Queue.page k.kinds q 0 most s = .ok (places, entries) ∧
      entries.map Content.about = (told.lines.of k q).take most

/-- Over every run, the queues are the lines its operations come to, whatever places they were
given, and a page read from the start of one reads the first of its line. -/
theorem stood_in_line {steps : List Step} (hmade : ∀ s ∈ steps, s.Made)
    (hfits : Writer.fresh.Fits digest {.queue, .sequence} steps) :
    InLines (Writer.fresh.run digest steps).store
      ((Writer.fresh.moved digest steps).foldl Op.does .empty) := by
  have hproper : Writer.fresh.store.Proper := Store.empty_proper
  have hempty : Writer.fresh.store.view.Queued := (Store.empty_sound ∅).queued
  obtain ⟨-, hhall⟩ := @Writer.run_hall digest Writer.fresh steps hmade hproper hempty
  have hfresh : Writer.fresh.store.view.hall = Hall.empty := Store.empty_hall
  rw [hfresh] at hhall
  refine ⟨hhall, fun k q hq most => ?_⟩
  let s := (Writer.fresh.run digest steps).store
  have hsound : s.Sound {k.kinds.index.number} :=
    Writer.run_sound hmade (Store.empty_sound _) (hfits.mono k.columns_subset)
  have hline : (s.queue k q).line Content.about = s.view.line k q := by
    rw [View.line, Store.queue_bare, Numbered.line_map Content.about_bare]
  refine ⟨_, _, Queue.page_ok hsound rfl hq (Nat.zero_le _) most, ?_⟩
  rw [List.map_filterMap, Numbered.line_page (hsound.orderly k q), hline, ← View.lines_of, ← hhall]
  rfl

/-! Two Journeys take their places in a queue, and the first is handed on and sent to its end. -/

def heldIn (journey : ℕ) : Publication where
  message := { message := journey }
  journeys := [{ journey }]
  held := [{ queue := 5, journey }]
  audit := { id := journey }
  claims := [{ journey, token := 7 }]
  leaseNanos := 100

def sentToTheEnd (journey : ℕ) : HandOn where
  claim := { journey, token := 7, fence := 3 * 2 ^ 32 + 1 }
  result := { journey }
  requeued := [5]

def twoHeld : List Step :=
  [.group ⟨0, 3, .asWritten, none⟩ [.publish (heldIn 1), .publish (heldIn 2)]]

def firstSentToTheEnd : List Step := [.group ⟨1, 3, .asWritten, none⟩ [.handOn (sentToTheEnd 1)]]

theorem stood_in_line_sent :
    InLines (Writer.fresh.run (fun _ => []) (twoHeld ++ firstSentToTheEnd)).store
      ((Writer.fresh.moved (fun _ => []) (twoHeld ++ firstSentToTheEnd)).foldl Op.does .empty) :=
  stood_in_line (by simp [twoHeld, firstSentToTheEnd, Step.Made, Op.Made]) (by decide +kernel)

/-- The second Journey's place is the first then. -/
example : [1, 2].map ((Writer.fresh.run (fun _ => [])
    (twoHeld ++ firstSentToTheEnd)).store.view.placeOf 5) = [some 2, some 1] := by decide +kernel

/-! ## Nobody is overtaken -/

/-- Whether an operation puts a Journey last in a queue, as it places it or sends it to the end. -/
def HandOn.PutsLast (asked : HandOn) (queue journey : ℕ) : Prop :=
  (queue, journey) ∈ taken asked.queued ∨ queue ∈ asked.requeued ∧ asked.claim.journey = journey

def Op.PutsLast (queue journey : ℕ) : Op → Prop
  | .publish asked => (queue, journey) ∈ taken asked.held
  | .replay asked => (queue, journey) ∈ taken asked.held
  | .handOn asked => asked.PutsLast queue journey
  | .turn asked => asked.handOn.PutsLast queue journey
  | _ => False

/-- Whether one Journey's place in a queue is before another's. -/
def View.Ahead (v : View) (queue first second : ℕ) : Prop :=
  ∃ m n, v.placeOf queue first = some m ∧ v.placeOf queue second = some n ∧ m < n

theorem View.ahead_iff {v : View} (hv : v.Queued) (queue first second : ℕ) :
    v.Ahead queue first second ↔ Line.Before (v.lines.held queue) first second := by
  have hline : Line.Before (v.lines.held queue) first second ↔ ∃ m n,
      (v.queue .held queue).index first = some (some m) ∧
        (v.queue .held queue).index second = some (some n) ∧ m < n :=
    Numbered.before_line (hv .held queue)
  simp only [Ahead, placeOf_index hv, Option.join_eq_some_iff, hline]

section Overtaken

variable {queue journey other : ℕ}

namespace Lines

variable {lines : Lines}

theorem before_join {kept : Hold} (hne : (queue, journey) ≠ (kept.queue, kept.journey))
    (h : Line.Before ((lines.join kept).held queue) other journey) :
    Line.Before (lines.held queue) other journey := by
  by_cases hq : queue = kept.queue
  · subst hq
    rw [join, held_set] at h
    exact h.of_join fun hsame => hne (by rw [hsame])
  · simpa [join, set, hq] using h

theorem before_toTheEnd {queue' journey' : ℕ} (hne : ¬(queue' = queue ∧ journey' = journey))
    (h : Line.Before ((lines.toTheEnd queue' journey').held queue) other journey) :
    Line.Before (lines.held queue) other journey := by
  by_cases hq : queue = queue'
  · subst hq
    rw [toTheEnd, held_set] at h
    exact h.of_toTheEnd fun hsame => hne ⟨rfl, hsame⟩
  · simpa [toTheEnd, set, hq] using h

theorem held_enter (queue journey : ℕ) : (lines.enter queue journey).held = lines.held := by
  unfold enter
  split <;> rfl

theorem held_keep (dead : DeadMessage) : (lines.keep dead).held = lines.held := by
  unfold keep
  split <;> rfl

theorem held_clears (queues : List ℕ) (journey : ℕ) :
    (queues.foldl (fun lines queue => lines.clear queue journey) lines).held = lines.held := by
  induction queues generalizing lines with
  | nil => rfl
  | cons queue queues ih => exact ih

theorem before_joins {places : List Hold} (hnone : (queue, journey) ∉ taken places)
    (h : Line.Before ((places.foldl (fun lines kept => lines.join kept) lines).held queue) other
      journey) : Line.Before (lines.held queue) other journey := by
  induction places generalizing lines with
  | nil => exact h
  | cons kept places ih =>
      have hrest : (queue, journey) ∉ taken places := fun hin => hnone (List.mem_cons_of_mem _ hin)
      have hne : (queue, journey) ≠ (kept.queue, kept.journey) := fun hsame =>
        hnone (hsame ▸ List.mem_cons_self)
      exact before_join hne (ih hrest h)

theorem before_toTheEnds {queues : List ℕ} {journey' : ℕ}
    (hnone : ¬(queue ∈ queues ∧ journey' = journey))
    (h : Line.Before ((queues.foldl (fun lines queue => lines.toTheEnd queue journey') lines).held
      queue) other journey) : Line.Before (lines.held queue) other journey := by
  induction queues generalizing lines with
  | nil => exact h
  | cons first queues ih =>
      have hrest : ¬(queue ∈ queues ∧ journey' = journey) := fun hin =>
        hnone ⟨List.mem_cons_of_mem _ hin.1, hin.2⟩
      have hne : ¬(first = queue ∧ journey' = journey) := fun hsame =>
        hnone ⟨by simp [hsame.1], hsame.2⟩
      exact before_toTheEnd hne (ih hrest h)

end Lines

theorem Opening.before_lines {opening : Opening} {hall : Hall}
    (hnone : (queue, journey) ∉ taken opening.places)
    (h : Line.Before ((opening.lines hall).held queue) other journey) :
    Line.Before (hall.lines.held queue) other journey :=
  (Lines.before_joins hnone h).of_filter

theorem HandOn.before_lines {asked : HandOn} {hall : Hall}
    (hnone : ¬asked.PutsLast queue journey)
    (h : Line.Before ((asked.lines hall).held queue) other journey) :
    Line.Before (hall.lines.held queue) other journey := by
  have hqueued : (queue, journey) ∉ taken asked.opening.places := fun hin => hnone (.inl hin)
  have hrequeued : ¬(queue ∈ asked.requeued ∧ asked.claim.journey = journey) :=
    fun hin => hnone (.inr hin)
  rw [lines, Lines.held_clears] at h
  cases hfailed : asked.failed with
  | none =>
      rw [hfailed] at h
      exact Opening.before_lines hqueued (Lines.before_toTheEnds hrequeued h)
  | some failure =>
      rw [hfailed] at h
      simp only [Lines.held_enter] at h
      exact Opening.before_lines hqueued (Lines.before_toTheEnds hrequeued h)

/-- Nobody comes to stand before a Journey by an operation that does not put it last. -/
theorem Op.before_does {op : Op} {hall : Hall} (hnone : ¬op.PutsLast queue journey)
    (h : Line.Before ((op.does hall).lines.held queue) other journey) :
    Line.Before (hall.lines.held queue) other journey := by
  cases op with
  | publish asked =>
      have hplaces : (queue, journey) ∉ taken asked.opening.places := hnone
      cases hdead : asked.dead with
      | none =>
          simp only [does, Publication.lines, hdead] at h
          exact Opening.before_lines hplaces h
      | some dead =>
          simp only [does, Publication.lines, hdead, Lines.held_keep] at h
          exact Opening.before_lines hplaces h
  | replay asked =>
      have hplaces : (queue, journey) ∉ taken asked.opening.places := hnone
      let replayed : Hall := { hall with lines := hall.lines.replay asked.queue asked.message }
      have hopened : Line.Before ((asked.opening.lines replayed).held queue) other journey := h
      have hbefore : Line.Before (replayed.lines.held queue) other journey :=
        Opening.before_lines hplaces hopened
      exact hbefore
  | handOn asked => exact HandOn.before_lines hnone h
  | turn asked => exact HandOn.before_lines hnone h
  | put kind key value =>
      have hsame : (Op.does hall (.put kind key value)).lines = hall.lines := by
        unfold does
        split <;> first | rfl | simp_all
      rwa [hsame] at h
  | _ => exact h

/-- Whoever does not stand before a Journey in a queue never does later, until an operation puts
that Journey last: nobody is overtaken. -/
theorem never_overtaken {steps more : List Step} (hmade : ∀ s ∈ steps ++ more, s.Made)
    (hkept : ∀ op ∈ (Writer.fresh.run digest steps).moved digest more, ¬op.PutsLast queue journey)
    (hnot : ¬(Writer.fresh.run digest steps).store.view.Ahead queue other journey) :
    ¬(Writer.fresh.run digest (steps ++ more)).store.view.Ahead queue other journey := by
  have hsteps : ∀ s ∈ steps, s.Made := fun s hs => hmade s (by simp [hs])
  have hmore : ∀ s ∈ more, s.Made := fun s hs => hmade s (by simp [hs])
  have hproper : Writer.fresh.store.Proper := Store.empty_proper
  have hempty : Writer.fresh.store.view.Queued := (Store.empty_sound ∅).queued
  let w := Writer.fresh.run digest steps
  have hrun : Writer.fresh.run digest (steps ++ more) = w.run digest more := by
    simp [w, Writer.run]
  obtain ⟨hqueued, -⟩ := @Writer.run_hall digest Writer.fresh steps hsteps hproper hempty
  obtain ⟨hqueued', hhall⟩ := @Writer.run_hall digest w more hmore
    (Writer.run_proper hsteps hproper) hqueued
  rw [hrun, View.ahead_iff hqueued']
  rw [View.ahead_iff hqueued] at hnot
  have hlines : (w.run digest more).store.view.lines =
      ((w.moved digest more).foldl Op.does w.store.view.hall).lines := congrArg Hall.lines hhall
  rw [hlines]
  have hfold : ∀ (ops : List Op) (hall : Hall), (∀ op ∈ ops, ¬op.PutsLast queue journey) →
      Line.Before ((ops.foldl Op.does hall).lines.held queue) other journey →
        Line.Before (hall.lines.held queue) other journey := by
    intro ops
    induction ops with
    | nil => exact fun _ _ h => h
    | cons op ops ih =>
        intro hall hops h
        have hrest := ih (op.does hall) (fun op' hop => hops op' (by simp [hop])) h
        exact Op.before_does (hops op (by simp)) hrest
  exact fun hbefore => hnot (hfold _ _ hkept hbefore)

end Overtaken

def secondSentToTheEnd : List Step := [.group ⟨1, 3, .asWritten, none⟩ [.handOn (sentToTheEnd 2)]]

/-- The second Journey sent to the end comes not before the first. -/
theorem never_overtaken_second :
    ¬(Writer.fresh.run (fun _ => []) (twoHeld ++ secondSentToTheEnd)).store.view.Ahead 5 2 1 := by
  refine never_overtaken (by simp [twoHeld, secondSentToTheEnd, Step.Made, Op.Made])
    (fun op hop => ?_) ?_
  · have hops : ((Writer.fresh.run (fun _ => []) twoHeld).ruled (fun _ => [])
        secondSentToTheEnd).map Ruling.op = [.handOn (sentToTheEnd 2)] := by decide +kernel
    have hsent : op = .handOn (sentToTheEnd 2) := by
      obtain ⟨r, hr, hop⟩ := List.mem_map.mp hop
      have hmem := List.mem_map_of_mem (f := Ruling.op) (List.mem_of_mem_filter hr)
      rw [hops, List.mem_singleton] at hmem
      exact hop.symm.trans hmem
    rw [hsent]
    simp [Op.PutsLast, HandOn.PutsLast, sentToTheEnd, taken]
  · have hfirst : (Writer.fresh.run (fun _ => []) twoHeld).store.view.placeOf 5 1 = some 0 := by
      decide +kernel
    rintro ⟨m, n, -, hn, hlt⟩
    rw [hfirst] at hn
    cases hn
    exact Nat.not_lt_zero m hlt

end XmipPersist
