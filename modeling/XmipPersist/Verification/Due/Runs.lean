import XmipPersist.Verification.Due.Settled

/-! # Every queue's due places, over a run

Each batch settles the queues it wrote an entry of, and leaves the others as they were. So in
every store a run reaches, every queue's due places tell of its entries.
-/

namespace XmipPersist

variable {digest : Publication → Bytes}

/-! ## Settling -/

namespace Due

section Settle

variable {s : Store} {b b' : Batch} {q : ℕ}

/-- Finding a queue's due places again reads its entries and its places, and no due places. -/
theorem foundAgain_congr (h : Adds [.duePlaces] b b') (touched : List ℕ) (before : DuePlaces) :
    foundAgain s b' q touched before = foundAgain s b q touched before := by
  have htallied : ∀ tally places, tallied b' q tally places = tallied b q tally places := by
    intro tally places
    induction places generalizing tally with
    | nil => rfl
    | cons n places ih =>
        have hwritten := h.written_of_kind (p := (.held, .pair q n)) (by simp)
        simp only [tallied, h.below, hwritten, ih]
  have hnext : nextPlace b' q = nextPlace b q := by
    rw [nextPlace, nextPlace, h.read_of_kind (by simp)]
  have hfresh : ∀ first, freshAt b' q first = freshAt b q first := by
    intro first
    cases first with
    | none => exact hnext
    | some first => rfl
  simp only [foundAgain, htallied, hfresh]

theorem settleQueue_kept {touched : List ℕ} (h : settleQueue s b q touched = .ok b') :
    ∃ before places, kept b q = .ok before ∧ foundAgain s b q touched before = .ok places ∧
      kept b' q = .ok places ∧ ∀ r ≠ q, kept b' r = kept b r := by
  simp only [settleQueue, bind_eq_ok] at h
  obtain ⟨before, hbefore, places, hplaces, h⟩ := h
  refine ⟨before, places, hbefore, hplaces, ?_⟩
  by_cases hsame : places = before
  · rw [if_neg (by simpa using hsame)] at h
    cases h
    exact ⟨by rw [hsame]; exact hbefore, fun _ _ => rfl⟩
  · rw [if_pos hsame] at h
    cases h
    constructor
    · rw [kept, Batch.read_put_self]
      rfl
    · intro r hr
      rw [kept, kept, Batch.read_put_of_ne b _ (by simpa using Ne.symm hr)]

theorem settleEach_kept {places : List (ℕ × ℕ)} {queues : List ℕ} (hnodup : queues.Nodup)
    (h : settleEach s places b queues = .ok b') :
    (∀ q ∈ queues, ∃ before kept', kept b q = .ok before ∧
      foundAgain s b q (placesOf q places) before = .ok kept' ∧ kept b' q = .ok kept') ∧
    ∀ q ∉ queues, kept b' q = kept b q := by
  induction queues generalizing b with
  | nil =>
      cases h
      simp
  | cons r queues ih =>
      obtain ⟨hr, hnodup⟩ := List.nodup_cons.mp hnodup
      simp only [settleEach, bind_eq_ok] at h
      obtain ⟨b₁, h₁, h₂⟩ := h
      obtain ⟨before, kept', hbefore, hagain, hkept, hothers⟩ := settleQueue_kept h₁
      obtain ⟨hqueues, hrest⟩ := ih hnodup h₂
      constructor
      · intro q hq
        rcases List.mem_cons.mp hq with rfl | hmem
        · exact ⟨before, kept', hbefore, hagain, by rw [hrest q hr, hkept]⟩
        · have hne : q ≠ r := by
            rintro rfl
            exact hr hmem
          obtain ⟨before, kept', hbefore, hagain, hkept⟩ := hqueues q hmem
          rw [hothers q hne] at hbefore
          rw [foundAgain_congr (settleQueue_adds h₁)] at hagain
          exact ⟨before, kept', hbefore, hagain, hkept⟩
      · intro q hq
        have hne : q ≠ r := fun h => hq (by simp [h])
        rw [hrest q (fun h => hq (by simp [h])), hothers q hne]

theorem mem_queuesOf {places : List (ℕ × ℕ)} : q ∈ queuesOf places ↔ ∃ n, (q, n) ∈ places := by
  have hfold : ∀ queues : List ℕ, q ∈ queues.foldr OrderedSet.insertInto [] ↔ q ∈ queues := by
    intro queues
    induction queues with
    | nil => simp
    | cons r queues ih => rw [List.foldr_cons, OrderedSet.mem_insertInto, ih, List.mem_cons]
  rw [queuesOf, hfold]
  simp

theorem queuesOf_nodup (places : List (ℕ × ℕ)) : (queuesOf places).Nodup := by
  have hasc : ∀ queues : List ℕ,
      (queues.foldr OrderedSet.insertInto []).Pairwise (· < ·) := by
    intro queues
    induction queues with
    | nil => exact .nil
    | cons r queues ih => exact OrderedSet.insertInto_ascending r ih
  exact (hasc _).imp fun h => h.ne

theorem mem_heldPlaces {changes : List Change} {n : ℕ} :
    (q, n) ∈ heldPlaces changes ↔ written changes (.held, .pair q n) ≠ none := by
  rw [heldPlaces, List.mem_dedup, List.mem_filterMap, ne_eq, written_eq_none]
  push Not
  refine exists_congr fun c => and_congr_right fun _ => ?_
  obtain ⟨kind, key, value⟩ := c
  cases kind <;> cases key <;> simp [heldPlace, Change.place]

theorem mem_placesOf {places : List (ℕ × ℕ)} {n : ℕ} :
    n ∈ placesOf q places ↔ (q, n) ∈ places := by
  simp [placesOf]

theorem placesOf_nodup {places : List (ℕ × ℕ)} (h : places.Nodup) : (placesOf q places).Nodup := by
  refine List.Nodup.map_on (fun x hx y hy heq => ?_) (h.filter _)
  have hx' : x.1 = q := by simpa using (List.mem_filter.mp hx).2
  have hy' : y.1 = q := by simpa using (List.mem_filter.mp hy).2
  exact Prod.ext (hx'.trans hy'.symm) heq

end Settle

end Due

/-! ## A group written -/

/-- A written group keeps each queue's due places as it settled them. -/
theorem laid_kept {w : Writer} {m : Moment} {decided : Batch} {s : Store}
    (h : w.laid m decided = .ok s) (hw : w.store.Proper) (hs : s.Proper)
    (hbelow : decided.below = w.store.get) :
    ∃ settled, Due.settle w.store m.order decided = .ok settled ∧
      ∀ q, Due.keptIn q s = Due.kept settled q := by
  unfold Writer.laid at h
  split at h
  · next hidle =>
      cases h
      refine ⟨decided, ?_, fun q => ?_⟩
      · have hplaces : m.order.arrange (Due.heldPlaces decided.changes) = [] := by
          rw [hidle.1]
          exact List.perm_nil.mp (m.order.perm [])
        rw [Due.settle, hplaces]
        rfl
      · rw [Due.keptIn, Due.kept, Batch.read, hidle.1, written_nil, hbelow]
  · simp only [bind_eq_ok] at h
    obtain ⟨⟨cs, es⟩, hl, h⟩ := h
    cases hr : m.refused with
    | some error => simp [hr, throw, throwThe, MonadExceptOf.throw] at h
    | none =>
        simp only [hr, pure, Except.pure, Except.ok.injEq] at h
        obtain ⟨settled, hsettle, hwritten⟩ := laying_settled hl
        refine ⟨settled, hsettle, fun q => ?_⟩
        have hplace := hwritten (.duePlaces, .id q) rfl (by simp)
        have hread : s.get (.duePlaces, .id q) = settled.read (.duePlaces, .id q) := by
          rw [hs.get, Batch.read, (Due.settle_adds hsettle).below, hbelow, hw.get, ← h]
          simp only [Store.applyIndexed, hplace]
          cases written settled.changes (.duePlaces, .id q) <;> rfl
        rw [Due.keptIn, Due.kept, hread]

/-- What a group decided writes no due places. -/
theorem decideEach_settles {m : Moment} {b : Batch} {ops : List Op} (hmade : ∀ op ∈ ops, op.Made)
    (hb : ∀ c ∈ b.changes, c.kind ≠ .duePlaces) :
    ∀ c ∈ (decideEach digest m b ops).2.changes, c.kind ≠ .duePlaces := by
  intro c hc
  rcases decideEach_changes hc with hc | ⟨r, hr, hc⟩
  · exact hb c hc
  · have hholds := rulings_hold hmade r hr
    obtain ⟨added, he, hadded⟩ := hholds.adds.changes
    have hmem : c ∈ added := by
      rw [he] at hc
      simpa [Batch.staged] using hc
    have hkind := (hadded c hmem).2
    intro hdue
    rw [hdue] at hkind
    cases hop : r.op with
    | put kind key value =>
        have hput := hholds.made
        rw [hop] at hkind hput
        rcases hput with ⟨_, rfl, _⟩ | ⟨_, rfl, _⟩ <;> simp [Op.kinds] at hkind
    | _ =>
        rw [hop] at hkind
        revert hkind
        simp only [Op.kinds]
        decide

/-- Each queue's due places tell of its entries. -/
def Store.Settled (s : Store) : Prop :=
  ∀ q < 256 ^ 16, ∃ places, Due.keptIn q s = .ok places ∧
    Due.Tells (View.marks s.records q) (s.queue .held q).next places

theorem Store.empty_settled : Store.empty.Settled := fun _ _ => ⟨{}, rfl, Due.Tells.nothing⟩

section Settled

variable {numbers : Set ℕ}

/-- Nothing is held at a place not given. -/
theorem Store.Sound.marks_past {s : Store} (hs : s.Sound numbers) (q : ℕ) :
    ∀ n, (s.queue .held q).next ≤ n → View.marks s.records q n = none := by
  intro n hn
  rw [View.marks, Option.bind_eq_none_iff]
  intro content hcontent
  have hbounds := (hs.orderly .held q).bounds n content hcontent
  omega

/-- A decided batch has each queue's due places as the store kept them. -/
theorem kept_decided {s : Store} {decided : Batch} (hbelow : decided.below = s.get)
    (hdue : ∀ c ∈ decided.changes, c.kind ≠ .duePlaces) (q : ℕ) :
    Due.kept decided q = Due.keptIn q s := by
  have hnone : written decided.changes (.duePlaces, .id q) = none := by
    rw [written_eq_none]
    rintro c hc hplace
    exact hdue c hc (congrArg Prod.fst hplace)
  rw [Due.kept, Due.keptIn, Batch.read, hnone, hbelow]

/-- A queue no entry of which is written keeps its due places. -/
theorem laid_unsettled {w : Writer} {m : Moment} {decided : Batch} {s : Store}
    (h : w.laid m decided = .ok s) (hw : w.store.Proper) (hs : s.Proper)
    (hbelow : decided.below = w.store.get) (hdue : ∀ c ∈ decided.changes, c.kind ≠ .duePlaces)
    {q : ℕ} (hq : ∀ n, written decided.changes (.held, .pair q n) = none) :
    Due.keptIn q s = Due.keptIn q w.store := by
  obtain ⟨settled, hsettle, hkept⟩ := laid_kept h hw hs hbelow
  have hothers := (Due.settleEach_kept (Due.queuesOf_nodup _) hsettle).2
  have hnot : q ∉ Due.queuesOf (m.order.arrange (Due.heldPlaces decided.changes)) := by
    intro hmem
    obtain ⟨n, hn⟩ := Due.mem_queuesOf.mp hmem
    rw [(m.order.perm _).mem_iff, Due.mem_heldPlaces] at hn
    exact hn (hq n)
  rw [hkept, hothers q hnot, kept_decided hbelow hdue]

theorem laid_settled {w : Writer} {m : Moment} {decided : Batch} {s : Store}
    (h : w.laid m decided = .ok s) (hw : w.store.Sound numbers) (hs : s.Sound numbers)
    (hn : Due.index.number ∈ numbers) (hsettled : w.store.Settled)
    (horders : Orders (Batch.over' w.store w.next) decided)
    (hdue : ∀ c ∈ decided.changes, c.kind ≠ .duePlaces) : s.Settled := by
  have hbelow : decided.below = w.store.get := horders.below
  obtain ⟨settled, hsettle, hkept⟩ := laid_kept h hw.proper hs.proper hbelow
  have hview : s.view = decided.view := laid_view h hw.proper hbelow
  have hqueues := (Due.settleEach_kept (Due.queuesOf_nodup _) hsettle).1
  have hplaces : ∀ q n, (q, n) ∈ m.order.arrange (Due.heldPlaces decided.changes) ↔
      written decided.changes (.held, .pair q n) ≠ none := by
    intro q n
    rw [(m.order.perm _).mem_iff, Due.mem_heldPlaces]
  intro q hq
  have hmarks : ∀ n, decided.view.marks q n = View.marks s.records q n := by
    intro n
    rw [← hview, Store.marks_view]
  have hnext' : (decided.view.queue .held q).next = (s.queue .held q).next := by
    rw [← hview, Store.queue_next]
  have hnext : (w.store.queue .held q).next ≤ (s.queue .held q).next := by
    have hlater := (horders.later .held q).next
    rwa [hw.proper.view_over, hnext', Store.queue_next] at hlater
  obtain ⟨before, hread, htells⟩ := hsettled q hq
  by_cases hmem : q ∈ Due.queuesOf (m.order.arrange (Due.heldPlaces decided.changes))
  · obtain ⟨before', places, hread', hagain, hplacesKept⟩ := hqueues q hmem
    obtain rfl : before = before' :=
      Except.ok.inj (by rw [← hread, ← hread', kept_decided hbelow hdue])
    have hnodup : (m.order.arrange (Due.heldPlaces decided.changes)).Nodup :=
      (m.order.perm _).nodup_iff.mpr (List.nodup_dedup _)
    obtain ⟨places', hagain', htells'⟩ := Due.foundAgain_ok (Due.placesOf_nodup hnodup)
      (fun n => by rw [Due.mem_placesOf, hplaces]) (hw.marks_past q)
      (fun n hn => by rw [hmarks]; exact hs.marks_past q n hn) hw hn hq horders.inOrder.proper
      hbelow htells hnext' hnext (hs.next_fits .held q)
      (fun n mark hmark => (Due.marks_fit hs hn (by rw [← hmarks]; exact hmark)).1)
    obtain rfl : places' = places := Except.ok.inj (hagain'.symm.trans hagain)
    refine ⟨places', by rw [hkept, hplacesKept], ?_⟩
    rwa [funext hmarks] at htells'
  · have hnone : ∀ n, written decided.changes (.held, .pair q n) = none := by
      intro n
      by_contra hwritten
      exact hmem (Due.mem_queuesOf.mpr ⟨n, (hplaces q n).mpr hwritten⟩)
    refine ⟨before, by rw [laid_unsettled h hw.proper hs.proper hbelow hdue hnone, hread], ?_⟩
    have hsame : View.marks s.records q = View.marks w.store.records q := by
      funext n
      rw [← hmarks, Due.marks_unwritten hw.proper hbelow (hnone n)]
    rw [hsame]
    have hpast := Due.sum_range_past (Finset.range_mono hnext) (hw.marks_past q)
    exact { htells with retrying := htells.retrying.trans hpast }

/-! ## Over a run -/

/-- A Stream's chunks and its record are in no queue. -/
theorem Writer.deferred_settled {w : Writer} {cs : List Change} (hw : w.store.Settled)
    (hkinds : ∀ c ∈ cs, c.kind ∈ [Kind.chunk, .stream]) : (w.deferred cs).store.Settled := by
  have hsame : ∀ p : Place, p.1 ∉ [Kind.chunk, .stream] →
      (w.deferred cs).store.records p = w.store.records p := by
    intro p hp
    have hnone : written cs p = none := by
      rw [written_eq_none]
      rintro c hc rfl
      exact hp (hkinds c hc)
    simp [Writer.deferred, Store.applyIndexed, hnone]
  have hget : ∀ q, (w.deferred cs).store.get (.duePlaces, .id q) =
      w.store.get (.duePlaces, .id q) := by
    intro q
    rw [Store.get, Store.get, hsame _ (by simp)]
  intro q hq
  obtain ⟨places, hread, htells⟩ := hw q hq
  have hmarks : View.marks (w.deferred cs).store.records q = View.marks w.store.records q := by
    funext n
    rw [View.marks, View.marks, hsame _ (by simp)]
  have hnext : ((w.deferred cs).store.queue .held q).next = (w.store.queue .held q).next := by
    simp only [Store.queue, View.queue, View.placesOf]
    rw [hsame _ (by simp [Queues.kinds, Hold.kinds])]
  refine ⟨places, ?_, by rw [hmarks, hnext]; exact htells⟩
  rw [Due.keptIn, hget]
  exact hread

theorem Writer.after_settled {w : Writer} {step : Step} (hmade : step.Made)
    (hn : Due.index.number ∈ numbers) (hw : w.store.Sound numbers) (hsettled : w.store.Settled)
    (hfits : ∀ r ∈ w.rulings digest step, ∀ c ∈ r.stage.changes, c.Fits (columnsOf numbers)) :
    (w.after digest step).store.Settled := by
  have hsound := after_sound hmade hw hfits
  cases step with
  | group m ops =>
      simp only [after, committed] at hsound ⊢
      cases hl : w.laid m (decideEach digest m (Batch.over' w.store w.next) ops).2 with
      | error e => exact hsettled
      | ok store =>
          rw [hl] at hsound
          exact laid_settled hl hw hsound hn hsettled (decideEach_orders hmade (hw.over' w.next))
            (decideEach_settles hmade (by simp [Batch.over']))
  | chunk chunk => exact deferred_settled hsettled (by simp [chunkChange])
  | stream last stream now =>
      exact deferred_settled hsettled (by simp [streamChanges, chunkChange])
  | restart =>
      simp only [after, start]
      cases w.store.get (.sequence, .next) >>= numbered <;> exact hsettled

/-- In every store a run reaches, each queue's due places tell of its entries. -/
theorem Writer.run_settled {w : Writer} {steps : List Step} (hmade : ∀ s ∈ steps, s.Made)
    (hn : Due.index.number ∈ numbers) (hw : w.store.Sound numbers) (hsettled : w.store.Settled)
    (hfits : w.Fits digest (columnsOf numbers) steps) :
    (w.run digest steps).store.Settled := by
  induction steps generalizing w with
  | nil => exact hsettled
  | cons step steps ih =>
      have hstep : ∀ r ∈ w.rulings digest step, ∀ c ∈ r.stage.changes,
          c.Fits (columnsOf numbers) := fun r hr => hfits r (List.mem_append_left _ hr)
      exact ih (fun s hs => hmade s (by simp [hs])) (after_sound (hmade step (by simp)) hw hstep)
        (after_settled (hmade step (by simp)) hn hw hsettled hstep)
        fun r hr => hfits r (List.mem_append_right _ hr)

end Settled

end XmipPersist
