import XmipPersist.Verification.Claim.Repeat
import XmipPersist.Verification.Queue.Failures

/-! # The index of what failed, in every state of a run

In a run each of whose operations clears the Messages it moves out of the index of what failed,
the index of every queue is its Messages marked failed: one entry for each, at its place, counted.
-/

namespace XmipPersist

variable {digest : Publication → Bytes}

/-! ## What an operation moves and marks -/

namespace Origin

variable (q j : ℕ)

theorem count_moving (holder : ℕ) (move : Option Bool) (places : List Hold) :
    Moving q j (count holder move places) := by
  have hput : ∀ value : Option Content, Change.Proper ⟨.origin, .id holder, value⟩ →
      Moving q j (put .origin (.id holder) value) := fun value hvalue =>
    .of_writes (.put_one hvalue) fun k => by cases k <;> decide
  refine .bind (.reading _) fun found => .ite ?_ (hput _ trivial)
  exact .bind (.forM _ fun queue _ => Hold.letGoOf_moving _ _ _ _) fun _ => hput _ trivial

theorem counted_moving (record : JourneyRecord) (places : List Hold) :
    Moving q j (counted record places) := by
  have hfor : ∀ kept holder, Moving q j (countedFor kept holder places) := by
    rintro kept ⟨holder, isOpen⟩
    cases holder with
    | none => exact .pure _
    | some holder => exact .ite (count_moving _ _ _ _ _) (.pure _)
  exact .bind (.reading _) fun _ => .bind (hfor _ _) fun _ => hfor _ _

theorem counted_record_moving (record : JourneyRecord) (places : List Hold) :
    Moving q j (do
      counted record places
      putRecord .journey record.journey record) := by
  refine .bind (counted_moving _ _ _ _) fun _ => ?_
  exact .of_writes (.put_one rfl) fun k => by cases k <;> decide

end Origin

namespace HandOn

variable {b b' : Batch} {q j : ℕ}

theorem fails_marking (asked : HandOn) (now : ℤ) (q j : ℕ) : Marking q j (asked.fails now) := by
  unfold fails
  cases asked.failed with
  | none => exact .pure _
  | some failure => exact Failed.enter_marking _ _ _ _ _

theorem waiting_marking (asked : HandOn) (now : ℤ) (q j : ℕ) :
    Marking q j (asked.waiting now) := by
  unfold waiting
  cases asked.waits with
  | none => exact .pure _
  | some wait => exact Hold.wait_marking _ _ _ _ _

/-- What a hand-on writes before it marks anything. -/
def moves (asked : HandOn) : Deciding Unit := do
  Origin.counted asked.result asked.queued
  putRecord .journey asked.result.journey asked.result
  asked.messages.forM fun message => putRecord .message message.message message
  asked.next.forM fun next => do
    Origin.counted next asked.queued
    putRecord .journey next.journey next
  asked.leaves.forM fun queue => Hold.letGoOf queue asked.claim.journey
  asked.queued.forM Hold.keep
  asked.requeued.forM fun queue => Hold.toTheEnd queue asked.claim.journey

theorem writes_eq (asked : HandOn) (now : ℤ) : asked.writes now = (do
    asked.moves
    asked.fails now
    asked.cleared.forM fun queue => Failed.clear queue asked.claim.journey
    asked.waiting now) := by
  simp only [writes, moves, bind_assoc]

theorem moves_moving (asked : HandOn) (q j : ℕ) : Moving q j asked.moves := by
  have hmessage : ∀ message : MessageRecord, Moving q j
      (putRecord .message message.message message) := fun message =>
    .of_writes (.put_one rfl) fun k => by cases k <;> decide
  have hjourney : ∀ record : JourneyRecord, Moving q j
      (putRecord .journey record.journey record) := fun record =>
    .of_writes (.put_one rfl) fun k => by cases k <;> decide
  refine .bind (Origin.counted_moving _ _ _ _) fun _ => ?_
  refine .bind (hjourney _) fun _ => ?_
  refine .bind (.forM _ fun message _ => hmessage message) fun _ => ?_
  refine .bind (.forM _ fun next _ => Origin.counted_record_moving _ _ _ _) fun _ => ?_
  refine .bind (.forM _ fun _ _ => Hold.letGoOf_moving _ _ _ _) fun _ => ?_
  refine .bind (.forM _ fun _ _ => Hold.keep_moving _ _ _) fun _ => ?_
  exact .forM _ fun _ _ => Hold.toTheEnd_moving _ _ _ _

/-- A hand-on leaves a Message's index and mark agreeing, where what failed keeps its place or is
the hand-on's own and named in a queue whose index it leaves. -/
theorem writes_agrees {asked : HandOn} {now : ℤ} (hb : b.InOrder)
    (h : (asked.writes now).run b = .ok ((), b')) (hagree : b.view.Agrees q j)
    (hkept : b.view.failure q j ≠ none → b'.view.placeOf q j = b.view.placeOf q j ∨
      q ∈ asked.cleared ∧ asked.claim.journey = j) : b'.view.Agrees q j := by
  rw [writes_eq] at h
  obtain ⟨_, b₁, hmove, hrest⟩ := Decision.bind_ok_iff.mp h
  obtain ⟨_, b₂, hfails, hrest⟩ := Decision.bind_ok_iff.mp hrest
  obtain ⟨_, b₃, hclears, hwaits⟩ := Decision.bind_ok_iff.mp hrest
  have hmoved := moves_moving asked q j b _ b₁ hmove hb
  have hfailed := fails_marking asked now q j b₁ _ b₂ hfails hmoved.orders.inOrder
  have hclearing : Marking q j (asked.cleared.forM fun queue =>
      Failed.clear queue asked.claim.journey) :=
    .forM _ fun queue _ => Failed.clear_marking queue _ q j
  have hcleared := hclearing b₂ _ b₃ hclears hfailed.orders.inOrder
  have hwaited := waiting_marking asked now q j b₃ _ b' hwaits hcleared.orders.inOrder
  by_cases hown : q ∈ asked.cleared ∧ asked.claim.journey = j
  · obtain ⟨hqueue, rfl⟩ := hown
    exact hwaited.agrees (Failed.clear_each hqueue hfailed.orders.inOrder hclears)
  · have hmarked : b₁.view.Agrees q j := by
      refine hmoved.agrees hb hagree fun hin => ?_
      have hplace := (hkept hin).resolve_right hown
      rw [← hplace, hwaited.place, hcleared.place, hfailed.place]
    exact hwaited.agrees (hcleared.agrees (hfailed.agrees hmarked))

end HandOn

theorem HandOn.decide_agrees {asked : HandOn} {now : ℤ} {b b' : Batch} {yes : Bool} {q j : ℕ}
    (hb : b.InOrder) (h : (asked.decide now).run b = .ok (yes, b')) (hagree : b.view.Agrees q j)
    (hkept : b.view.failure q j ≠ none → b'.view.placeOf q j = b.view.placeOf q j ∨
      q ∈ asked.cleared ∧ asked.claim.journey = j) : b'.view.Agrees q j := by
  obtain ⟨found, hfound, hrest⟩ := readAs_bind_ok.mp h
  cases found with
  | none =>
      obtain ⟨-, rfl⟩ := pure_ok.mp hrest
      exact hagree
  | some stored =>
      obtain ⟨claim, standing⟩ := stored
      cases standing with
      | handedOn =>
          obtain ⟨-, rfl⟩ := pure_ok.mp hrest
          exact hagree
      | released =>
          obtain ⟨-, rfl⟩ := pure_ok.mp hrest
          exact hagree
      | held =>
          simp only at hrest
          split at hrest
          · obtain ⟨_, b₁, hwrites, hrest⟩ := Decision.bind_ok_iff.mp hrest
            obtain ⟨_, b₂, hcloses, hrest⟩ := Decision.bind_ok_iff.mp hrest
            obtain ⟨-, rfl⟩ := pure_ok.mp hrest
            have hadds := closes_writes asked claim now b₁ _ b₂ hcloses
            have hseat := hadds.seat (by decide) q j
            have hfailure := hadds.failure (by decide) q j
            rw [View.placeOf, hseat] at hkept
            rw [View.Agrees, hseat, hfailure]
            exact writes_agrees hb hwrites hagree hkept
          · obtain ⟨-, rfl⟩ := pure_ok.mp hrest
            exact hagree

theorem Turn.decide_agrees {asked : Turn} {now : ℤ} {b b' : Batch} {yes : Bool} {q j : ℕ}
    (hb : b.InOrder) (h : (asked.decide now).run b = .ok (yes, b')) (hagree : b.view.Agrees q j)
    (hkept : b.view.failure q j ≠ none → b'.view.placeOf q j = b.view.placeOf q j ∨
      q ∈ asked.handOn.cleared ∧ asked.handOn.claim.journey = j) : b'.view.Agrees q j := by
  obtain ⟨current, b₁, hcurrent, hrest⟩ := Decision.bind_ok_iff.mp h
  obtain rfl := current_reads asked.instances asked.keys b current b₁ hcurrent
  split at hrest
  · obtain ⟨done, b₁, hdecide, hrest⟩ := Decision.bind_ok_iff.mp hrest
    split at hrest
    · obtain ⟨_, b₂, hwrite, hrest⟩ := Decision.bind_ok_iff.mp hrest
      obtain ⟨-, rfl⟩ := pure_ok.mp hrest
      have hadds := write_writes asked.instances asked.keys asked.unkeyed b₁ _ b₂ hwrite
      have hseat := hadds.seat (by decide) q j
      have hfailure := hadds.failure (by decide) q j
      rw [View.placeOf, hseat] at hkept
      rw [View.Agrees, hseat, hfailure]
      exact HandOn.decide_agrees hb hdecide hagree hkept
    · obtain ⟨-, rfl⟩ := pure_ok.mp hrest
      exact HandOn.decide_agrees hb hdecide hagree hkept
  · obtain ⟨-, rfl⟩ := pure_ok.mp hrest
    exact hagree

section Operations

variable (q j : ℕ)

theorem Dead.keep_moving (dead : DeadMessage) : Moving q j (keep dead) :=
  .of_apart (keep_ordering dead) (keep_writes dead) (by decide)

theorem Publication.decide_moving (asked : Publication) (now : ℤ) (epoch : ℕ) :
    Moving q j (asked.decide digest now epoch) := by
  refine .bind (.reading _) fun found => ?_
  cases found with
  | some written =>
      exact .ite (.throw _) (.bind (.of_reads (standing_reads _)) fun _ => .pure _)
  | none =>
      have hmessage : Moving q j (putRecord .message asked.message.message asked.message) :=
        .of_writes (.put_one rfl) fun k => by cases k <;> decide
      refine .bind ?_ fun _ => .bind ?_ fun _ => .bind ?_ fun _ => .pure _
      · refine .bind hmessage fun _ => ?_
        refine .bind (.forM _ fun _ _ => Origin.counted_record_moving _ _ _ _) fun _ => ?_
        refine .bind (.forM _ fun _ _ => Hold.keep_moving _ _ _) fun _ => ?_
        unfold keepDead
        cases asked.dead with
        | none => exact .pure _
        | some entry => exact Dead.keep_moving _ _ _
      · exact .of_writes (taking_writes _ _ _ _) fun k => by cases k <;> decide
      · exact .of_writes (.put_one trivial) fun k => by cases k <;> decide

/-- A Dead Message taken out of its queue moves nothing held. -/
theorem Replay.decide_moving (asked : Replay) : Moving q j asked.decide := by
  intro b a b' h hb
  obtain ⟨placed, hrest, hat⟩ := placed_bind_ok (k := .dead) hb.proper h
  cases placed with
  | never =>
      obtain ⟨-, rfl⟩ := pure_ok.mp hrest
      exact .refl hb
  | takenOut =>
      obtain ⟨-, rfl⟩ := pure_ok.mp hrest
      exact .refl hb
  | «at» sequence =>
      obtain ⟨found, b₁, htake, hrest⟩ := Decision.bind_ok_iff.mp hrest
      obtain ⟨entry, hentry, habout⟩ :=
        ((hb.queued .dead asked.queue).index asked.message sequence).mp hat
      rcases takeOut_ok (k := .dead) hb.proper htake with ⟨-, -, hnone⟩ | ⟨bytes, -, -, -, rfl⟩
      · rw [hentry] at hnone
        cases hnone
      · obtain ⟨_, b₂, hremember, hrest⟩ := Decision.bind_ok_iff.mp hrest
        rw [put_ok.mp hremember] at hrest
        have horders := goneFrom_orders hb hentry habout (.inr (rfl : some Content.nothing = _))
          trivial
        have hother := (goneFrom_view b .dead asked.queue sequence asked.message
          (some .nothing)).other
        have hgone : Displaced q j b
            (goneFrom b .dead asked.queue sequence asked.message (some .nothing)) := by
          refine .of_same horders ?_ ?_
          · rw [View.seat, View.seat, hother .held q (by simp)]
          · rw [View.failure, View.failure, hother .failed q (by simp)]
        have hwrites : Moving q j (do
            asked.journeys.forM fun journey => do
              Origin.counted journey asked.held
              putRecord .journey journey.journey journey
            asked.held.forM Hold.keep
            pure Replayed.now) := by
          refine .bind (.forM _ fun _ _ => Origin.counted_record_moving _ _ _ _) fun _ => ?_
          exact .bind (.forM _ fun _ _ => Hold.keep_moving _ _ _) fun _ => .pure _
        exact hgone.trans (hwrites _ a b' hrest hgone.orders.inOrder)

end Operations

namespace Op

/-- The queues whose index of what failed an operation's Message leaves. -/
def cleared : Op → List ℕ
  | handOn asked => asked.cleared
  | turn asked => asked.handOn.cleared
  | _ => []

/-- The Journey of the Message an operation moves on. -/
def claimed : Op → Option ℕ
  | handOn asked => some asked.claim.journey
  | turn asked => some asked.handOn.claim.journey
  | _ => none

/-- What an operation other than a hand-on decides marks nothing. -/
theorem decide_moving {op : Op} (hmade : op.Made) (m : Moment) (hnone : op.claimed = none)
    (q j : ℕ) : Moving q j (op.decide digest m) := by
  have haudit : ∀ entry, Moving q j (XmipPersist.audit entry) := fun entry =>
    .of_writes (audit_writes entry) fun k => by cases k <;> decide
  cases op with
  | put kind key value =>
      refine .bind ?_ fun _ => .pure _
      rcases hmade with ⟨record, rfl, rfl, rfl⟩ | ⟨record, rfl, rfl, rfl⟩
      · exact .of_writes (.put_one rfl) fun k => by cases k <;> decide
      · exact .of_writes (.put_one rfl) fun k => by cases k <;> decide
  | claim asked lease =>
      exact .bind (.of_writes (Claim.take_writes _ _ _ _) fun k => by cases k <;> decide)
        fun _ => .pure _
  | renew claims lease =>
      exact .bind (.of_writes (Claim.renew_writes _ _ _) fun k => by cases k <;> decide)
        fun _ => .pure _
  | release held =>
      exact .bind (.of_writes (Claim.release_writes _) fun k => by cases k <;> decide)
        fun _ => .pure _
  | handOn asked => cases hnone
  | turn asked => cases hnone
  | publish asked =>
      refine .bind (Publication.decide_moving _ _ _ _ _) fun decided => ?_
      cases decided with
      | before held => exact .pure _
      | now held => exact .bind (haudit _) fun _ => .pure _
  | replay asked =>
      refine .bind (Replay.decide_moving _ _ _) fun replayed => ?_
      cases replayed with
      | now => exact .bind (haudit _) fun _ => .pure _
      | before => exact .pure _
      | absent => exact .pure _
  | audit entry => exact .bind (haudit _) fun _ => .pure _
  | kept number =>
      exact .bind (.of_writes (forgetKept_writes _) fun k => by cases k <;> decide)
        fun _ => .pure _

/-- An operation leaves a Message's index and mark agreeing, where what failed keeps its place or
is its own and named in a queue whose index it leaves. -/
theorem decide_agrees {op : Op} (hmade : op.Made) {m : Moment} {b b' : Batch} {done : Done}
    {q j : ℕ} (hb : b.InOrder) (h : (op.decide digest m).run b = .ok (done, b'))
    (hagree : b.view.Agrees q j)
    (hkept : b.view.failure q j ≠ none → b'.view.placeOf q j = b.view.placeOf q j ∨
      q ∈ op.cleared ∧ op.claimed = some j) : b'.view.Agrees q j := by
  by_cases hnone : op.claimed = none
  · refine (decide_moving hmade m hnone q j b done b' h hb).agrees hb hagree fun hin => ?_
    refine (hkept hin).resolve_right fun hown => ?_
    rw [hnone] at hown
    cases hown.2
  · cases op with
    | handOn asked =>
        obtain ⟨yes, b₁, hdecide, hrest⟩ := Decision.bind_ok_iff.mp h
        obtain ⟨-, rfl⟩ := pure_ok.mp hrest
        exact HandOn.decide_agrees hb hdecide hagree (by simpa [cleared, claimed] using hkept)
    | turn asked =>
        obtain ⟨yes, b₁, hdecide, hrest⟩ := Decision.bind_ok_iff.mp h
        obtain ⟨-, rfl⟩ := pure_ok.mp hrest
        exact Turn.decide_agrees hb hdecide hagree (by simpa [cleared, claimed] using hkept)
    | _ => exact absurd rfl hnone

end Op

/-! ## Runs -/

/-- An operation names, as `names` says it does, each Message whose place in a queue it lets go of
or moves where the queue's index of what failed has it. -/
def Ruling.Clears (names : Op → ℕ → ℕ → Prop) (r : Ruling) : Prop :=
  ∀ q j, r.before.view (.failedByJourney, .pair q j) ≠ none →
    r.stage.view (.heldJourney, .pair q j) ≠ r.before.view (.heldJourney, .pair q j) →
      names r.op q j

/-- The queue is one whose index of what failed the operation's Message leaves. -/
def namesQueue (op : Op) (q _ : ℕ) : Prop := q ∈ op.cleared

/-- And the Message is its own. -/
def namesOwn (op : Op) (q j : ℕ) : Prop := q ∈ op.cleared ∧ op.claimed = some j

instance (op : Op) (q j : ℕ) : Decidable (namesQueue op q j) :=
  inferInstanceAs (Decidable (q ∈ op.cleared))

instance (op : Op) (q j : ℕ) : Decidable (namesOwn op q j) :=
  inferInstanceAs (Decidable (_ ∧ _))

section Clears

variable {names : Op → ℕ → ℕ → Prop} {r : Ruling}

/-- What an operation is to name for one place it writes. -/
def Ruling.ClearsAt (names : Op → ℕ → ℕ → Prop) (r : Ruling) : Place → Prop
  | (.heldJourney, .pair q j) => r.before.view (.failedByJourney, .pair q j) ≠ none →
      r.stage.view (.heldJourney, .pair q j) ≠ r.before.view (.heldJourney, .pair q j) →
        names r.op q j
  | _ => True

instance [∀ op q j, Decidable (names op q j)] (r : Ruling) (p : Place) :
    Decidable (r.ClearsAt names p) := by
  unfold Ruling.ClearsAt
  split <;> infer_instance

/-- Only a place an operation writes is moved. -/
theorem Ruling.clears_of_changes (hr : r.Holds digest)
    (h : ∀ c ∈ r.stage.changes, r.ClearsAt names c.place) : r.Clears names := by
  intro q j hin hmoved
  have hwritten : written r.stage.changes (.heldJourney, .pair q j) ≠ none := by
    intro hnone
    refine hmoved (Batch.view_congr ?_)
    rw [Batch.read, hnone, hr.adds.below]
    rfl
  obtain ⟨value, hvalue⟩ := Option.ne_none_iff_exists'.mp hwritten
  obtain ⟨c, hc, hplace, -⟩ := exists_of_written hvalue
  have hclears := h c hc
  rw [hplace] at hclears
  exact hclears hin hmoved

theorem View.failure_ne_none {v : View} {q j : ℕ} (h : v.failure q j ≠ none) :
    v (.failedByJourney, .pair q j) ≠ none := by
  intro hnone
  refine h (Numbered.find_of_index fun n hn => ?_)
  have hplacing : Content.placing (v (.failedByJourney, .pair q j)) = some (some n) := hn
  rw [hnone] at hplacing
  cases hplacing

end Clears

/-- A queue of a store whose index of what failed is its Messages marked failed. -/
structure FailedKept (s : Store) (q : ℕ) : Prop where
  entry : ∀ n content, (s.queue .failed q).entry n = some content → ∃ failed held,
    content = .failed failed ∧ (s.queue .held q).entry failed.place = some (.held held) ∧
      held.failed = true ∧ held.hold.journey = failed.journey
  held : ∀ m held, (s.queue .held q).entry m = some (.held held) → held.failed = true →
    ∃! n, ∃ failed, (s.queue .failed q).entry n = some (.failed failed) ∧ failed.place = m
  count : (s.queue .failed q).count = ((s.queue .held q).held.filter fun m =>
    ∃ content ∈ (s.queue .held q).entry m, content.marked = true).card

/-- Over a run, the index and the marks agree of every Message. -/
theorem Writer.run_agrees {w : Writer} {steps : List Step} (hmade : ∀ s ∈ steps, s.Made)
    (hw : w.store = .empty) (hclears : ∀ r ∈ w.ruled digest steps, r.Clears namesOwn) :
    (w.run digest steps).store.view.Queued ∧
      ∀ q j, (w.run digest steps).store.view.Agrees q j := by
  have hproper : w.store.Proper := by
    rw [hw]
    exact Store.empty_proper
  refine @Writer.run_keeps digest (fun _ v => v.Queued ∧ ∀ q j, v.Agrees q j) w steps [] hmade
    hproper ?_ ?_
  · rw [hw]
    have hqueued := (Store.empty_sound ∅).queued
    refine ⟨hqueued, fun q j => ?_⟩
    have hindex : ∀ k a, (Store.empty.view.queue k q).index a = none := by
      intro k a
      simp [View.queue, Store.view, Store.empty, Content.placing]
    have hnone : ∀ k a, (Store.empty.view.queue k q).find a = none := fun k a =>
      Numbered.find_of_index (by simp [hindex])
    rw [View.Agrees, View.failure, View.seat, hnone, hnone]
    rfl
  · intro pre r post hsplit hr hbefore hinv
    have hstaged : r.before.staged.view = r.before.view := by
      funext p
      exact Batch.view_congr (by rw [Batch.read_staged])
    have horder : r.before.staged.InOrder :=
      ⟨hbefore, by rw [hstaged]; exact hinv.1⟩
    have hqueued := (Op.decide_ordering hr.made r.moment _ _ _ hr.ran horder).inOrder.queued
    refine ⟨hqueued, fun q j => ?_⟩
    have hclear := hclears r (by simp [hsplit]) q j
    refine Op.decide_agrees hr.made horder hr.ran (by rw [hstaged]; exact hinv.2 q j) ?_
    rw [hstaged]
    intro hin
    by_cases hplace : r.stage.view (.heldJourney, .pair q j) =
        r.before.view (.heldJourney, .pair q j)
    · have hindex : (r.stage.view.queue .held q).index j = (r.before.view.queue .held q).index j :=
        congrArg Content.placing hplace
      rw [View.placeOf_index hqueued, View.placeOf_index hinv.1, hindex]
      exact .inl rfl
    · exact .inr (hclear (View.failure_ne_none hin) hplace)

/-! ## The index a store keeps -/

section Kept

variable {s : Store} {q : ℕ}

theorem Store.agrees_found {j : ℕ} (h : s.view.Agrees q j) :
    recordedAt ((s.queue .failed q).find j) = markedAt ((s.queue .held q).find j) := by
  rw [View.Agrees, View.failure, View.seat, Store.queue_bare, Store.queue_bare,
    Numbered.find_map, Numbered.find_map] at h
  have hrecorded : ∀ found : Option (ℕ × Content),
      recordedAt (found.map fun at' => (at'.1, at'.2.bare)) = recordedAt found := by
    intro found
    cases found <;> simp [recordedAt]
  have hmarked : ∀ found : Option (ℕ × Content),
      markedAt (found.map fun at' => (at'.1, at'.2.bare)) = markedAt found := by
    intro found
    cases found <;> simp [markedAt]
  rwa [hrecorded, hmarked] at h

theorem markedAt_eq_some {found : Option (ℕ × Content)} {m : ℕ} (h : markedAt found = some m) :
    ∃ held : Held, found = some (m, .held held) ∧ held.failed = true := by
  obtain ⟨⟨n, content⟩, rfl, hmark⟩ := Option.bind_eq_some_iff.mp h
  simp only [Option.ite_none_right_eq_some, Option.some.injEq] at hmark
  obtain ⟨hmarked, rfl⟩ := hmark
  cases content with
  | held entry => exact ⟨entry, rfl, hmarked⟩
  | _ => cases hmarked

variable (hproper : s.Proper) (hqueued : s.view.Queued) (hagrees : ∀ j, s.view.Agrees q j)

include hproper hqueued hagrees

theorem Store.failed_entry (n : ℕ) (content : Content)
    (h : (s.queue .failed q).entry n = some content) : ∃ failed held,
      content = .failed failed ∧ (s.queue .held q).entry failed.place = some (.held held) ∧
        held.failed = true ∧ held.hold.journey = failed.journey := by
  have horderly := Store.orderly_of_queued hqueued
  obtain ⟨failed, rfl⟩ : Queues.failed.Entry content :=
    Kind.holds_entry (k := .failed) (hproper _ _ h)
  have hfound : (s.queue .failed q).find failed.journey = some (n, .failed failed) :=
    (horderly .failed q).find_eq_some.mpr ⟨h, rfl⟩
  have hagree := Store.agrees_found (hagrees failed.journey)
  rw [hfound] at hagree
  obtain ⟨held, hheld, hmark⟩ := markedAt_eq_some hagree.symm
  obtain ⟨hentry, habout⟩ := (horderly .held q).find_eq_some.mp hheld
  exact ⟨failed, held, rfl, hentry, hmark, habout⟩

theorem Store.held_failed (m : ℕ) (held : Held)
    (h : (s.queue .held q).entry m = some (.held held)) (hmark : held.failed = true) :
    ∃! n, ∃ failed, (s.queue .failed q).entry n = some (.failed failed) ∧ failed.place = m := by
  have horderly := Store.orderly_of_queued hqueued
  have hfound : (s.queue .held q).find held.hold.journey = some (m, .held held) :=
    (horderly .held q).find_eq_some.mpr ⟨h, rfl⟩
  have hagree := Store.agrees_found (hagrees held.hold.journey)
  rw [hfound] at hagree
  have hmarked : markedAt (some (m, Content.held held)) = some m := by
    simp [markedAt, Content.marked, hmark]
  rw [hmarked] at hagree
  obtain ⟨⟨n, content⟩, hfailed, hplace⟩ := Option.map_eq_some_iff.mp hagree
  obtain ⟨hentry, habout⟩ := (horderly .failed q).find_eq_some.mp hfailed
  obtain ⟨failed, -, rfl, -⟩ := Store.failed_entry hproper hqueued hagrees n content hentry
  refine ⟨n, ⟨failed, hentry, hplace⟩, ?_⟩
  rintro n' ⟨failed', hentry', hplace'⟩
  -- another entry with this place is about the Message held there
  obtain ⟨failed'', held', heq, hheld', -, habout'⟩ :=
    Store.failed_entry hproper hqueued hagrees n' _ hentry'
  cases heq
  rw [hplace', h] at hheld'
  cases hheld'
  exact (horderly .failed q).sole hentry' hentry (habout'.symm.trans habout.symm)

theorem Store.failedKept : FailedKept s q where
  entry := Store.failed_entry hproper hqueued hagrees
  held := Store.held_failed hproper hqueued hagrees
  count := by
    have horderly := Store.orderly_of_queued hqueued
    have hentry := Store.failed_entry hproper hqueued hagrees
    have hheld := Store.held_failed hproper hqueued hagrees
    rw [(horderly .failed q).count]
    refine Finset.card_bij (fun n _ => (((s.queue .failed q).entry n).map Content.recorded).getD 0)
      ?_ ?_ ?_
    · intro n hn
      obtain ⟨content, hcontent⟩ := (Numbered.mem_held (horderly .failed q)).mp hn
      obtain ⟨failed, held, rfl, hplace, hmark, -⟩ := hentry n content hcontent
      rw [hcontent]
      refine Finset.mem_filter.mpr ⟨?_, .held held, hplace, hmark⟩
      exact (Numbered.mem_held (horderly .held q)).mpr ⟨_, hplace⟩
    · intro n hn n' hn' heq
      obtain ⟨content, hcontent⟩ := (Numbered.mem_held (horderly .failed q)).mp hn
      obtain ⟨content', hcontent'⟩ := (Numbered.mem_held (horderly .failed q)).mp hn'
      obtain ⟨failed, held, rfl, hplace, hmark, -⟩ := hentry n content hcontent
      obtain ⟨failed', held', rfl, hplace', -⟩ := hentry n' content' hcontent'
      rw [hcontent, hcontent'] at heq
      have hsame : failed'.place = failed.place := heq.symm
      exact (hheld failed.place held hplace hmark).unique ⟨failed, hcontent, rfl⟩
        ⟨failed', hcontent', hsame⟩
    · intro m hm
      obtain ⟨-, content, hcontent, hmark⟩ := Finset.mem_filter.mp hm
      cases content with
      | held entry =>
          obtain ⟨n, ⟨failed, hfailed, hplace⟩, -⟩ := hheld m entry hcontent hmark
          refine ⟨n, (Numbered.mem_held (horderly .failed q)).mpr ⟨_, hfailed⟩, ?_⟩
          rw [hfailed]
          exact hplace
      | _ => cases hmark

end Kept

/-- In every state of a run from nothing, each of whose operations names a Message of its own that
it moves in a queue whose index of what failed has it, every queue's index of what failed is its
Messages marked failed. -/
theorem failed_kept {w : Writer} {steps : List Step} (hmade : ∀ s ∈ steps, s.Made)
    (hw : w.store = .empty) (hclears : ∀ r ∈ w.ruled digest steps, r.Clears namesOwn) (q : ℕ) :
    FailedKept (w.run digest steps).store q := by
  have hproper : (w.run digest steps).store.Proper := by
    refine Writer.run_proper hmade ?_
    rw [hw]
    exact Store.empty_proper
  have hagrees := Writer.run_agrees hmade hw hclears
  exact Store.failedKept hproper hagrees.1 (hagrees.2 q)

/-- A Message left Failed, retried at the queue's end and out of its index in one step, and left
Failed again. -/
def failedThenRetried : List Step :=
  let at' (now : ℤ) (op : Op) : Step := .group ⟨now, 3, .asWritten, none⟩ [op]
  let taken (token fence : ℕ) : Claim := ⟨1, "node", token, 0, fence⟩
  [at' 0 (.publish { message := { message := 1 }, journeys := [{ journey := 1 }],
                      held := [{ queue := 7, journey := 1 }], audit := { id := 9 } }),
    at' 1 (.claim (taken 5 0) 10),
    at' 2 (.handOn { claim := taken 5 12884901889, result := { journey := 1 },
                     failed := some { queue := 7, reason := "refused" } }),
    at' 3 (.claim (taken 6 0) 10),
    at' 4 (.handOn { claim := taken 6 12884901890, result := { journey := 1 },
                     requeued := [7], cleared := [7] }),
    at' 5 (.claim (taken 7 0) 10),
    at' 6 (.handOn { claim := taken 7 12884901891, result := { journey := 1 },
                     failed := some { queue := 7, reason := "refused again" } })]

theorem failed_kept_retried :
    FailedKept (Writer.fresh.run (fun _ => []) failedThenRetried).store 7 := by
  have hmade : ∀ s ∈ failedThenRetried, s.Made := by
    simp [failedThenRetried, Step.Made, Op.Made]
  have hchanges : ∀ r ∈ Writer.fresh.ruled (fun _ => []) failedThenRetried,
      ∀ c ∈ r.stage.changes, r.ClearsAt namesOwn c.place := by decide +kernel
  exact failed_kept hmade rfl
    (fun r hr => (r.clears_of_changes (Writer.ruled_hold hmade r hr)) (hchanges r hr)) 7

/-- A Message held for the Journeys that come of it, left Failed in its queue; the last of them
closes and lets its place go, its own hand-on naming the queue. -/
def failedThenClosed : List Step :=
  let at' (now : ℤ) (op : Op) : Step := .group ⟨now, 3, .asWritten, none⟩ [op]
  let taken (journey fence : ℕ) : Claim := ⟨journey, "node", 5, 0, fence⟩
  [at' 0 (.publish { message := { message := 1 }, journeys := [{ journey := 1 }],
                      held := [{ queue := 7, journey := 1 }], audit := { id := 9 } }),
    at' 1 (.claim (taken 1 0) 10),
    at' 2 (.handOn { claim := taken 1 12884901889, result := { journey := 1 },
                     next := [{ journey := 2, facts := { origin := some 1, isOpen := true } }],
                     queued := [{ queue := 7, journey := 1 }],
                     failed := some { queue := 7, reason := "refused" } }),
    at' 3 (.claim (taken 2 0) 10),
    at' 4 (.handOn { claim := taken 2 12884901889,
                     result := { journey := 2, facts := { origin := some 1 } },
                     cleared := [7] })]

/-- The queue is named, and yet the index keeps a Message that holds no place. -/
theorem failed_forgotten :
    ¬∀ (digest : Publication → Bytes) (w : Writer) (steps : List Step),
      (∀ s ∈ steps, s.Made) → w.store = .empty →
        (∀ r ∈ w.ruled digest steps, r.Clears namesQueue) →
          ∀ q, FailedKept (w.run digest steps).store q := by
  intro hkept
  have hmade : ∀ s ∈ failedThenClosed, s.Made := by
    simp [failedThenClosed, Step.Made, Op.Made]
  have hchanges : ∀ r ∈ Writer.fresh.ruled (fun _ => []) failedThenClosed,
      ∀ c ∈ r.stage.changes, r.ClearsAt namesQueue c.place := by decide +kernel
  have hlast := hkept (fun _ => []) .fresh failedThenClosed hmade rfl
    (fun r hr => (r.clears_of_changes (Writer.ruled_hold hmade r hr)) (hchanges r hr)) 7
  have hfailed : ((Writer.fresh.run (fun _ => []) failedThenClosed).store.queue .failed 7).entry 0 =
      some (.failed ⟨7, 0, 1, 0, "refused", 2⟩) := by decide +kernel
  have hheld : ((Writer.fresh.run (fun _ => []) failedThenClosed).store.queue .held 7).entry 0 =
      none := by decide +kernel
  generalize (Writer.fresh.run (fun _ => []) failedThenClosed).store = s at hlast hfailed hheld
  obtain ⟨failed, held, heq, hentry, -⟩ := hlast.entry 0 _ hfailed
  cases heq
  cases hheld.symm.trans hentry

end XmipPersist
