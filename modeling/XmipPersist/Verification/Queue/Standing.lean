import XmipPersist.Library.Once
import XmipPersist.Verification.Queue.Seats
import XmipPersist.Verification.Queue.Kept
import XmipPersist.Verification.Writer.Comes

/-! # How a dead Message stands in its queue

A Dead Message Queue's index says of a Message nothing, its place, or that it was taken out. Only a
Publication that carries its entry and a Replay of it move that, and each moves it one way.
-/

namespace XmipPersist

variable {digest : Publication → Bytes}

/-! ## What is asked of one dead Message -/

namespace Op

/-- The entry of the Message `id` for the queue `q` that a write carries. -/
def carries (q id : ℕ) : Op → Option DeadMessage
  | .publish asked => asked.dead.filter fun dead => dead.queue = q ∧ dead.message = id
  | _ => none

def replays (q id : ℕ) : Op → Prop
  | .replay asked => asked.queue = q ∧ asked.message = id
  | _ => False

instance (q id : ℕ) : ∀ op : Op, Decidable (op.replays q id)
  | .replay _ => inferInstanceAs (Decidable (_ ∧ _))
  | .put _ _ _ | .claim _ _ | .renew _ _ | .release _ | .handOn _ | .turn _ | .publish _
  | .audit _ | .kept _ => inferInstanceAs (Decidable False)

end Op

/-- An entry at its queue's next place, as a view has it. -/
def View.placing (v : View) (q : ℕ) (dead : DeadMessage) : ℕ × Content :=
  ((v.placesOf .dead q).next, .dead ⟨(v.placesOf .dead q).next, dead⟩)

/-- What a write that carries an entry keeps of it, where its queue had none: the entry at the
queue's next place. -/
def Ruling.keeps (q id : ℕ) (r : Ruling) : Option (ℕ × Content) :=
  (r.op.carries q id).map (r.before.view.placing q)

/-- A Replay of it among what came out. -/
def Ruling.replays (q id : ℕ) (r : Ruling) : Prop := r.op.replays q id

instance (q id : ℕ) (r : Ruling) : Decidable (r.replays q id) :=
  inferInstanceAs (Decidable (r.op.replays q id))

def View.standing (v : View) (q id : ℕ) : Once (ℕ × Content) := (v.queue .dead q).standing id

/-! ## What moves it -/

section Moves

variable {b b' : Batch} {q id : ℕ}

theorem Adds.queue_of_kind {kinds : List Kind} (h : Adds kinds b b') {k : Queues}
    (hkinds : ∀ kind ∈ k.kinds.all, kind ∉ kinds) (q : ℕ) :
    b'.view.queue k q = b.view.queue k q :=
  View.queue_congr (fun _ hp => h.view_of_kind (hkinds _ hp)) q

theorem Adds.standing {kinds : List Kind} (h : Adds kinds b b')
    (hkinds : ∀ kind ∈ Dead.kinds.all, kind ∉ kinds) (q id : ℕ) :
    b'.view.standing q id = b.view.standing q id := by
  rw [View.standing, View.standing, h.queue_of_kind (k := .dead) hkinds]

/-- One queue's entry of one Message moved, and no other. -/
theorem View.OneQueue.standing {v v' : View} {q' : ℕ} {queue : Numbered Content ℕ}
    (h : v.OneQueue v' .dead q' queue) {about : ℕ} {stands : Once (ℕ × Content)}
    (hqueue : ∀ a, queue.standing a = if a = about then stands else (v.queue .dead q').standing a)
    (q id : ℕ) :
    v'.standing q id = if q' = q ∧ about = id then stands else v.standing q id := by
  unfold View.standing
  by_cases hq : q' = q
  · subst hq
    rw [h.self, hqueue]
    by_cases hid : about = id
    · simp [hid]
    · simp [hid, Ne.symm hid]
  · rw [h.other .dead q fun he => hq he.2.symm, if_neg fun he => hq he.1]

/-- An entry kept: at its queue's next place where the queue never had one. -/
theorem Dead.keep_standing {dead : DeadMessage} (hb : b.InOrder)
    (h : (keep dead).run b = .ok ((), b')) (q id : ℕ) :
    b'.view.standing q id =
      if dead.queue = q ∧ dead.message = id then
        (b.view.standing q id).enter (some (b.view.placing q dead))
      else b.view.standing q id := by
  obtain ⟨yes, b₁, hplace, hrest⟩ := Decision.bind_ok_iff.mp h
  obtain ⟨-, rfl⟩ := pure_ok.mp hrest
  rcases place_ok (k := .dead) hb.proper hplace with ⟨rfl, hkept⟩ | ⟨hnone, hone, -⟩
  · split
    · next hown =>
        obtain ⟨rfl, rfl⟩ := hown
        have hstands : b₁.view.standing dead.queue dead.message ≠ .never := fun hnever =>
          hkept (Numbered.standing_never.mp hnever)
        rw [Once.enter_of_ne hstands]
    · rfl
  · rw [hone.standing ((hb.queued .dead dead.queue).standing_place hnone rfl ⟨rfl, rfl⟩) q id]
    by_cases hown : dead.queue = q ∧ dead.message = id
    · obtain ⟨rfl, rfl⟩ := hown
      have hnever : b.view.standing dead.queue dead.message = .never :=
        Numbered.standing_never.mpr hnone
      rw [if_pos ⟨rfl, rfl⟩, if_pos ⟨rfl, rfl⟩, hnever]
      rfl
    · rw [if_neg hown, if_neg hown]

theorem Publication.keepDead_standing {asked : Publication} (hb : b.InOrder)
    (h : asked.keepDead.run b = .ok ((), b')) (q id : ℕ) :
    b'.view.standing q id =
      (b.view.standing q id).enter (((Op.publish asked).carries q id).map (b.view.placing q)) := by
  unfold keepDead at h
  have hcarries : (Op.publish asked).carries q id =
      asked.dead.filter fun dead => dead.queue = q ∧ dead.message = id := rfl
  rw [hcarries]
  cases hdead : asked.dead with
  | none =>
      simp only [hdead] at h
      obtain ⟨-, rfl⟩ := pure_ok.mp h
      simp
  | some dead =>
      simp only [hdead] at h
      rw [Dead.keep_standing hb h, Option.filter_some]
      by_cases hown : dead.queue = q ∧ dead.message = id
      · simp [hown]
      · simp [hown]

theorem Publication.writes_standing {asked : Publication} (hb : b.InOrder)
    (h : asked.writes.run b = .ok ((), b')) (q id : ℕ) :
    b'.view.standing q id =
      (b.view.standing q id).enter (((Op.publish asked).carries q id).map (b.view.placing q)) := by
  obtain ⟨_, b₁, hmessage, hrest⟩ := Decision.bind_ok_iff.mp h
  obtain ⟨_, b₂, hjourneys, hrest⟩ := Decision.bind_ok_iff.mp hrest
  obtain ⟨_, b₃, hheld, hdead⟩ := Decision.bind_ok_iff.mp hrest
  have hjourney : ∀ journey : JourneyRecord, Writes (.journey :: Origin.countKinds) (do
      Origin.counted journey asked.held
      putRecord .journey journey.journey journey) := fun journey =>
    Origin.counted_record_writes journey asked.held
  have hput : Writes [.message] (putRecord .message asked.message.message asked.message) :=
    .put_one rfl
  have hadds₁ := hput _ _ _ hmessage
  have hadds₂ := Writes.forM asked.journeys (fun journey _ => hjourney journey) _ _ _ hjourneys
  have hadds₃ := Writes.forM asked.held (fun kept _ => Hold.keep_writes kept) _ _ _ hheld
  have hb₃ : b₃.InOrder := by
    have hb₁ := (Orders.of_adds hb hadds₁ fun k => by cases k <;> decide).inOrder
    have hb₂ := (Ordering.forM asked.journeys
      (fun journey _ => Origin.counted_record_ordering journey asked.held) _ _ _ hjourneys
        hb₁).inOrder
    exact (Ordering.forM asked.held (fun kept _ => Hold.keep_ordering kept) _ _ _ hheld
      hb₂).inOrder
  have hqueue : b₃.view.queue .dead q = b.view.queue .dead q := by
    rw [hadds₃.queue_of_kind (by decide), hadds₂.queue_of_kind (by decide),
      hadds₁.queue_of_kind (by decide)]
  have hplacing : b₃.view.placing q = b.view.placing q := by
    have hnext : (b₃.view.placesOf .dead q).next = (b.view.placesOf .dead q).next :=
      congrArg Numbered.next hqueue
    funext dead
    rw [View.placing, View.placing, hnext]
  have hstands : b₃.view.standing q id = b.view.standing q id := by
    rw [View.standing, View.standing, hqueue]
  rw [keepDead_standing hb₃ hdead, hplacing, hstands]

namespace Replay

/-- What a Replay writes once its entry is taken out: its Journeys and those held. -/
def writes (asked : Replay) : Deciding Unit := do
  asked.journeys.forM fun journey => do
    Origin.counted journey asked.held
    putRecord .journey journey.journey journey
  asked.held.forM Hold.keep

theorem writes_writes (asked : Replay) : Writes (.journey :: Origin.countKinds) asked.writes := by
  refine .bind (.forM _ fun _ _ => Origin.counted_record_writes _ _) fun _ => ?_
  exact .forM _ fun _ _ => (Hold.keep_writes _).mono (by simp [Origin.countKinds])

/-- A Replay finds no entry and never did, or one taken out before, or it takes it out. -/
theorem decide_ok {asked : Replay} {replayed : Replayed} (hb : b.InOrder)
    (h : asked.decide.run b = .ok (replayed, b')) :
    (b.view.standing asked.queue asked.message = .never ∧ replayed = .absent ∧ b' = b) ∨
      (b.view.standing asked.queue asked.message = .taken ∧ replayed = .before ∧ b' = b) ∨
      ∃ n entry, b.view.standing asked.queue asked.message = .entered (n, entry) ∧
        replayed = .now ∧
        asked.writes.run (goneFrom b .dead asked.queue n asked.message (some .nothing)) =
          .ok ((), b') := by
  obtain ⟨placed, hrest, hat⟩ := placed_bind_ok (k := .dead) hb.proper h
  cases placed with
  | never =>
      obtain ⟨rfl, rfl⟩ := pure_ok.mp hrest
      exact .inl ⟨Numbered.standing_never.mpr hat, rfl, rfl⟩
  | takenOut =>
      obtain ⟨rfl, rfl⟩ := pure_ok.mp hrest
      refine .inr (.inl ⟨?_, rfl, rfl⟩)
      have hfind : (b.view.queue .dead asked.queue).find asked.message = none :=
        Numbered.find_of_index (by simp [hat])
      rw [View.standing, Numbered.standing, hfind, hat]
      simp
  | «at» sequence =>
      obtain ⟨found, b₁, htake, hrest⟩ := Decision.bind_ok_iff.mp hrest
      obtain ⟨entry, hentry, habout⟩ :=
        ((hb.queued .dead asked.queue).index asked.message sequence).mp hat
      rcases takeOut_ok (k := .dead) hb.proper htake with ⟨-, -, hnone⟩ | ⟨bytes, -, -, -, rfl⟩
      · rw [hentry] at hnone
        cases hnone
      · obtain ⟨_, b₂, hremember, hrest⟩ := Decision.bind_ok_iff.mp hrest
        rw [put_ok.mp hremember] at hrest
        obtain ⟨_, b₃, hjourneys, hrest⟩ := Decision.bind_ok_iff.mp hrest
        obtain ⟨_, b₄, hheld, hrest⟩ := Decision.bind_ok_iff.mp hrest
        obtain ⟨rfl, rfl⟩ := pure_ok.mp hrest
        have hwrites : asked.writes.run
            (goneFrom b .dead asked.queue sequence asked.message (some .nothing)) =
              .ok ((), b₄) :=
          Decision.bind_ok_iff.mpr ⟨_, b₃, hjourneys, hheld⟩
        have hfind := (hb.queued .dead asked.queue).find_eq_some.mpr ⟨hentry, habout⟩
        exact .inr (.inr ⟨sequence, entry, Numbered.standing_entered.mpr hfind, rfl, hwrites⟩)

theorem decide_standing {asked : Replay} {replayed : Replayed} (hb : b.InOrder)
    (h : asked.decide.run b = .ok (replayed, b')) (q id : ℕ) :
    b'.view.standing q id =
      if asked.queue = q ∧ asked.message = id then (b.view.standing q id).take
      else b.view.standing q id := by
  rcases decide_ok hb h with ⟨hstands, -, rfl⟩ | ⟨hstands, -, rfl⟩ | ⟨n, entry, hstands, -, hwrites⟩
  · split
    · next hown =>
        obtain ⟨rfl, rfl⟩ := hown
        rw [hstands]
        rfl
    · rfl
  · split
    · next hown =>
        obtain ⟨rfl, rfl⟩ := hown
        rw [hstands]
        rfl
    · rfl
  · have hfind := Numbered.standing_entered.mp hstands
    obtain ⟨hentry, habout⟩ := (hb.queued .dead asked.queue).find_eq_some.mp hfind
    have hadds := writes_writes asked _ _ _ hwrites
    rw [hadds.standing (by decide), (goneFrom_view b .dead asked.queue n asked.message
      (some .nothing)).standing ((hb.queued .dead asked.queue).standing_takeOut hentry habout)]
    by_cases hown : asked.queue = q ∧ asked.message = id
    · obtain ⟨rfl, rfl⟩ := hown
      rw [if_pos ⟨rfl, rfl⟩, if_pos ⟨rfl, rfl⟩, hstands]
      rfl
    · rw [if_neg hown, if_neg hown]

end Replay

end Moves

/-! ## What a Replay writes -/

/-- What a Replay leaves where it takes its entry out: its Journeys, the last of each as it is
asked, a place for each it holds, and its audit record at the next number. -/
structure Replay.Written (asked : Replay) (b b' : Batch) : Prop where
  journeys : ∀ before journey after, asked.journeys = before ++ journey :: after →
    (∀ later ∈ after, later.journey ≠ journey.journey) →
    b'.read (.journey, .id journey.journey) = .ok (some (Form.bytes journey))
  held : ∀ kept ∈ asked.held, (kept.queue, kept.journey) ∈ b'.view.seats
  audit : b'.read (.audit, .id b.next) = .ok (some (Form.bytes asked.audit))
  next : b'.next = b.next + 1

section Writes

variable {b b' : Batch}

theorem Origin.counted_journey {journey : JourneyRecord} {places : List Hold}
    (h : (do
      Origin.counted journey places
      putRecord .journey journey.journey journey : Deciding Unit).run b = .ok ((), b')) (id : ℕ) :
    b'.read (.journey, .id id) =
      if journey.journey = id then .ok (some (Form.bytes journey))
      else b.read (.journey, .id id) := by
  obtain ⟨_, b₁, hcounted, hput⟩ := Decision.bind_ok_iff.mp h
  rw [put_ok.mp hput, Batch.read_put]
  have hkind : Kind.journey ∉ Origin.countKinds := by decide
  have hsame : b₁.read (.journey, .id id) = b.read (.journey, .id id) :=
    (Origin.counted_writes journey places _ _ _ hcounted).read_of_kind hkind
  rw [hsame]
  by_cases hid : journey.journey = id
  · simp [hid]
  · simp [hid]

theorem Origin.counted_journeys {journeys : List JourneyRecord} {places : List Hold}
    (h : (journeys.forM fun journey => do
      Origin.counted journey places
      putRecord .journey journey.journey journey : Deciding Unit).run b = .ok ((), b'))
    {before after : List JourneyRecord} {journey : JourneyRecord}
    (hsplit : journeys = before ++ journey :: after)
    (hlast : ∀ later ∈ after, later.journey ≠ journey.journey) :
    b'.read (.journey, .id journey.journey) = .ok (some (Form.bytes journey)) := by
  have hkeep : ∀ {after : List JourneyRecord} {b : Batch},
      (∀ later ∈ after, later.journey ≠ journey.journey) →
      (after.forM fun journey => do
        Origin.counted journey places
        putRecord .journey journey.journey journey : Deciding Unit).run b = .ok ((), b') →
      b'.read (.journey, .id journey.journey) = b.read (.journey, .id journey.journey) := by
    intro after
    induction after with
    | nil =>
        intro b _ hrun
        rw [(pure_ok.mp hrun).2]
    | cons later after ih =>
        intro b hne hrun
        obtain ⟨_, b₁, hfirst, hrest⟩ := Decision.bind_ok_iff.mp hrun
        have hlater := hne later (by simp)
        rw [ih (fun other hother => hne other (by simp [hother])) hrest,
          Origin.counted_journey hfirst, if_neg hlater]
  subst hsplit
  induction before generalizing b with
  | nil =>
      obtain ⟨_, b₁, hfirst, hrest⟩ := Decision.bind_ok_iff.mp h
      rw [hkeep hlast hrest, Origin.counted_journey hfirst, if_pos rfl]
  | cons first before ih =>
      obtain ⟨_, b₁, -, hrest⟩ := Decision.bind_ok_iff.mp h
      exact ih hrest

/-- Every Journey held has its place, one held before it included. -/
theorem Hold.keep_seats {held : List Hold} (hb : b.InOrder)
    (h : (held.forM Hold.keep).run b = .ok ((), b')) {kept : Hold} (hkept : kept ∈ held) :
    (kept.queue, kept.journey) ∈ b'.view.seats := by
  have hseats := (Reseats.forM held fun kept _ => Hold.keep_reseats kept) b _ b' h hb
  have hmem : ∀ (held : List Hold) (seats : Set (ℕ × ℕ)),
      (kept ∈ held ∨ (kept.queue, kept.journey) ∈ seats) →
      (kept.queue, kept.journey) ∈
        held.foldl (fun seats kept => insert (kept.queue, kept.journey) seats) seats := by
    intro held
    induction held with
    | nil => simp
    | cons first held ih =>
        intro seats hor
        apply ih
        rcases hor with hin | hin
        · rcases List.mem_cons.mp hin with rfl | hin
          · exact .inr (Set.mem_insert _ _)
          · exact .inl hin
        · exact .inr (Set.mem_insert_of_mem _ hin)
  rw [hseats.seats]
  exact hmem held _ (.inl hkept)

/-- What a Replay answers of a Message that stands so in the queue. -/
def Replayed.of {α : Type} : Once α → Replayed
  | .never => .absent
  | .entered _ => .now
  | .taken => .before

/-- A Replay always comes out: it takes out the entry there is and writes what it asks, and where
there is none it writes nothing. -/
theorem Replay.asked_run (digest : Publication → Bytes) (asked : Replay) (hb : b.InOrder)
    (m : Moment) :
    ∃ b', ((Op.replay asked).decide digest m).run b =
        .ok (.replayed (.of (b.view.standing asked.queue asked.message)), b') ∧
      ((∃ at', b.view.standing asked.queue asked.message = .entered at') →
        asked.Written b b') ∧
      ((∀ at', b.view.standing asked.queue asked.message ≠ .entered at') → b' = b) := by
  obtain ⟨replayed, b₁, hrun, -⟩ := asked.decide_comes b hb.proper
  rcases Replay.decide_ok hb hrun with ⟨hstands, rfl, rfl⟩ | ⟨hstands, rfl, rfl⟩ |
    ⟨n, entry, hstands, rfl, hwrites⟩
  · have hop : ((Op.replay asked).decide digest m).run b₁ = .ok (.replayed .absent, b₁) := by
      change (asked.decide >>= _).run b₁ = _
      rw [Decision.run_bind_ok hrun]
      rfl
    rw [hstands]
    exact ⟨b₁, hop, by simp, fun _ => rfl⟩
  · have hop : ((Op.replay asked).decide digest m).run b₁ = .ok (.replayed .before, b₁) := by
      change (asked.decide >>= _).run b₁ = _
      rw [Decision.run_bind_ok hrun]
      rfl
    rw [hstands]
    exact ⟨b₁, hop, by simp, fun _ => rfl⟩
  · have hfind := Numbered.standing_entered.mp hstands
    obtain ⟨hentry, habout⟩ := (hb.queued .dead asked.queue).find_eq_some.mp hfind
    have hgone := goneFrom_orders hb hentry habout (.inr (rfl : some Content.nothing = _)) trivial
    obtain ⟨_, b₂, hjourneys, hheld⟩ := Decision.bind_ok_iff.mp hwrites
    have horders := Ordering.forM asked.journeys
      (fun journey _ => Origin.counted_record_ordering journey asked.held) _ _ _ hjourneys
        hgone.inOrder
    have hwrote := asked.writes_writes _ _ _ hwrites
    have hnext : b₁.next = b.next := hwrote.stays (by decide)
    have haudit := audit_writes asked.audit b₁ () _ rfl
    have hop : ((Op.replay asked).decide digest m).run b = .ok (.replayed .now,
        { b₁.put .audit (.id b₁.next) (some (Form.bytes asked.audit)) with
          next := b₁.next + 1 }) := by
      change (asked.decide >>= _).run b = _
      rw [Decision.run_bind_ok hrun]
      rfl
    rw [hstands]
    refine ⟨_, hop, fun _ => ⟨fun before journey after hsplit hlast => ?_, fun kept hkept => ?_,
      ?_, congrArg (· + 1) hnext⟩, by simp⟩
    · have hjourney := Origin.counted_journeys hjourneys hsplit hlast
      have hkept : b₁.read (.journey, .id journey.journey) =
          b₂.read (.journey, .id journey.journey) :=
        (Writes.forM asked.held (fun kept _ => Hold.keep_writes kept) _ _ _ hheld).read_of_kind
          (by simp [Kinds.all, Hold.kinds])
      rw [haudit.read_of_kind (by simp), hkept, hjourney]
    · have hseat := Hold.keep_seats horders.inOrder hheld hkept
      rw [View.mem_seats, View.placeOf, haudit.seat (by decide)]
      exact hseat
    · rw [← hnext]
      exact Batch.read_put_self b₁ _ _ _

end Writes

/-! ## What an operation does to one dead Message -/

/-- A Publication written before carried its entry then. -/
def Op.Again (b : Batch) (q id : ℕ) : Op → Prop
  | .publish asked =>
      b.read (markerPlace asked.message.message) ≠ .ok none →
        (Op.publish asked).carries q id ≠ none → b.view.standing q id ≠ .never
  | _ => True

section Moved

variable {b b' : Batch} {q id : ℕ}

theorem Publication.decide_standing {asked : Publication} {now : ℤ} {epoch : ℕ} {decided : Decided}
    (hb : b.InOrder) (hagain : (Op.publish asked).Again b q id)
    (h : (asked.decide digest now epoch).run b = .ok (decided, b')) :
    b'.view.standing q id =
      (b.view.standing q id).enter (((Op.publish asked).carries q id).map (b.view.placing q)) := by
  rcases decide_ok h with ⟨hmarker, rfl, -⟩ | ⟨-, b₁, b₂, held, -, hwrites, htaking, rfl⟩
  · cases hcarries : (Op.publish asked).carries q id with
    | none => simp
    | some dead =>
        have hstands := hagain (by simp [markerPlace, hmarker]) (by simp [hcarries])
        rw [Once.enter_of_ne hstands]
  · have hproper : Change.Proper ⟨.publication, .id asked.message.message,
      some (.digest (digest asked))⟩ := trivial
    have hput := Writes.put_one hproper b₂ () _ rfl
    have hclaims := taking_writes _ _ _ _ b₁ held b₂ htaking
    rw [hput.standing (by decide), hclaims.standing (by decide), writes_standing hb hwrites]

theorem Op.decide_standing {op : Op} {m : Moment} {done : Done} (hmade : op.Made) (hb : b.InOrder)
    (hagain : op.Again b q id) (h : (op.decide digest m).run b = .ok (done, b')) :
    b'.view.standing q id =
      if op.replays q id then (b.view.standing q id).take
      else (b.view.standing q id).enter ((op.carries q id).map (b.view.placing q)) := by
  have hapart : (∀ kind ∈ Dead.kinds.all, kind ∉ op.kinds) →
      b'.view.standing q id = (b.view.standing q id).enter none := fun hkinds => by
    rw [Once.enter_none, (Op.decide_writes hmade m b done b' h).standing hkinds]
  cases op with
  | publish asked =>
      obtain ⟨decided, b₁, hdecide, hrest⟩ := Decision.bind_ok_iff.mp h
      have hstands := Publication.decide_standing hb hagain hdecide
      rw [if_neg (by simp [replays]), ← hstands]
      cases decided with
      | before held => rw [(pure_ok.mp hrest).2]
      | now held =>
          obtain ⟨_, b₂, haudit, hrest⟩ := Decision.bind_ok_iff.mp hrest
          rw [← (pure_ok.mp hrest).2]
          exact (audit_writes asked.audit b₁ () b₂ haudit).standing (by decide) q id
  | replay asked =>
      obtain ⟨replayed, b₁, hdecide, hrest⟩ := Decision.bind_ok_iff.mp h
      have hstands := Replay.decide_standing hb hdecide q id
      have hlast : b'.view.standing q id = b₁.view.standing q id := by
        cases replayed with
        | now =>
            obtain ⟨_, b₂, haudit, hrest⟩ := Decision.bind_ok_iff.mp hrest
            rw [← (pure_ok.mp hrest).2]
            exact (audit_writes asked.audit b₁ () b₂ haudit).standing (by decide) q id
        | before => rw [(pure_ok.mp hrest).2]
        | absent => rw [(pure_ok.mp hrest).2]
      rw [hlast, hstands]
      by_cases hown : (Op.replay asked).replays q id
      · rw [if_pos hown, if_pos (show asked.queue = q ∧ asked.message = id from hown)]
      · rw [if_neg hown, if_neg (show ¬(asked.queue = q ∧ asked.message = id) from hown)]
        simp [carries]
  | put kind key value =>
      apply hapart
      rcases hmade with ⟨record, rfl, -⟩ | ⟨record, rfl, -⟩ <;>
        simp [Op.kinds, Kinds.all, Dead.kinds]
  | handOn asked => exact hapart (by rw [Op.kinds]; decide)
  | turn asked => exact hapart (by rw [Op.kinds]; decide)
  | claim asked lease => exact hapart (by rw [Op.kinds]; decide)
  | renew claims lease => exact hapart (by rw [Op.kinds]; decide)
  | release asked => exact hapart (by rw [Op.kinds]; decide)
  | audit entry => exact hapart (by rw [Op.kinds]; decide)
  | kept number => exact hapart (by rw [Op.kinds]; decide)

end Moved

end XmipPersist
