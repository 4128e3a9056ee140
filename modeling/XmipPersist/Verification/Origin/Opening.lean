import XmipPersist.Verification.Instance.Turns
import XmipPersist.Verification.Origin.Books
import XmipPersist.Verification.Queue.Failed
import XmipPersist.Verification.Queue.Standing

/-! # What an operation writes of Journeys and places

A Publication, a Replay, a hand-on and a turn write Journeys in an order of their own, each counted
as it is written, and take places once all of them are. Where one of them writes, it moves the book
of the holders as things written together do; where it does not, and in every other operation, the
book is as it was.
-/

namespace XmipPersist

variable {digest : Publication → Bytes}

/-- The Journeys an operation writes, in their order, the places it takes and the ones it lets go
of by itself. -/
structure Opening where
  journeys : List JourneyRecord
  places : List Hold
  leaves : Set (ℕ × ℕ)

namespace Opening

/-- What the Journeys say of their holders, as they are written. -/
def moves (opening : Opening) : List ((Bool × ℕ) × (Option ℕ × Bool)) :=
  opening.journeys.flatMap fun record =>
    [((false, record.journey), Origin.flag record false),
      ((true, record.journey), Origin.flag record true)]

/-- The book once they are written. -/
def books (opening : Opening) (book : Books) : Books :=
  book.transact Origin.cap opening.moves opening.leaves (taken opening.places)

end Opening

def Publication.opening (asked : Publication) : Opening := ⟨asked.journeys, asked.held, ∅⟩

def Replay.opening (asked : Replay) : Opening := ⟨asked.journeys, asked.held, ∅⟩

def HandOn.opening (asked : HandOn) : Opening :=
  ⟨asked.result :: asked.next, asked.queued,
    {place | place.2 = asked.claim.journey ∧ place.1 ∈ asked.leaves}⟩

/-! ## The Journeys of an operation, one after another -/

namespace Origin

/-- Journeys written one after another move the book as what they say of their holders does. -/
theorem journeys_books (journeys : List JourneyRecord) (places : List Hold) (leaves : Set (ℕ × ℕ)) :
    Rebooks (fun book => book.write cap (taken places) (Opening.moves ⟨journeys, places, leaves⟩))
      (journeys.forM fun journey => do
        counted journey places
        putRecord .journey journey.journey journey) := by
  refine (Rebooks.forM journeys fun journey _ => counted_record_books journey places).congr ?_
  intro book
  induction journeys generalizing book with
  | nil => rfl
  | cons journey journeys ih =>
      rw [List.foldl_cons, ih]
      rfl

end Origin

namespace Hold

theorem keep_books (kept : Hold) :
    Rebooks (fun book => { book with seats := insert (kept.queue, kept.journey) book.seats })
      (keep kept) :=
  .of_reseats (keep_reseats kept) (keep_writes kept) (by decide) (by decide)

theorem places_books (places : List Hold) :
    Rebooks (fun book => book.take (taken places)) (places.forM keep) := by
  refine (Rebooks.forM places fun place _ => keep_books place).congr ?_
  intro book
  induction places generalizing book with
  | nil => simp [Book.take, taken]
  | cons place places ih =>
      rw [List.foldl_cons, ih]
      simp only [Book.take, taken, List.map_cons, Book.mk.injEq, true_and]
      ext seat
      simp only [Set.mem_union, Set.mem_insert_iff, Set.mem_ofPred_eq, List.mem_cons]
      tauto

end Hold

/-! ## What each operation does to the book -/

theorem Rebooks.of_marking {α : Type} {kinds : List Kind} {m : Deciding α}
    (h : ∀ q j, Marking q j m) (hm : Writes kinds m) (hjourney : .journey ∉ kinds)
    (horigin : .origin ∉ kinds) : Rebooks id m :=
  .of_reseats (.of_marking h) hm hjourney horigin

namespace Publication

theorem writes_books (asked : Publication) : Rebooks asked.opening.books asked.writes := by
  have hmessage : Rebooks id (putRecord .message asked.message.message asked.message) :=
    .of_writes (.of_writes (.put_one rfl) fun k => by cases k <;> decide) (.put_one rfl) (by decide)
  have hdead : Rebooks id asked.keepDead := by
    unfold keepDead
    cases asked.dead with
    | none => exact .pure _
    | some entry =>
        exact .of_writes (Dead.keep_ordering entry) (Dead.keep_writes entry) (by decide)
  refine (hmessage.bind fun _ => (Origin.journeys_books asked.journeys asked.held ∅).bind fun _ =>
    (Hold.places_books asked.held).bind fun _ => hdead).congr fun book => ?_
  simp [Opening.books, opening, Book.transact, Book.leave]

end Publication

namespace Replay

theorem writes_books (asked : Replay) : Rebooks asked.opening.books asked.writes := by
  refine ((Origin.journeys_books asked.journeys asked.held ∅).bind fun _ =>
    Hold.places_books asked.held).congr fun book => ?_
  simp [Opening.books, opening, Book.transact, Book.leave]

end Replay

namespace HandOn

theorem moves_books (asked : HandOn) : Rebooks asked.opening.books asked.moves := by
  have hmessage : ∀ message : MessageRecord,
      Rebooks id (putRecord .message message.message message) := fun message =>
    .of_writes (.of_writes (.put_one rfl) fun k => by cases k <;> decide) (.put_one rfl) (by decide)
  have hmessages : Rebooks id
      (asked.messages.forM fun message => putRecord .message message.message message) := by
    refine (Rebooks.forM asked.messages fun message _ => hmessage message).congr fun book => ?_
    induction asked.messages with
    | nil => rfl
    | cons message messages ih => exact ih
  have hrequeued : Rebooks id
      (asked.requeued.forM fun queue => Hold.toTheEnd queue asked.claim.journey) :=
    .of_reseats (.forM_same _ fun queue _ => Hold.toTheEnd_reseats queue _)
      (.forM _ fun queue _ => Hold.toTheEnd_writes queue _) (by decide) (by decide)
  -- the result and its record first, as the next Journeys and theirs are
  have hmoves : asked.moves = (do
      (do Origin.counted asked.result asked.queued
          putRecord .journey asked.result.journey asked.result)
      asked.messages.forM fun message => putRecord .message message.message message
      asked.next.forM fun next => do
        Origin.counted next asked.queued
        putRecord .journey next.journey next
      asked.leaves.forM fun queue => Hold.letGoOf queue asked.claim.journey
      asked.queued.forM Hold.keep
      asked.requeued.forM fun queue => Hold.toTheEnd queue asked.claim.journey) := by
    rw [moves, bind_assoc]
  rw [hmoves]
  refine ((Origin.counted_record_books asked.result asked.queued).bind fun _ =>
    hmessages.bind fun _ => (Origin.journeys_books asked.next asked.queued ∅).bind fun _ =>
    (Origin.letGo_books asked.claim.journey asked.leaves).bind fun _ =>
    (Hold.places_books asked.queued).bind fun _ => hrequeued).congr fun book => ?_
  rfl

theorem writes_books (asked : HandOn) (now : ℤ) :
    Rebooks asked.opening.books (asked.writes now) := by
  have hfails : Rebooks id (asked.fails now) :=
    .of_marking (fails_marking asked now) (fails_writes asked now) (by decide) (by decide)
  have hcleared : Rebooks id
      (asked.cleared.forM fun queue => Failed.clear queue asked.claim.journey) :=
    .of_reseats (.forM_same _ fun queue _ => Failed.clear_reseats queue _)
      (.forM _ fun queue _ => Failed.clear_writes queue _) (by decide) (by decide)
  have hwaiting : Rebooks id (asked.waiting now) :=
    .of_marking (waiting_marking asked now) (waiting_writes asked now) (by decide) (by decide)
  rw [writes_eq]
  exact (moves_books asked).bind fun _ => hfails.bind fun _ => hcleared.bind fun _ => hwaiting

end HandOn

/-! ## Where an operation writes them -/

/-- Whether a hand-on's claim is its holder's yet. -/
def HandOn.Held (asked : HandOn) (b : Batch) : Prop :=
  ∃ stored, b.claimOn asked.claim.journey = some stored ∧ stored.heldBy asked.claim

/-- What an operation writes in a batch: a Publication not written before, a Replay of an entry
kept, a hand-on under its claim, and a turn that is current and its hand-on. -/
inductive Op.Opens (b : Batch) : Op → Opening → Prop
  | publish {asked : Publication} (h : b.read (markerPlace asked.message.message) = .ok none) :
      Opens b (.publish asked) asked.opening
  | replay {asked : Replay} {entry : ℕ × Content}
      (h : b.view.standing asked.queue asked.message = .entered entry) :
      Opens b (.replay asked) asked.opening
  | handOn {asked : HandOn} (h : asked.Held b) : Opens b (.handOn asked) asked.opening
  | turn {turn : Turn} (h : turn.Current b) (hheld : turn.handOn.Held b) :
      Opens b (.turn turn) turn.handOn.opening

/-- What an operation does to the book: what it opens, where it writes, and nothing elsewhere. -/
def Op.Counts (op : Op) (b b' : Batch) : Prop :=
  (∃ opening, op.Opens b opening ∧ b'.view.book = opening.books b.view.book) ∨
    (∀ opening, ¬op.Opens b opening) ∧ b'.view.book = b.view.book

theorem HandOn.decide_of_held {asked : HandOn} {b : Batch} (hb : b.Proper) {stored : Stored}
    (hs : b.claimOn asked.claim.journey = some stored) (hheld : stored.heldBy asked.claim)
    (now : ℤ) :
    (asked.decide now).run b = (do
      asked.writes now
      asked.closes stored.claim now
      pure true : Deciding Bool).run b := by
  obtain ⟨hstanding, his⟩ := of_decide_eq_true hheld
  obtain ⟨claim, standing⟩ := stored
  have hstored : asked.claim.stored.run b = .ok (some ⟨claim, standing⟩, b) := by
    rw [hb.stored_run, hs]
  unfold decide
  rw [Decision.run_bind_ok hstored]
  obtain rfl : standing = .held := hstanding
  simp only
  rw [if_pos his]

/-- A hand-on writes under its claim, and nowhere else. -/
theorem HandOn.decide_books {asked : HandOn} {now : ℤ} {b b' : Batch} {yes : Bool} (hb : b.InOrder)
    (h : (asked.decide now).run b = .ok (yes, b')) :
    (asked.Held b → yes = true ∧ b'.view.book = asked.opening.books b.view.book) ∧
      (¬asked.Held b → b' = b) := by
  constructor
  · rintro ⟨stored, hs, hheld⟩
    rw [decide_of_held hb.proper hs hheld] at h
    obtain ⟨_, b₁, hwrites, hrest⟩ := Decision.bind_ok_iff.mp h
    obtain ⟨_, b₂, hcloses, hyes⟩ := Decision.bind_ok_iff.mp hrest
    obtain ⟨rfl, rfl⟩ := pure_ok.mp hyes
    have hwrote := writes_books asked now b _ b₁ hwrites hb
    have hends : Rebooks id (asked.closes stored.claim now) :=
      .of_writes (.of_writes (closes_writes _ _ _) fun k => by cases k <;> decide)
        (closes_writes _ _ _) (by decide)
    have hclosed := hends b₁ _ b₂ hcloses hwrote.orders.inOrder
    exact ⟨rfl, by rw [hclosed.book, hwrote.book]; rfl⟩
  · intro hnone
    rcases decide_ok hb.proper h with ⟨hsame, _⟩ | ⟨stored, _, hs, hheld, _⟩
    · exact hsame
    · exact absurd ⟨stored, hs, hheld⟩ hnone

theorem Turn.decide_books {turn : Turn} {now : ℤ} {b b' : Batch} {yes : Bool} (hb : b.InOrder)
    (h : (turn.decide now).run b = .ok (yes, b')) : (Op.turn turn).Counts b b' := by
  obtain ⟨current, hcurrent, hiff⟩ := current_run hb.proper turn
  rcases decide_ok hb.proper h with ⟨rfl, hno⟩ | ⟨b₁, hhand, hwrite, hyes⟩
  · refine .inr ⟨?_, rfl⟩
    intro opening hopens
    obtain ⟨hturn, hheld⟩ : turn.Current b' ∧ turn.handOn.Held b' := by
      cases hopens with
      | turn hturn hheld => exact ⟨hturn, hheld⟩
    -- a turn that is current and whose claim is held is done
    obtain ⟨done, b₁, hhand, hrest⟩ : ∃ done b₁,
        (turn.handOn.decide now).run b' = .ok (done, b₁) ∧ done = false := by
      unfold decide at h
      rw [Decision.run_bind_ok hcurrent, if_pos (hiff.mpr hturn)] at h
      obtain ⟨done, b₁, hhand, hrest⟩ := Decision.bind_ok_iff.mp h
      refine ⟨done, b₁, hhand, ?_⟩
      cases done with
      | false => rfl
      | true =>
          obtain ⟨_, b₂, -, hpure⟩ := Decision.bind_ok_iff.mp hrest
          obtain ⟨hyes, -⟩ := pure_ok.mp hpure
          rw [hno] at hyes
          cases hyes
    have hdone := ((HandOn.decide_books hb hhand).1 hheld).1
    rw [hrest] at hdone
    cases hdone
  · subst hyes
    have hturn := (decide_done hb.proper h).1
    have horders := HandOn.decide_ordering turn.handOn now b _ b₁ hhand hb
    have hwrites : Rebooks id (write turn.instances turn.keys turn.unkeyed) :=
      .of_writes (.of_writes (write_writes _ _ _) fun k => by cases k <;> decide)
        (write_writes _ _ _) (by decide)
    have hwrote := (hwrites b₁ _ b' hwrite horders.inOrder).book
    by_cases hheld : turn.handOn.Held b
    · refine .inl ⟨_, .turn hturn hheld, ?_⟩
      rw [hwrote, ((HandOn.decide_books hb hhand).1 hheld).2]
      rfl
    · refine .inr ⟨?_, ?_⟩
      · intro opening hopens
        cases hopens with
        | turn _ hheld' => exact hheld hheld'
      · rw [hwrote, (HandOn.decide_books hb hhand).2 hheld]
        rfl

theorem Publication.decide_books {asked : Publication} {now : ℤ} {epoch : ℕ} {b b' : Batch}
    {decided : Decided} (hb : b.InOrder)
    (h : (asked.decide digest now epoch).run b = .ok (decided, b')) :
    (Op.publish asked).Counts b b' := by
  rcases decide_ok h with ⟨hmarker, rfl, -⟩ | ⟨hmarker, b₁, b₂, held, -, hwrites, htaking, rfl⟩
  · refine .inr ⟨?_, rfl⟩
    intro opening hopens
    cases hopens with
    | publish hnone => exact absurd (hmarker.symm.trans hnone) (by simp)
  · refine .inl ⟨_, .publish hmarker, ?_⟩
    have hwrote := writes_books asked b _ b₁ hwrites hb
    have htakes : ∀ until', Rebooks id (taking now until' epoch asked.claims) := fun until' =>
      .of_writes (.of_writes (taking_writes _ _ _ _) fun k => by cases k <;> decide)
        (taking_writes _ _ _ _) (by decide)
    have htook := htakes _ b₁ _ b₂ htaking hwrote.orders.inOrder
    have hmark : Rebooks id (put .publication (.id asked.message.message)
        (some (.digest (digest asked)))) :=
      .of_writes (.of_writes (.put_one trivial) fun k => by cases k <;> decide) (.put_one trivial)
        (by decide)
    have hmarked := hmark b₂ () _ rfl htook.orders.inOrder
    rw [hmarked.book, htook.book, hwrote.book]
    rfl

theorem Replay.decide_books {asked : Replay} {replayed : Replayed} {b b' : Batch} (hb : b.InOrder)
    (h : asked.decide.run b = .ok (replayed, b')) : (Op.replay asked).Counts b b' := by
  have hnone : (∀ entry, b.view.standing asked.queue asked.message ≠ .entered entry) → b' = b →
      (Op.replay asked).Counts b b' := by
    rintro hstands rfl
    refine .inr ⟨?_, rfl⟩
    intro opening hopens
    cases hopens with
    | replay hentered => exact hstands _ hentered
  rcases decide_ok hb h with ⟨hstands, -, hsame⟩ | ⟨hstands, -, hsame⟩ |
    ⟨n, entry, hstands, -, hwrites⟩
  · exact hnone (by simp [hstands]) hsame
  · exact hnone (by simp [hstands]) hsame
  · refine .inl ⟨_, .replay hstands, ?_⟩
    have hfind := Numbered.standing_entered.mp hstands
    obtain ⟨hentry, habout⟩ := (hb.queued .dead asked.queue).find_eq_some.mp hfind
    have hgone := goneFrom_orders hb hentry habout (.inr (rfl : some Content.nothing = _)) trivial
    have hadds : Adds Dead.kinds.all b
        (goneFrom b .dead asked.queue n asked.message (some .nothing)) :=
      goneFrom_adds (k := .dead) b asked.queue n trivial
    have hseats : (goneFrom b .dead asked.queue n asked.message (some .nothing)).view.seats =
        b.view.seats := View.seats_congr fun q j => by
      rw [View.placeOf, View.placeOf, hadds.seat (by decide)]
    have hwrote := writes_books asked _ _ _ hwrites hgone.inOrder
    rw [hwrote.book, hadds.book (by decide) (by decide), hseats]
    rfl

/-- A write of a Journey outside the operations that count it. -/
def Op.raw : Op → Prop
  | .put kind _ _ => kind = .journey
  | _ => False

/-- Every operation moves the book as what it opens does, one that writes a Journey uncounted
aside. -/
theorem Op.decide_books {op : Op} (hmade : op.Made) (hop : ¬op.raw) {m : Moment} {b b' : Batch}
    {done : Done} (hb : b.InOrder) (h : (op.decide digest m).run b = .ok (done, b')) :
    op.Counts b b' := by
  have haudits : ∀ entry, Rebooks id (XmipPersist.audit entry) := fun entry =>
    .of_writes (.of_writes (audit_writes entry) fun k => by cases k <;> decide)
      (audit_writes entry) (by decide)
  have hother : (∀ opening, ¬op.Opens b opening) →
      (∀ kind ∈ Kind.journey :: Kind.origin :: Hold.kinds.all, kind ∉ op.kinds) →
      op.Counts b b' := fun hnone hkinds => by
    have hsame : Rebooks id (op.decide digest m) :=
      .of_writes (Op.decide_ordering hmade m) (Op.decide_writes hmade m) hkinds
    exact .inr ⟨hnone, (hsame b _ b' h hb).book⟩
  cases op with
  | put kind key value =>
      refine hother (fun _ hopens => by cases hopens) ?_
      rcases hmade with ⟨_, rfl, -⟩ | ⟨_, rfl, -⟩
      · simp only [kinds]
        decide
      · exact absurd rfl hop
  | claim asked lease =>
      exact hother (fun _ hopens => by cases hopens) (by simp only [kinds]; decide)
  | renew claims lease =>
      exact hother (fun _ hopens => by cases hopens) (by simp only [kinds]; decide)
  | release held =>
      exact hother (fun _ hopens => by cases hopens) (by simp only [kinds]; decide)
  | audit entry =>
      exact hother (fun _ hopens => by cases hopens) (by simp only [kinds]; decide)
  | kept number =>
      exact hother (fun _ hopens => by cases hopens) (by simp only [kinds]; decide)
  | handOn asked =>
      obtain ⟨yes, b₁, hdecide, hpure⟩ := Decision.bind_ok_iff.mp h
      obtain ⟨-, rfl⟩ := pure_ok.mp hpure
      have hbooks := HandOn.decide_books hb hdecide
      by_cases hheld : asked.Held b
      · exact .inl ⟨_, .handOn hheld, (hbooks.1 hheld).2⟩
      · refine .inr ⟨?_, by rw [hbooks.2 hheld]⟩
        intro opening hopens
        cases hopens with
        | handOn hheld' => exact hheld hheld'
  | turn asked =>
      obtain ⟨yes, b₁, hdecide, hpure⟩ := Decision.bind_ok_iff.mp h
      obtain ⟨-, rfl⟩ := pure_ok.mp hpure
      exact Turn.decide_books hb hdecide
  | publish asked =>
      obtain ⟨decided, b₁, hdecide, hrest⟩ := Decision.bind_ok_iff.mp h
      have hcounts := Publication.decide_books hb hdecide
      cases decided with
      | before held =>
          obtain ⟨-, rfl⟩ := pure_ok.mp hrest
          exact hcounts
      | now held =>
          obtain ⟨_, b₂, haudit, hpure⟩ := Decision.bind_ok_iff.mp hrest
          obtain ⟨-, rfl⟩ := pure_ok.mp hpure
          have horders := Publication.decide_ordering asked m.now m.epoch b _ b₁ hdecide hb
          have hbook := (haudits asked.audit b₁ _ b₂ haudit horders.inOrder).book
          simp only [Op.Counts, hbook]
          exact hcounts
  | replay asked =>
      obtain ⟨replayed, b₁, hdecide, hrest⟩ := Decision.bind_ok_iff.mp h
      have hcounts := Replay.decide_books hb hdecide
      cases replayed with
      | before =>
          obtain ⟨-, rfl⟩ := pure_ok.mp hrest
          exact hcounts
      | absent =>
          obtain ⟨-, rfl⟩ := pure_ok.mp hrest
          exact hcounts
      | now =>
          obtain ⟨_, b₂, haudit, hpure⟩ := Decision.bind_ok_iff.mp hrest
          obtain ⟨-, rfl⟩ := pure_ok.mp hpure
          have horders := Replay.decide_ordering asked b _ b₁ hdecide hb
          have hbook := (haudits asked.audit b₁ _ b₂ haudit horders.inOrder).book
          simp only [Op.Counts, hbook]
          exact hcounts

end XmipPersist
