import XmipPersist.Verification.Queue.Kept
import XmipPersist.Verification.Queue.Lines

/-! # The queues are the lines their operations say

What is kept of the holders and the lines of the queues are a hall that each operation moves by what
it asks for, whatever places it is given. A run leaves the hall its operations come to, and a page
of a queue reads the first of its line.
-/

namespace XmipPersist

variable {digest : Publication → Bytes}

/-! ## Some of what is held let go of -/

/-- From a batch in order to a later one, only some of what is held stays in its lines. -/
structure Thinned (b b' : Batch) : Prop where
  orders : Orders b b'
  lines : ∃ stays, b'.view.lines = b.view.lines.thinned stays

/-- Whatever `m` decides in a batch in order, some of what is held is let go of at most. -/
def Thins {α : Type} (m : Deciding α) : Prop :=
  Decision.Moves (fun b b' => b.InOrder → Thinned b b') m

theorem Lines.thinned_thinned (stays stays' : ℕ → ℕ → Bool) (lines : Lines) :
    (lines.thinned stays).thinned stays' =
      lines.thinned fun queue journey => stays' queue journey && stays queue journey := by
  simp [thinned, List.filter_filter]

theorem Lines.thinned_all (lines : Lines) : lines.thinned (fun _ _ => true) = lines := by
  simp [thinned]

theorem Thinned.refl {b : Batch} (h : b.InOrder) : Thinned b b :=
  ⟨.refl h, _, b.view.lines.thinned_all.symm⟩

theorem Thinned.trans {b b' b'' : Batch} (h : Thinned b b') (h' : Thinned b' b'') :
    Thinned b b'' := by
  obtain ⟨stays, hlines⟩ := h.lines
  obtain ⟨stays', hlines'⟩ := h'.lines
  refine ⟨h.orders.trans h'.orders,
    fun queue journey => stays' queue journey && stays queue journey, ?_⟩
  rw [hlines', hlines, Lines.thinned_thinned]

/-- The ones that stay are the ones that have a place. -/
theorem Thinned.staying {b b' : Batch} (h : Thinned b b') :
    b'.view.lines = b.view.lines.staying b'.view.seats := by
  obtain ⟨stays, hlines⟩ := h.lines
  have hheld : ∀ queue, (b.view.lines.held queue).filter (stays queue) =
      (b.view.lines.staying b'.view.seats).held queue := by
    intro queue
    apply List.filter_congr
    intro journey hmem
    have hstays : journey ∈ b'.view.lines.held queue ↔ stays queue journey = true := by
      rw [hlines]
      simp [Lines.thinned, hmem]
    rw [View.mem_held h.orders.inOrder.queued] at hstays
    by_cases hseat : (queue, journey) ∈ b'.view.seats
    · simp [hseat, hstays.mp hseat]
    · have hgone : stays queue journey = false := by
        by_contra hne
        exact hseat (hstays.mpr (by simpa using hne))
      simp [hseat, hgone]
  rw [hlines, Lines.thinned, Lines.staying, Lines.thinned]
  simp only [Lines.mk.injEq, and_true]
  exact funext hheld

namespace Thins

variable {α β : Type}

theorem pure (a : α) : Thins (pure a) := Decision.Moves.pure (fun _ => Thinned.refl) a

theorem bind {m : Deciding α} {f : α → Deciding β} (hm : Thins m) (hf : ∀ a, Thins (f a)) :
    Thins (m >>= f) :=
  Decision.Moves.bind
    (fun _ _ _ h h' hb => (h hb).trans (h' (h hb).orders.inOrder)) hm hf

theorem forM {f : β → Deciding PUnit} (xs : List β) (h : ∀ x ∈ xs, Thins (f x)) :
    Thins (xs.forM f) :=
  Decision.Moves.forM (fun _ => Thinned.refl)
    (fun _ _ _ h h' hb => (h hb).trans (h' (h hb).orders.inOrder)) xs h

theorem ite {m n : Deciding α} {c : Prop} [Decidable c] (hm : Thins m) (hn : Thins n) :
    Thins (if c then m else n) :=
  Decision.Moves.ite hm hn

theorem reading (g : Batch → Except PersistError α) : Thins (reading g) :=
  Decision.Moves.reading fun _ => Thinned.refl

/-- A decision that leaves every line lets go of nothing. -/
theorem of_relines {m : Deciding α} (h : Relines id m) : Thins m := fun b a b' hr hb =>
  have hsame := h b a b' hr hb
  ⟨hsame.orders, _, hsame.lines.trans (Lines.thinned_all _).symm⟩

end Thins

theorem Hold.letGoOf_thins (queue journey : ℕ) : Thins (letGoOf queue journey) := by
  intro b a b' h hb
  have hgone := letGoOf_relines queue journey b a b' h hb
  refine ⟨hgone.orders, fun q j => decide (¬(q = queue ∧ j = journey)), ?_⟩
  rw [hgone.lines, Lines.set, Lines.thinned]
  simp only [Lines.mk.injEq, and_true]
  funext q
  by_cases hq : q = queue
  · subst hq
    have hnodup : (b.view.lines.held q).Nodup := Numbered.nodup_line (hb.queued .held q)
    rw [Function.update_self, hnodup.erase_eq_filter]
    simp [bne, beq_eq_decide]
  · simp [hq]

namespace Origin

theorem count_thins (holder : ℕ) (move : Option Bool) (places : List Hold) :
    Thins (count holder move places) := by
  have hput : ∀ value : Option Content, Change.Proper ⟨.origin, .id holder, value⟩ →
      Thins (put .origin (.id holder) value) := fun value hvalue =>
    .of_relines (.of_writes (.put_one hvalue) fun k => by cases k <;> decide)
  refine .bind (.reading _) fun found => .ite ?_ (hput _ trivial)
  exact .bind (.forM _ fun queue _ => Hold.letGoOf_thins _ _) fun _ => hput _ trivial

theorem counted_record_thins (record : JourneyRecord) (places : List Hold) :
    Thins (do
      counted record places
      putRecord .journey record.journey record) := by
  have hfor : ∀ kept holder, Thins (countedFor kept holder places) := by
    rintro kept ⟨holder, isOpen⟩
    cases holder with
    | none => exact .pure _
    | some holder => exact .ite (count_thins _ _ _) (.pure _)
  have hcounted : Thins (counted record places) :=
    .bind (.reading _) fun _ => .bind (hfor _ _) fun _ => hfor _ _
  refine .bind hcounted fun _ => ?_
  exact .of_relines (.of_writes (.put_one rfl) fun k => by cases k <;> decide)

end Origin

/-! ## What the operations do in a hall -/

/-- What is kept of the holders, and who stands where. -/
structure Hall where
  books : Books
  lines : Lines

def View.hall (v : View) : Hall := ⟨v.book, v.lines⟩

/-- Those without a place once the Journeys are written and some places let go of are gone, and the
ones it places join. -/
noncomputable def Opening.lines (opening : Opening) (hall : Hall) : Lines :=
  let left := (hall.books.write Origin.cap (taken opening.places) opening.moves).leave
    opening.leaves
  opening.places.foldl (fun lines kept => lines.join kept) (hall.lines.staying left.seats)

noncomputable def HandOn.lines (asked : HandOn) (hall : Hall) : Lines :=
  let requeued := asked.requeued.foldl
    (fun lines queue => lines.toTheEnd queue asked.claim.journey) (asked.opening.lines hall)
  let failed := match asked.failed with
    | some failure => requeued.enter failure.queue asked.claim.journey
    | none => requeued
  asked.cleared.foldl (fun lines queue => lines.clear queue asked.claim.journey) failed

noncomputable def Publication.lines (asked : Publication) (hall : Hall) : Lines :=
  match asked.dead with
  | some dead => (asked.opening.lines hall).keep dead
  | none => asked.opening.lines hall

noncomputable def Replay.lines (asked : Replay) (hall : Hall) : Lines :=
  asked.opening.lines { hall with lines := hall.lines.replay asked.queue asked.message }

/-- What is said once a Journey is written uncounted. -/
def JourneyRecord.said (record : JourneyRecord) (books : Books) : Books :=
  { books with
    flags := Function.update
      (Function.update books.flags (false, record.journey) (some (Origin.flag record false)))
      (true, record.journey) (some (Origin.flag record true)) }

/-- The hall once an operation that moves it came out. -/
noncomputable def Op.does (hall : Hall) : Op → Hall
  | .put .journey _ (.journey record) => { hall with books := record.said hall.books }
  | .publish asked => ⟨asked.opening.books hall.books, asked.lines hall⟩
  | .replay asked => ⟨asked.opening.books hall.books, asked.lines hall⟩
  | .handOn asked => ⟨asked.opening.books hall.books, asked.lines hall⟩
  | .turn asked => ⟨asked.handOn.opening.books hall.books, asked.handOn.lines hall⟩
  | _ => hall

/-! ## What the operations do to the lines -/

/-- From a batch in order to a later one, the lines become what `g` makes of the hall. -/
structure Halled (g : Hall → Lines) (b b' : Batch) : Prop where
  orders : Orders b b'
  lines : b'.view.lines = g b.view.hall

def Halls {α : Type} (g : Hall → Lines) (m : Deciding α) : Prop :=
  Decision.Moves (fun b b' => b.InOrder → Halled g b b') m

theorem Halls.bind {α β : Type} {g : Hall → Lines} {g' : Lines → Lines} {m : Deciding α}
    {f : α → Deciding β} (hm : Halls g m) (hf : ∀ a, Relines g' (f a)) :
    Halls (g' ∘ g) (m >>= f) := by
  intro b a b' h hb
  obtain ⟨x, b₁, h₁, h₂⟩ := Decision.bind_ok_iff.mp h
  have hfirst := hm b x b₁ h₁ hb
  have hsecond := hf x b₁ a b' h₂ hfirst.orders.inOrder
  exact ⟨hfirst.orders.trans hsecond.orders, by rw [hsecond.lines, hfirst.lines]; rfl⟩

/-- Journeys written and places let go of, and then the ones it places placed. -/
theorem Opening.halls (opening : Opening) {m : Deciding Unit} (hthins : Thins m)
    (hbooks : Rebooks (fun book =>
      (book.write Origin.cap (taken opening.places) opening.moves).leave opening.leaves) m) :
    Halls opening.lines (m >>= fun _ => opening.places.forM Hold.keep) := by
  intro b a b' h hb
  obtain ⟨_, b₁, hfirst, hplaces⟩ := Decision.bind_ok_iff.mp h
  have hthinned := hthins b _ b₁ hfirst hb
  have hbooked := hbooks b _ b₁ hfirst hb
  have hjoined := Relines.forM opening.places (fun kept _ => Hold.keep_relines kept) b₁ _ b' hplaces
    hthinned.orders.inOrder
  refine ⟨hthinned.orders.trans hjoined.orders, ?_⟩
  have hseats : b₁.view.seats = ((b.view.book.write Origin.cap (taken opening.places)
      opening.moves).leave opening.leaves).seats := congrArg Book.seats hbooked.book
  rw [hjoined.lines, hthinned.staying, hseats]
  rfl

theorem Thins.message (message : MessageRecord) :
    Thins (putRecord .message message.message message) :=
  .of_relines (.of_writes (.put_one rfl) fun k => by cases k <;> decide)

theorem Rebooks.message (message : MessageRecord) :
    Rebooks id (putRecord .message message.message message) :=
  .of_writes (.of_writes (.put_one rfl) fun k => by cases k <;> decide) (.put_one rfl) (by decide)

theorem Book.leave_none {κ η θ : Type} (B : Book κ η θ) : B.leave ∅ = B := by
  simp [Book.leave]

namespace Publication

theorem writes_halls (asked : Publication) : Halls asked.lines asked.writes := by
  have hfirst : Halls asked.opening.lines (do
      (do putRecord .message asked.message.message asked.message
          asked.journeys.forM fun journey => do
            Origin.counted journey asked.held
            putRecord .journey journey.journey journey)
      asked.held.forM Hold.keep) := by
    refine asked.opening.halls ?_ ?_
    · refine .bind (.message _) fun _ => ?_
      exact .forM _ fun journey _ => Origin.counted_record_thins journey _
    · refine ((Rebooks.message asked.message).bind fun _ =>
        Origin.journeys_books asked.journeys asked.held ∅).congr fun book => ?_
      exact (Book.leave_none _).symm
  have hwrites : asked.writes = (do
      (do (do putRecord .message asked.message.message asked.message
              asked.journeys.forM fun journey => do
                Origin.counted journey asked.held
                putRecord .journey journey.journey journey)
          asked.held.forM Hold.keep)
      asked.keepDead) := by
    simp only [writes, bind_assoc]
  rw [hwrites]
  unfold keepDead
  intro b a b' h hb
  cases hdead : asked.dead with
  | none =>
      rw [hdead] at h
      have hhall := (hfirst.bind fun _ => Relines.pure ()) b a b' h hb
      refine ⟨hhall.orders, ?_⟩
      rw [hhall.lines, lines, hdead]
      rfl
  | some dead =>
      rw [hdead] at h
      have hhall := (hfirst.bind fun _ => Dead.keep_relines dead) b a b' h hb
      refine ⟨hhall.orders, ?_⟩
      rw [hhall.lines, lines, hdead]
      rfl

end Publication

theorem Replay.writes_halls (asked : Replay) : Halls asked.opening.lines asked.writes := by
  refine asked.opening.halls ?_ ?_
  · exact .forM _ fun journey _ => Origin.counted_record_thins journey _
  · refine (Origin.journeys_books asked.journeys asked.held ∅).congr fun book => ?_
    exact (Book.leave_none _).symm

namespace HandOn

/-- The Journeys and Messages of a hand-on, and the places it lets go of. -/
def opens (asked : HandOn) : Deciding Unit := do
  Origin.counted asked.result asked.queued
  putRecord .journey asked.result.journey asked.result
  asked.messages.forM fun message => putRecord .message message.message message
  asked.next.forM fun next => do
    Origin.counted next asked.queued
    putRecord .journey next.journey next
  asked.leaves.forM fun queue => Hold.letGoOf queue asked.claim.journey

theorem opens_eq (asked : HandOn) : asked.opens = (do
    (do Origin.counted asked.result asked.queued
        putRecord .journey asked.result.journey asked.result)
    asked.messages.forM fun message => putRecord .message message.message message
    asked.next.forM fun next => do
      Origin.counted next asked.queued
      putRecord .journey next.journey next
    asked.leaves.forM fun queue => Hold.letGoOf queue asked.claim.journey) := by
  rw [opens, bind_assoc]

theorem opens_thins (asked : HandOn) : Thins asked.opens := by
  rw [opens_eq]
  refine .bind (Origin.counted_record_thins _ _) fun _ => ?_
  refine .bind (.forM _ fun message _ => .message message) fun _ => ?_
  refine .bind (.forM _ fun next _ => Origin.counted_record_thins next _) fun _ => ?_
  exact .forM _ fun queue _ => Hold.letGoOf_thins queue _

theorem opens_books (asked : HandOn) : Rebooks (fun book =>
    (book.write Origin.cap (taken asked.opening.places) asked.opening.moves).leave
      asked.opening.leaves) asked.opens := by
  have hmessages : Rebooks id
      (asked.messages.forM fun message => putRecord .message message.message message) := by
    refine (Rebooks.forM asked.messages fun message _ => Rebooks.message message).congr
      fun book => ?_
    induction asked.messages with
    | nil => rfl
    | cons message messages ih => exact ih
  rw [opens_eq]
  refine ((Origin.counted_record_books asked.result asked.queued).bind fun _ =>
    hmessages.bind fun _ => (Origin.journeys_books asked.next asked.queued ∅).bind fun _ =>
    Origin.letGo_books asked.claim.journey asked.leaves).congr fun book => ?_
  rfl

theorem writes_halls (asked : HandOn) (now : ℤ) : Halls asked.lines (asked.writes now) := by
  have hfirst : Halls asked.opening.lines (do
      asked.opens
      asked.queued.forM Hold.keep) := asked.opening.halls asked.opens_thins asked.opens_books
  have hrequeued := Relines.forM asked.requeued fun queue _ =>
    Hold.toTheEnd_relines queue asked.claim.journey
  have hcleared := Relines.forM asked.cleared fun queue _ =>
    Failed.clear_relines queue asked.claim.journey
  have hfails : Relines (fun lines => match asked.failed with
      | some failure => Lines.enter failure.queue asked.claim.journey lines
      | none => lines) (asked.fails now) := by
    unfold fails
    cases asked.failed with
    | none => exact Relines.pure ()
    | some failure => exact Failed.enter_relines _ failure now
  have hwaiting : Relines id (asked.waiting now) := by
    unfold waiting
    cases asked.waits with
    | none => exact Relines.pure ()
    | some wait => exact Hold.wait_relines _ _ _
  have hwrites : asked.writes now = (do
      (do asked.opens
          asked.queued.forM Hold.keep)
      asked.requeued.forM fun queue => Hold.toTheEnd queue asked.claim.journey
      asked.fails now
      asked.cleared.forM fun queue => Failed.clear queue asked.claim.journey
      asked.waiting now) := by
    simp only [writes, opens, bind_assoc]
  rw [hwrites]
  exact hfirst.bind fun _ => hrequeued.bind fun _ => hfails.bind fun _ => hcleared.bind fun _ =>
    hwaiting

theorem decide_lines {asked : HandOn} {now : ℤ} {b b' : Batch} {yes : Bool} (hb : b.InOrder)
    (h : (asked.decide now).run b = .ok (yes, b')) (hheld : asked.Held b) :
    b'.view.lines = asked.lines b.view.hall := by
  obtain ⟨stored, hs, hheld⟩ := hheld
  rw [decide_of_held hb.proper hs hheld] at h
  obtain ⟨_, b₁, hwrites, hrest⟩ := Decision.bind_ok_iff.mp h
  obtain ⟨_, b₂, hcloses, hyes⟩ := Decision.bind_ok_iff.mp hrest
  obtain ⟨-, rfl⟩ := pure_ok.mp hyes
  have hwrote := writes_halls asked now b _ b₁ hwrites hb
  have hends : Relines id (asked.closes stored.claim now) :=
    .of_writes (closes_writes _ _ _) fun k => by cases k <;> decide
  have hclosed := hends b₁ _ b₂ hcloses hwrote.orders.inOrder
  rw [hclosed.lines, hwrote.lines]
  rfl

end HandOn

/-! ## Where an operation moves the hall -/

/-- Whether an operation moves the hall: one that opens something, or writes a Journey uncounted. -/
def Op.Moves (b : Batch) (op : Op) : Prop := op.raw ∨ ∃ opening, op.Opens b opening

section Decide

variable {b b' : Batch}

/-- What an operation does to the lines: what it asks for, where it opens something, and nothing
elsewhere. -/
def Op.Lined (op : Op) (b b' : Batch) : Prop :=
  (∃ opening, op.Opens b opening ∧ b'.view.lines = (op.does b.view.hall).lines) ∨
    (∀ opening, ¬op.Opens b opening) ∧ b'.view.lines = b.view.lines

theorem Turn.decide_lined {turn : Turn} {now : ℤ} {yes : Bool} (hb : b.InOrder)
    (h : (turn.decide now).run b = .ok (yes, b')) : (Op.turn turn).Lined b b' := by
  have hwrites : Relines id (write turn.instances turn.keys turn.unkeyed) :=
    .of_writes (write_writes _ _ _) fun k => by cases k <;> decide
  by_cases hopens : ∃ opening, (Op.turn turn).Opens b opening
  · obtain ⟨opening, hopens⟩ := hopens
    refine .inl ⟨opening, hopens, ?_⟩
    obtain ⟨hturn, hheld⟩ : turn.Current b ∧ turn.handOn.Held b := by
      cases hopens with
      | turn hturn hheld => exact ⟨hturn, hheld⟩
    obtain ⟨current, hcurrent, hiff⟩ := current_run hb.proper turn
    unfold decide at h
    rw [Decision.run_bind_ok hcurrent, if_pos (hiff.mpr hturn)] at h
    obtain ⟨done, b₁, hhand, hrest⟩ := Decision.bind_ok_iff.mp h
    obtain rfl : done = true := ((HandOn.decide_books hb hhand).1 hheld).1
    obtain ⟨_, b₂, hwrite, hpure⟩ := Decision.bind_ok_iff.mp hrest
    obtain ⟨-, rfl⟩ := pure_ok.mp hpure
    have horders := HandOn.decide_ordering turn.handOn now b _ b₁ hhand hb
    rw [(hwrites b₁ _ b₂ hwrite horders.inOrder).lines, HandOn.decide_lines hb hhand hheld]
    rfl
  · rw [not_exists] at hopens
    refine .inr ⟨hopens, ?_⟩
    rcases decide_ok hb.proper h with ⟨rfl, -⟩ | ⟨b₁, hhand, hwrite, rfl⟩
    · rfl
    · have hturn := (decide_done hb.proper h).1
      have hnot : ¬turn.handOn.Held b := fun hheld => hopens _ (.turn hturn hheld)
      obtain rfl : b₁ = b := (HandOn.decide_books hb hhand).2 hnot
      exact (hwrites b₁ _ b' hwrite hb).lines

theorem Publication.decide_lined {asked : Publication} {now : ℤ} {epoch : ℕ} {decided : Decided}
    (hb : b.InOrder) (h : (asked.decide digest now epoch).run b = .ok (decided, b')) :
    (Op.publish asked).Lined b b' := by
  rcases decide_ok h with ⟨hmarker, rfl, -⟩ | ⟨hmarker, b₁, b₂, held, -, hwrites, htaking, rfl⟩
  · refine .inr ⟨?_, rfl⟩
    intro opening hopens
    cases hopens with
    | publish hnone => exact absurd (hmarker.symm.trans hnone) (by simp)
  · refine .inl ⟨_, .publish hmarker, ?_⟩
    have hwrote := writes_halls asked b _ b₁ hwrites hb
    have htakes : ∀ until', Relines id (taking now until' epoch asked.claims) := fun until' =>
      .of_writes (taking_writes _ _ _ _) fun k => by cases k <;> decide
    have htook := htakes _ b₁ _ b₂ htaking hwrote.orders.inOrder
    have hmark : Relines id (put .publication (.id asked.message.message)
        (some (.digest (digest asked)))) :=
      .of_writes (.put_one trivial) fun k => by cases k <;> decide
    have hmarked := hmark b₂ () _ rfl htook.orders.inOrder
    rw [hmarked.lines, htook.lines, hwrote.lines]
    rfl

theorem Replay.decide_lined {asked : Replay} {replayed : Replayed} (hb : b.InOrder)
    (h : asked.decide.run b = .ok (replayed, b')) : (Op.replay asked).Lined b b' := by
  have hnone : (∀ entry, b.view.standing asked.queue asked.message ≠ .entered entry) → b' = b →
      (Op.replay asked).Lined b b' := by
    rintro hstands rfl
    refine .inr ⟨?_, rfl⟩
    intro opening hopens
    cases hopens with
    | replay hentered => exact hstands _ hentered
  rcases decide_ok hb h with ⟨hstands, -, hsame⟩ | ⟨hstands, -, hsame⟩ |
    ⟨n, entry, hstands, -, hwrites⟩
  · exact hnone (by simp [hstands]) hsame
  · exact hnone (by simp [hstands]) hsame
  · refine .inl ⟨_, .replay hstands, ?_⟩
    have hfind := Numbered.standing_entered.mp hstands
    obtain ⟨hentry, habout⟩ := (hb.queued .dead asked.queue).find_eq_some.mp hfind
    let gone := goneFrom b .dead asked.queue n asked.message (some .nothing)
    have hgone : Orders b gone :=
      goneFrom_orders hb hentry habout (.inr (rfl : some Content.nothing = _)) trivial
    have hadds : Adds Dead.kinds.all b gone := goneFrom_adds (k := .dead) b asked.queue n trivial
    have hbook : gone.view.book = b.view.book := by
      have hseats : gone.view.seats = b.view.seats := View.seats_congr fun q j => by
        rw [View.placeOf, View.placeOf, hadds.seat (by decide)]
      rw [hadds.book (by decide) (by decide), hseats]
      rfl
    have hwrote := writes_halls asked _ _ _ hwrites hgone.inOrder
    have hlines : gone.view.lines = b.view.lines.replay asked.queue asked.message :=
      remembered_lines hb hentry habout
    rw [hwrote.lines, View.hall, hbook, hlines]
    rfl

/-- Every operation moves the lines as what it asks for does. -/
theorem Op.decide_lined {op : Op} (hmade : op.Made) {m : Moment} {done : Done} (hb : b.InOrder)
    (h : (op.decide digest m).run b = .ok (done, b')) : op.Lined b b' := by
  have haudits : ∀ entry, Relines id (XmipPersist.audit entry) := fun entry =>
    .of_writes (audit_writes entry) fun k => by cases k <;> decide
  have hother : (∀ opening, ¬op.Opens b opening) →
      (∀ k : Queues, ∀ kind ∈ k.kinds.all, kind ∉ op.kinds) → op.Lined b b' :=
    fun hnone hkinds => by
      have hsame : Relines id (op.decide digest m) := .of_writes (Op.decide_writes hmade m) hkinds
      exact .inr ⟨hnone, (hsame b _ b' h hb).lines⟩
  cases op with
  | put kind key value =>
      refine hother (fun _ hopens => by cases hopens) fun k => ?_
      simp only [kinds]
      rcases hmade with ⟨_, rfl, -⟩ | ⟨_, rfl, -⟩ <;> cases k <;> decide
  | claim asked lease =>
      exact hother (fun _ hopens => by cases hopens) fun k => by
        simp only [kinds]
        cases k <;> decide
  | renew claims lease =>
      exact hother (fun _ hopens => by cases hopens) fun k => by
        simp only [kinds]
        cases k <;> decide
  | release held =>
      exact hother (fun _ hopens => by cases hopens) fun k => by
        simp only [kinds]
        cases k <;> decide
  | audit entry =>
      exact hother (fun _ hopens => by cases hopens) fun k => by
        simp only [kinds]
        cases k <;> decide
  | kept number =>
      exact hother (fun _ hopens => by cases hopens) fun k => by
        simp only [kinds]
        cases k <;> decide
  | handOn asked =>
      obtain ⟨yes, b₁, hdecide, hpure⟩ := Decision.bind_ok_iff.mp h
      obtain ⟨-, rfl⟩ := pure_ok.mp hpure
      by_cases hheld : asked.Held b
      · exact .inl ⟨_, .handOn hheld, HandOn.decide_lines hb hdecide hheld⟩
      · refine .inr ⟨?_, by rw [(HandOn.decide_books hb hdecide).2 hheld]⟩
        intro opening hopens
        cases hopens with
        | handOn hheld' => exact hheld hheld'
  | turn asked =>
      obtain ⟨yes, b₁, hdecide, hpure⟩ := Decision.bind_ok_iff.mp h
      obtain ⟨-, rfl⟩ := pure_ok.mp hpure
      exact Turn.decide_lined hb hdecide
  | publish asked =>
      obtain ⟨decided, b₁, hdecide, hrest⟩ := Decision.bind_ok_iff.mp h
      have hlined := Publication.decide_lined hb hdecide
      cases decided with
      | before held =>
          obtain ⟨-, rfl⟩ := pure_ok.mp hrest
          exact hlined
      | now held =>
          obtain ⟨_, b₂, haudit, hpure⟩ := Decision.bind_ok_iff.mp hrest
          obtain ⟨-, rfl⟩ := pure_ok.mp hpure
          have horders := Publication.decide_ordering asked m.now m.epoch b _ b₁ hdecide hb
          have hlines := (haudits asked.audit b₁ _ b₂ haudit horders.inOrder).lines
          simp only [Op.Lined, hlines]
          exact hlined
  | replay asked =>
      obtain ⟨replayed, b₁, hdecide, hrest⟩ := Decision.bind_ok_iff.mp h
      have hlined := Replay.decide_lined hb hdecide
      cases replayed with
      | before =>
          obtain ⟨-, rfl⟩ := pure_ok.mp hrest
          exact hlined
      | absent =>
          obtain ⟨-, rfl⟩ := pure_ok.mp hrest
          exact hlined
      | now =>
          obtain ⟨_, b₂, haudit, hpure⟩ := Decision.bind_ok_iff.mp hrest
          obtain ⟨-, rfl⟩ := pure_ok.mp hpure
          have horders := Replay.decide_ordering asked b _ b₁ hdecide hb
          have hlines := (haudits asked.audit b₁ _ b₂ haudit horders.inOrder).lines
          simp only [Op.Lined, hlines]
          exact hlined

open Classical in
/-- The hall once an operation came out. -/
theorem Op.decide_hall {op : Op} (hmade : op.Made) {m : Moment} {done : Done} (hb : b.InOrder)
    (h : (op.decide digest m).run b = .ok (done, b')) :
    b'.view.hall = if op.Moves b then op.does b.view.hall else b.view.hall := by
  have hlined := Op.decide_lined hmade hb h
  by_cases hraw : op.raw
  · rw [if_pos (.inl hraw)]
    cases op with
    | put kind key value =>
        obtain rfl : kind = .journey := hraw
        obtain ⟨record, rfl, rfl⟩ : ∃ record : JourneyRecord,
            key = .id record.journey ∧ value = Form.bytes record := by
          rcases hmade with ⟨_, hkind, -⟩ | ⟨record, -, hkey, hvalue⟩
          · cases hkind
          · exact ⟨record, hkey, hvalue⟩
        obtain ⟨_, b₁, hput, hpure⟩ := Decision.bind_ok_iff.mp h
        obtain ⟨-, rfl⟩ := pure_ok.mp hpure
        have hlines : b₁.view.lines = b.view.lines := by
          rcases hlined with ⟨opening, hopens, -⟩ | ⟨-, hlines⟩
          · cases hopens
          · exact hlines
        rw [View.hall, hlines, put_ok.mp hput, Origin.put_journey record]
        rfl
    | _ => exact hraw.elim
  · rcases Op.decide_books hmade hraw hb h with ⟨opening, hopens, hbook⟩ | ⟨hnone, hbook⟩
    · rw [if_pos (.inr ⟨opening, hopens⟩)]
      rcases hlined with ⟨_, -, hlines⟩ | ⟨hnone, -⟩
      · rw [View.hall, hbook, hlines]
        cases hopens <;> rfl
      · exact absurd hopens (hnone opening)
    · have hstill : ¬op.Moves b := by
        rintro (hraw' | ⟨opening, hopens⟩)
        · exact hraw hraw'
        · exact hnone opening hopens
      rw [if_neg hstill]
      rcases hlined with ⟨opening, hopens, -⟩ | ⟨-, hlines⟩
      · exact absurd hopens (hnone opening)
      · rw [View.hall, hbook, hlines]
        rfl

end Decide

end XmipPersist
