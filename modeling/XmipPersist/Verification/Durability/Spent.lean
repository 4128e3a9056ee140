import XmipPersist.Verification.Instance.Turns
import XmipPersist.Verification.Writer.Comes

/-! # Operations that find nothing left to do

Over records of their own kinds an operation is answered and leaves its stage as it was, is
refused, or is answered and writes; which of them is said by the records it finds. So a group
leaves nothing to write exactly where none of its operations finds anything to do.
-/

namespace XmipPersist

variable {digest : Publication → Bytes}

/-! ## What an operation finds -/

/-- No claim is held as `asked` says. -/
def Batch.NotHeld (b : Batch) (asked : Claim) : Prop :=
  ∀ stored, b.claimOn asked.journey = some stored → ¬stored.heldBy asked

/-- A hand-on's claim was handed on under it. -/
def HandOn.Ended (asked : HandOn) (b : Batch) : Prop :=
  ∃ stored, b.claimOn asked.claim.journey = some stored ∧ stored.standing = .handedOn ∧
    stored.claim.is asked.claim

/-- A turn that finds nothing to do: late, or its claim no longer its holder's, and where that was
handed on, none of its own writes left to make. -/
def Turn.Spent (turn : Turn) (b : Batch) : Prop :=
  turn.Current b → b.NotHeld turn.handOn.claim ∧ (turn.handOn.Ended b →
    turn.instances = [] ∧ turn.keys = [] ∧
      ∀ gone ∈ turn.unkeyed, b.ownerOf gone.key ≠ some gone.identifier)

/-- An operation that finds nothing left to do: a claim held already, a claim no longer held by
who asks to renew it, to give it back or to hand on under it, a turn late or done, a Publication
written before, a Message with no dead entry, an audit record not the keeper's next. -/
def Op.Spent (digest : Publication → Bytes) (m : Moment) (b : Batch) : Op → Prop
  | .put _ _ _ => False
  | .claim asked _ => ∃ stored, b.claimOn asked.journey = some stored ∧ Claim.live m.now stored
  | .renew claims _ => ∀ asked ∈ claims, b.NotHeld asked
  | .release asked => b.NotHeld asked
  | .handOn asked => b.NotHeld asked.claim
  | .turn asked => asked.Spent b
  | .publish asked =>
      b.read (markerPlace asked.message.message) = .ok (some (.digest (digest asked)))
  | .replay asked =>
      ∀ n, b.read (.deadMessage, .pair asked.queue asked.message) ≠ .ok (some (.number n))
  | .audit _ => False
  | .kept number => b.read (.sequence, .kept) >>= numbered ≠ .ok number

/-- A Publication whose Message was published before as another. -/
def Op.Refused (digest : Publication → Bytes) (b : Batch) : Op → Prop
  | .publish asked => ∃ found, b.read (markerPlace asked.message.message) = .ok (some found) ∧
      found ≠ .digest (digest asked)
  | _ => False

/-! ## Hand-ons and turns -/

variable {b : Batch}

namespace HandOn

theorem decide_notHeld {asked : HandOn} (hb : b.Proper) (h : b.NotHeld asked.claim) (now : ℤ) :
    ∃ yes, (asked.decide now).run b = .ok (yes, b) ∧
      (yes = true ↔ asked.Ended b) := by
  unfold decide Ended
  rw [Decision.run_bind_ok (hb.stored_run asked.claim)]
  cases hs : b.claimOn asked.claim.journey with
  | none => exact ⟨false, rfl, by simp⟩
  | some stored =>
      obtain ⟨claim, standing⟩ := stored
      cases standing with
      | handedOn => exact ⟨claim.is asked.claim, rfl, by simp⟩
      | released => exact ⟨false, rfl, by simp⟩
      | held =>
          have hnot := h _ hs
          simp only [Stored.heldBy, true_and, decide_eq_true_eq] at hnot
          refine ⟨false, ?_, by simp⟩
          simp only [if_neg hnot]
          rfl

/-- A hand-on under a claim its holder holds is done, and its claim is written. -/
theorem decide_held {asked : HandOn} (hb : b.Proper) {stored : Stored}
    (hs : b.claimOn asked.claim.journey = some stored) (hheld : stored.heldBy asked.claim)
    (now : ℤ) : ∃ b', (asked.decide now).run b = .ok (true, b') ∧ b'.Proper ∧
      b.changes.length < b'.changes.length := by
  obtain ⟨claim, standing⟩ := stored
  obtain ⟨hstanding, htoken, hfence⟩ := Stored.heldBy_iff.mp hheld
  simp only at hstanding
  subst hstanding
  have his : claim.is asked.claim = true := by simpa [Claim.is] using ⟨htoken, hfence⟩
  obtain ⟨_, b₁, hwrites, hb₁⟩ := asked.writes_comes now b hb
  obtain ⟨after, hcloses, -⟩ := asked.closes_run claim now b₁
  have hadds := Claim.hold_adds after b₁
  obtain ⟨added, he, -⟩ := (writes_writes asked now b _ b₁ hwrites).changes
  refine ⟨_, ?_, hadds.proper hb₁, ?_⟩
  · unfold decide
    rw [Decision.run_bind_ok (hb.stored_run asked.claim), hs]
    simp only [his, if_true]
    rw [Decision.run_bind_ok hwrites, Decision.run_bind_ok hcloses]
    rfl
  · simp only [Batch.put_changes, he, List.length_append, List.length_singleton]
    omega

end HandOn

namespace Turn

theorem decide_spent {turn : Turn} (hb : b.Proper) (h : turn.Spent b) (now : ℤ) :
    ∃ yes, (turn.decide now).run b = .ok (yes, b) := by
  obtain ⟨yes, hcurrent, hiff⟩ := current_run hb turn
  unfold decide
  rw [Decision.run_bind_ok hcurrent]
  cases yes with
  | false => exact ⟨false, rfl⟩
  | true =>
      obtain ⟨hnot, hidle⟩ := h (hiff.mp rfl)
      obtain ⟨done, hhand, hdone⟩ := HandOn.decide_notHeld hb hnot now
      rw [if_pos rfl, Decision.run_bind_ok hhand]
      cases done with
      | false => exact ⟨false, rfl⟩
      | true =>
          obtain ⟨hinstances, hkeys, hunkeyed⟩ := hidle (hdone.mp rfl)
          rw [if_pos rfl, hinstances, hkeys, Decision.run_bind_ok (unkeyed_run hb hunkeyed)]
          exact ⟨true, rfl⟩

theorem decide_unspent {turn : Turn} (hb : b.Proper) (h : ¬turn.Spent b) (now : ℤ) :
    ∃ b', (turn.decide now).run b = .ok (true, b') ∧ b.changes.length < b'.changes.length := by
  have hcurrent : turn.Current b := by
    by_contra hnot
    exact h fun hcurrent => absurd hcurrent hnot
  obtain ⟨yes, hrun, hiff⟩ := current_run hb turn
  obtain rfl : yes = true := hiff.mpr hcurrent
  unfold decide
  rw [Decision.run_bind_ok hrun, if_pos rfl]
  by_cases hheld : b.NotHeld turn.handOn.claim
  · -- Handed on before, it is its own writes that are left.
    obtain ⟨done, hhand, hdone⟩ := HandOn.decide_notHeld hb hheld now
    obtain ⟨_, b', hwrite, -⟩ := write_comes turn.instances turn.keys turn.unkeyed b hb
    have hlength := write_length hb hwrite
    have hended : turn.handOn.Ended b := by
      by_contra hnot
      exact h fun _ => ⟨hheld, fun hended => absurd hended hnot⟩
    obtain rfl : done = true := hdone.mpr hended
    rw [Decision.run_bind_ok hhand, if_pos rfl, Decision.run_bind_ok hwrite]
    refine ⟨b', rfl, lt_of_le_of_ne hlength.1 fun hsame => ?_⟩
    exact h fun _ => ⟨hheld, fun _ => (hlength.2 hsame.symm).2⟩
  · simp only [Batch.NotHeld, not_forall, not_not] at hheld
    obtain ⟨stored, hs, hheld⟩ := hheld
    obtain ⟨b₁, hhand, hb₁, hmore⟩ := HandOn.decide_held hb hs hheld now
    obtain ⟨_, b', hwrite, -⟩ := write_comes turn.instances turn.keys turn.unkeyed b₁ hb₁
    rw [Decision.run_bind_ok hhand, if_pos rfl, Decision.run_bind_ok hwrite]
    exact ⟨b', rfl, hmore.trans_le (write_length hb₁ hwrite).1⟩

end Turn

/-! ## The other operations under a claim -/

namespace Claim

theorem take_spent {claim : Claim} {now : ℤ} (hb : b.Proper) {stored : Stored}
    (hs : b.claimOn claim.journey = some stored) (hlive : live now stored) (until' : ℤ)
    (epoch : ℕ) : ∃ held, (claim.take now until' epoch).run b = .ok (held, b) := by
  unfold take
  rw [Decision.run_bind_ok (hb.stored_run claim), hs]
  simp only [hlive, if_true]
  exact ⟨_, rfl⟩

theorem take_unspent {claim : Claim} {now : ℤ} (hb : b.Proper)
    (h : ¬∃ stored, b.claimOn claim.journey = some stored ∧ live now stored) (until' : ℤ)
    (epoch : ℕ) : ∃ held b', (claim.take now until' epoch).run b = .ok (held, b') ∧
      b.changes.length < b'.changes.length := by
  obtain ⟨held, b', hrun, -⟩ := claim.take_comes now until' epoch b hb
  refine ⟨held, b', hrun, ?_⟩
  rcases take_ok hb hrun with ⟨stored, hs, hlive, -⟩ | ⟨after, -, -, rfl⟩
  · exact absurd ⟨stored, hs, hlive⟩ h
  · simp

theorem renew_spent {claims : List Claim} (hb : b.Proper) (h : ∀ asked ∈ claims, b.NotHeld asked)
    (lease now : ℤ) : (renew lease now claims).run b = .ok ([], b) := by
  induction claims with
  | nil => rfl
  | cons claim claims ih =>
      have hone : (renewOne lease now claim).run b = .ok ([], b) := by
        unfold renewOne
        rw [Decision.run_bind_ok (hb.stored_run claim)]
        cases hs : b.claimOn claim.journey with
        | none => rfl
        | some stored =>
            simp only [if_neg (h claim (by simp) stored hs)]
            rfl
      have hrest := ih fun asked hasked => h asked (by simp [hasked])
      unfold renew
      rw [Decision.run_bind_ok hone, Decision.run_bind_ok hrest]
      rfl

theorem renew_unspent {claims : List Claim} (hb : b.Proper)
    (h : ¬∀ asked ∈ claims, b.NotHeld asked) (lease now : ℤ) :
    ∃ held b', (renew lease now claims).run b = .ok (held, b') ∧
      b.changes.length < b'.changes.length := by
  obtain ⟨held, b', hrun, -⟩ := renew_comes lease now claims b hb
  refine ⟨held, b', hrun, ?_⟩
  simp only [Batch.NotHeld, not_forall, not_not] at h
  obtain ⟨asked, hasked, stored, hs, hheld⟩ := h
  obtain ⟨added, he, hcount⟩ := renew_count asked.journey hb hrun
  have hmem : asked ∈ claims.filter fun claim => claim.journey = asked.journey ∧
      (b.claimOn asked.journey).map (fun s => s.tenure.own) =
        some (claim.token, claim.fence, true) := by
    simp [hasked, hs, Stored.heldBy_iff_own.mp hheld]
  have hone := List.length_pos_of_mem hmem
  have hadded : added ≠ [] := by
    rintro rfl
    simp only [claimsOf, List.filterMap_nil, List.length_nil] at hcount
    omega
  have hpos := List.length_pos_iff.mpr hadded
  rw [he, List.length_append]
  omega

theorem release_spent {claim : Claim} (hb : b.Proper) (h : b.NotHeld claim) :
    claim.release.run b = .ok (false, b) := by
  unfold release
  rw [Decision.run_bind_ok (hb.stored_run claim)]
  cases hs : b.claimOn claim.journey with
  | none => rfl
  | some stored =>
      simp only [if_neg (h stored hs)]
      rfl

theorem release_unspent {claim : Claim} (hb : b.Proper) (h : ¬b.NotHeld claim) :
    ∃ b', claim.release.run b = .ok (true, b') ∧ b.changes.length < b'.changes.length := by
  simp only [Batch.NotHeld, not_forall, not_not] at h
  obtain ⟨stored, hs, hheld⟩ := h
  unfold release
  rw [Decision.run_bind_ok (hb.stored_run claim), hs]
  simp only [hheld, if_true]
  exact ⟨_, rfl, by simp⟩

end Claim

/-! ## Every operation -/

/-- Where an index has a dead Message, or that it has none. -/
theorem Batch.Proper.dead_index (hb : b.Proper) (queue message : ℕ) :
    ∃ found, b.read (.deadMessage, .pair queue message) = .ok found ∧
      ((∃ n, found = some (.number n)) ∨ found = some .nothing ∨ found = none) := by
  obtain ⟨found, hread, hholds⟩ := hb (.deadMessage, .pair queue message)
  refine ⟨found, hread, ?_⟩
  cases found with
  | none => exact .inr (.inr rfl)
  | some content =>
      have hcontent := hholds content rfl
      cases content <;>
        first | exact hcontent.elim | exact .inl ⟨_, rfl⟩ | exact .inr (.inl rfl)

theorem Batch.Proper.kept_number (hb : b.Proper) :
    ∃ kept, b.read (.sequence, .kept) >>= numbered = .ok kept := by
  obtain ⟨found, hread, hholds⟩ := hb (.sequence, .kept)
  rw [hread]
  cases found with
  | none => exact ⟨0, rfl⟩
  | some content =>
      have hcontent := hholds content rfl
      cases content <;> first | exact hcontent.elim | exact ⟨_, rfl⟩

/-- An operation that finds nothing left to do is answered, and leaves its stage as it was. -/
theorem Op.Spent.still {op : Op} {m : Moment} (hb : b.Proper) (h : op.Spent digest m b) :
    ∃ done, Still digest m b op (.ok done) := by
  have hstaged : b.staged.Proper := hb
  cases op with
  | put kind key value => exact h.elim
  | claim asked lease =>
      obtain ⟨stored, hs, hlive⟩ := h
      obtain ⟨held, hrun⟩ := Claim.take_spent hstaged hs hlive (saturatingAdd m.now lease) m.epoch
      exact ⟨.claim held, Decision.run_bind_ok hrun⟩
  | renew claims lease =>
      exact ⟨.claims [], Decision.run_bind_ok (Claim.renew_spent hstaged h lease m.now)⟩
  | release asked => exact ⟨.yes false, Decision.run_bind_ok (Claim.release_spent hstaged h)⟩
  | handOn asked =>
      obtain ⟨yes, hrun, -⟩ := HandOn.decide_notHeld hstaged h m.now
      exact ⟨.yes yes, Decision.run_bind_ok hrun⟩
  | turn asked =>
      obtain ⟨yes, hrun⟩ := Turn.decide_spent hstaged h m.now
      exact ⟨.yes yes, Decision.run_bind_ok hrun⟩
  | publish asked => exact ⟨_, Publication.still_of_marker hb h m⟩
  | replay asked =>
      obtain ⟨found, hread, hfound⟩ := hb.dead_index asked.queue asked.message
      have hplaced : (Queue.placed Dead.kinds asked.queue asked.message).run b.staged =
          (Queue.Placed.of found).map (·, b.staged) := by
        change (b.read (.deadMessage, .pair asked.queue asked.message) >>=
          Queue.Placed.of).map (·, b.staged) = _
        rw [hread]
        rfl
      rcases hfound with ⟨n, rfl⟩ | rfl | rfl
      · exact absurd hread (h n)
      · have hdecide : asked.decide.run b.staged = .ok (.before, b.staged) :=
          Decision.run_bind_ok hplaced
        exact ⟨.replayed .before, Decision.run_bind_ok hdecide⟩
      · have hdecide : asked.decide.run b.staged = .ok (.absent, b.staged) :=
          Decision.run_bind_ok hplaced
        exact ⟨.replayed .absent, Decision.run_bind_ok hdecide⟩
  | audit entry => exact h.elim
  | kept number =>
      obtain ⟨kept, hkept⟩ := hb.kept_number
      have hread : (reading fun b => b.read (.sequence, .kept) >>= numbered).run b.staged =
          .ok (kept, b.staged) := by
        change (b.read (.sequence, .kept) >>= numbered).map (·, b.staged) = _
        rw [hkept]
        rfl
      have hne : kept ≠ number := by
        rintro rfl
        exact h hkept
      have hforget : (forgetKept number).run b.staged = .ok (false, b.staged) := by
        unfold forgetKept
        rw [Decision.run_bind_ok hread, if_pos hne]
        rfl
      exact ⟨.yes false, Decision.run_bind_ok hforget⟩

theorem Op.Refused.still {op : Op} {m : Moment} (h : op.Refused digest b) :
    ∃ e, Still digest m b op (.error e) := by
  cases op with
  | publish asked =>
      obtain ⟨found, hread, hne⟩ := h
      exact ⟨_, Publication.still_of_another hread hne m⟩
  | put kind key value => exact h.elim
  | claim asked lease => exact h.elim
  | renew claims lease => exact h.elim
  | release asked => exact h.elim
  | handOn asked => exact h.elim
  | turn asked => exact h.elim
  | replay asked => exact h.elim
  | audit entry => exact h.elim
  | kept number => exact h.elim

/-- An operation that is not refused and finds something left to do is answered, and writes. -/
theorem Op.writes_of_unspent {op : Op} {m : Moment} (hb : b.Proper)
    (h : ¬op.Spent digest m b) (h' : ¬op.Refused digest b) :
    ∃ done stage, (op.decide digest m).run b.staged = .ok (done, stage) ∧ stage.changes ≠ [] := by
  have hstaged : b.staged.Proper := hb
  have hlonger : ∀ {stage : Batch}, b.staged.changes.length < stage.changes.length →
      stage.changes ≠ [] := fun hlt => List.ne_nil_of_length_pos (Nat.zero_lt_of_lt hlt)
  cases op with
  | put kind key value => exact ⟨.written, _, rfl, by simp⟩
  | claim asked lease =>
      obtain ⟨held, stage, hrun, hmore⟩ :=
        Claim.take_unspent hstaged h (saturatingAdd m.now lease) m.epoch
      exact ⟨.claim held, stage, Decision.run_bind_ok hrun, hlonger hmore⟩
  | renew claims lease =>
      obtain ⟨held, stage, hrun, hmore⟩ := Claim.renew_unspent hstaged h lease m.now
      exact ⟨.claims held, stage, Decision.run_bind_ok hrun, hlonger hmore⟩
  | release asked =>
      obtain ⟨stage, hrun, hmore⟩ := Claim.release_unspent hstaged h
      exact ⟨.yes true, stage, Decision.run_bind_ok hrun, hlonger hmore⟩
  | handOn asked =>
      simp only [Spent, Batch.NotHeld, not_forall, not_not] at h
      obtain ⟨stored, hs, hheld⟩ := h
      obtain ⟨stage, hrun, -, hmore⟩ := HandOn.decide_held hstaged hs hheld m.now
      exact ⟨.yes true, stage, Decision.run_bind_ok hrun, hlonger hmore⟩
  | turn asked =>
      obtain ⟨stage, hrun, hmore⟩ := Turn.decide_unspent hstaged h m.now
      exact ⟨.yes true, stage, Decision.run_bind_ok hrun, hlonger hmore⟩
  | publish asked =>
      obtain ⟨found, hread, -⟩ := hb (markerPlace asked.message.message)
      cases found with
      | some found =>
          by_cases hown : found = .digest (digest asked)
          · subst hown
            exact absurd hread h
          · exact absurd ⟨found, hread, hown⟩ h'
      | none =>
          have hmarker : (XmipPersist.read .publication (.id asked.message.message)).run b.staged =
              .ok (none, b.staged) := by
            change (b.read (markerPlace asked.message.message)).map (·, b.staged) = _
            rw [hread]
            rfl
          obtain ⟨_, b₁, hwrites, hb₁⟩ := asked.writes_comes b.staged hstaged
          obtain ⟨held, b₂, htaking, -⟩ := Publication.taking_comes m.now
            (saturatingAdd m.now asked.leaseNanos) m.epoch asked.claims b₁ hb₁
          have hdecide : (asked.decide digest m.now m.epoch).run b.staged =
              .ok (.now held, b₂.put .publication (.id asked.message.message)
                (some (.digest (digest asked)))) := by
            unfold Publication.decide
            rw [Decision.run_bind_ok hmarker, Decision.run_bind_ok hwrites,
              Decision.run_bind_ok htaking]
            rfl
          exact ⟨.claims held, _, Decision.run_bind_ok hdecide, by simp⟩
  | replay asked =>
      obtain ⟨replayed, b', hdecide, -⟩ := asked.decide_comes b.staged hstaged
      obtain ⟨found, hread, hfound⟩ := hb.dead_index asked.queue asked.message
      simp only [Spent, not_forall, not_not] at h
      obtain ⟨n, hn⟩ := h
      have hplaced : (Queue.placed Dead.kinds asked.queue asked.message).run b.staged =
          .ok (.at n, b.staged) := by
        change (b.read (.deadMessage, .pair asked.queue asked.message) >>=
          Queue.Placed.of).map (·, b.staged) = _
        rw [hn]
        rfl
      obtain rfl : replayed = .now := by
        unfold Replay.decide at hdecide
        rw [Decision.run_bind_ok hplaced] at hdecide
        obtain ⟨_, b₁, -, hdecide⟩ := Decision.bind_ok_iff.mp hdecide
        obtain ⟨_, b₂, -, hdecide⟩ := Decision.bind_ok_iff.mp hdecide
        obtain ⟨_, b₃, -, hdecide⟩ := Decision.bind_ok_iff.mp hdecide
        obtain ⟨_, b₄, -, hdecide⟩ := Decision.bind_ok_iff.mp hdecide
        cases hdecide
        rfl
      exact ⟨.replayed .now, _, Decision.run_bind_ok hdecide, by simp⟩
  | audit entry => exact ⟨.written, _, rfl, by simp⟩
  | kept number =>
      have hkept : b.read (.sequence, .kept) >>= numbered = .ok number := not_not.mp h
      have hread : (reading fun b => b.read (.sequence, .kept) >>= numbered).run b.staged =
          .ok (number, b.staged) := by
        change (b.read (.sequence, .kept) >>= numbered).map (·, b.staged) = _
        rw [hkept]
        rfl
      refine ⟨.yes true, (b.staged.put .audit (.id number) none).put .sequence .kept
        (some (.number (number + 1))), ?_, by simp⟩
      have hforget : (forgetKept number).run b.staged = .ok (true,
          (b.staged.put .audit (.id number) none).put .sequence .kept
            (some (.number (number + 1)))) := by
        unfold forgetKept
        rw [Decision.run_bind_ok hread, if_neg (not_not.mpr rfl)]
        rfl
      exact Decision.run_bind_ok hforget

/-! ## A group -/

variable {m : Moment} {ops : List Op}

/-- Every operation of a group that finds nothing to do is answered on the batch as it was. -/
theorem decideEach_spent (hb : b.Proper)
    (h : ∀ op ∈ ops, op.Spent digest m b ∨ op.Refused digest b) :
    List.Forall₂ (Still digest m b) ops (decideEach digest m b ops).1 ∧
      (decideEach digest m b ops).2 = b := by
  induction ops with
  | nil => exact ⟨.nil, rfl⟩
  | cons op ops ih =>
      obtain ⟨hanswers, hbatch⟩ := ih fun other hother => h other (by simp [hother])
      rw [decideEach]
      rcases h op (by simp) with hspent | hrefused
      · obtain ⟨done, hstill⟩ := hspent.still hb
        have hrun : (op.decide digest m).run b.staged = .ok (done, b.staged) := hstill
        simp only [hrun, Batch.taking_staged]
        exact ⟨.cons hstill hanswers, hbatch⟩
      · obtain ⟨e, hstill⟩ := hrefused.still (m := m)
        have hrun : (op.decide digest m).run b.staged = .error e := hstill
        simp only [hrun]
        exact ⟨.cons hstill hanswers, hbatch⟩

theorem decideEach_longer (b : Batch) (ops : List Op) :
    b.changes.length ≤ (decideEach digest m b ops).2.changes.length := by
  induction ops generalizing b with
  | nil => exact le_rfl
  | cons op ops ih =>
      rw [decideEach]
      cases (op.decide digest m).run b.staged with
      | ok p =>
          have hrest := ih (b.taking p.2)
          simp only [Batch.taking, List.length_append] at hrest
          exact (Nat.le_add_right _ _).trans hrest
      | error e => exact ih b

/-- A group that leaves nothing to write is one whose operations all find nothing to do. -/
theorem decideEach_unspent (hb : b.Proper)
    (h : ¬∀ op ∈ ops, op.Spent digest m b ∨ op.Refused digest b) :
    b.changes.length < (decideEach digest m b ops).2.changes.length := by
  induction ops with
  | nil => simp at h
  | cons op ops ih =>
      rw [decideEach]
      by_cases hop : op.Spent digest m b ∨ op.Refused digest b
      · have hrest : ¬∀ op ∈ ops, op.Spent digest m b ∨ op.Refused digest b := fun hall =>
          h fun other hother => by
            rcases List.mem_cons.mp hother with rfl | hother
            · exact hop
            · exact hall other hother
        rcases hop with hspent | hrefused
        · obtain ⟨done, hstill⟩ := hspent.still hb
          have hrun : (op.decide digest m).run b.staged = .ok (done, b.staged) := hstill
          simp only [hrun, Batch.taking_staged]
          exact ih hrest
        · obtain ⟨e, hstill⟩ := hrefused.still (m := m)
          have hrun : (op.decide digest m).run b.staged = .error e := hstill
          simp only [hrun]
          exact ih hrest
      · obtain ⟨hspent, hrefused⟩ := not_or.mp hop
        obtain ⟨done, stage, hrun, hmore⟩ := Op.writes_of_unspent hb hspent hrefused
        simp only [hrun]
        have hpos := List.length_pos_iff.mpr hmore
        have hrest : (b.taking stage).changes.length ≤
            (decideEach digest m (b.taking stage) ops).2.changes.length :=
          decideEach_longer (b.taking stage) ops
        simp only [Batch.taking, List.length_append] at hrest ⊢
        omega

/-- A still operation is answered one way. -/
theorem Still.unique {op : Op} {answer other : Outcome} (h : Still digest m b op answer)
    (h' : Still digest m b op other) : answer = other := by
  cases answer with
  | ok done =>
      cases other with
      | ok done' =>
          have hsame : (done, b.staged) = (done', b.staged) := Except.ok.inj (h.symm.trans h')
          exact congrArg Except.ok (congrArg Prod.fst hsame)
      | error e => cases h.symm.trans h'
  | error e =>
      cases other with
      | ok done => cases h.symm.trans h'
      | error e' => rw [Except.error.inj (h.symm.trans h')]

/-- Over a proper store a group leaves nothing to write exactly where each of its operations
finds nothing left to do or is refused. -/
theorem Writer.idle_iff {w : Writer} (hw : w.store.Proper) (m : Moment) (ops : List Op) :
    w.idle (decideEach digest m (Batch.over' w.store w.next) ops).2 ↔
      ∀ op ∈ ops, op.Spent digest m (Batch.over' w.store w.next) ∨
        op.Refused digest (Batch.over' w.store w.next) := by
  constructor
  · rintro ⟨hnil, -⟩
    by_contra hnot
    have hmore := decideEach_unspent (hw.over' w.next) hnot
    rw [hnil] at hmore
    simp at hmore
  · intro hall
    rw [(decideEach_spent (hw.over' w.next) hall).2]
    exact ⟨rfl, rfl⟩

namespace Writer

variable {w : Writer}

theorem committed_of_idle (h : w.idle (decideEach digest m (Batch.over' w.store w.next) ops).2) :
    (w.committed digest m ops).answers =
        (decideEach digest m (Batch.over' w.store w.next) ops).1 ∧
      (w.committed digest m ops).durable = .kept := by
  have hlaid : w.laid m (decideEach digest m (Batch.over' w.store w.next) ops).2 = .ok w.store :=
    if_pos h
  simp [committed, hlaid, h]

/-- A group answered at once failed as a whole, or left nothing to write. -/
theorem committed_of_kept (h : (w.committed digest m ops).durable = .kept) :
    (∃ e, (w.committed digest m ops).answers = ops.map fun _ => .error e) ∨
      w.idle (decideEach digest m (Batch.over' w.store w.next) ops).2 := by
  cases hlaid : w.laid m (decideEach digest m (Batch.over' w.store w.next) ops).2 with
  | error e => exact .inl ⟨e.again, by simp [committed, hlaid]⟩
  | ok store =>
      refine .inr ?_
      by_contra hnot
      simp [committed, hlaid, hnot] at h

theorem committed_of_pending (h : (w.committed digest m ops).durable = .pending) :
    w.laid m (decideEach digest m (Batch.over' w.store w.next) ops).2 =
      .ok (w.committed digest m ops).writer.store := by
  cases hlaid : w.laid m (decideEach digest m (Batch.over' w.store w.next) ops).2 with
  | error e => simp [committed, hlaid] at h
  | ok store => simp [committed, hlaid]

end Writer

end XmipPersist
