import XmipPersist.Verification.Writer.Run

/-! # What each operation does to a Journey's claim -/

namespace XmipPersist

variable {digest : Publication → Bytes}

/-! ## The claim stored -/

/-- The place of a Journey's claim. -/
def claimPlace (journey : ℕ) : Place := (.claim, .id journey)

/-- The stored claim a read found. -/
def storedIn : Except PersistError (Option Content) → Option Stored
  | .ok (some (.claim stored)) => some stored
  | _ => none

/-- The claim of a Journey as a batch has left it. -/
def Batch.claimOn (b : Batch) (journey : ℕ) : Option Stored :=
  storedIn (b.read (claimPlace journey))

theorem ProperRead.claim {journey : ℕ} {found : Except PersistError (Option Content)}
    (h : ProperRead (claimPlace journey) found) :
    found = .ok ((storedIn found).map .claim) ∧
      ∀ stored, storedIn found = some stored → stored.claim.journey = journey := by
  obtain ⟨value, rfl, hv⟩ := h
  cases value with
  | none => simp [storedIn]
  | some content =>
      have hk := hv content rfl
      cases content <;> simp [claimPlace, Kind.holds] at hk
      simp [storedIn, hk]

/-- Reading a stored claim of a proper batch. -/
theorem Claim.stored_ok {b : Batch} (hb : b.Proper) {claim : Claim} {found : Option Stored}
    (h : b.read (.claim, .id claim.journey) >>= decoded (α := Stored) = .ok found) :
    found = b.claimOn claim.journey ∧
      ∀ stored, found = some stored → stored.claim.journey = claim.journey := by
  obtain ⟨hread, hkey⟩ := (hb (claimPlace claim.journey)).claim
  have hfound : found = b.claimOn claim.journey := by
    rw [show ((.claim, .id claim.journey) : Place) = claimPlace claim.journey from rfl, hread] at h
    cases hs : storedIn (b.read (claimPlace claim.journey)) with
    | none => simpa [hs, decoded, bind, Except.bind, Batch.claimOn, eq_comm] using h
    | some stored =>
        simpa [hs, decoded, Form.fromBytes, Except.map, bind, Except.bind, Batch.claimOn,
          eq_comm] using h
  exact ⟨hfound, fun stored hs => hkey stored (by rw [← hs, hfound]; rfl)⟩

theorem Batch.claimOn_put (b : Batch) (stored : Stored) (journey : ℕ) :
    (b.put .claim (.id stored.claim.journey) (some (Form.bytes stored))).claimOn journey =
      if stored.claim.journey = journey then some stored else b.claimOn journey := by
  unfold Batch.claimOn
  rw [Batch.read_put]
  by_cases h : stored.claim.journey = journey
  · simp [h, claimPlace, storedIn, Form.bytes]
  · simp [h, claimPlace]

theorem Adds.claimOn {kinds : List Kind} {b b' : Batch} (h : Adds kinds b b')
    (hk : .claim ∉ kinds) (journey : ℕ) : b'.claimOn journey = b.claimOn journey := by
  unfold Batch.claimOn
  rw [h.read_of_kind hk]

/-! ## What an operation does to the claim, write by write -/

/-- The claim of `journey` that a change leaves. -/
def Change.claimOf (journey : ℕ) (c : Change) : Option Stored :=
  if c.place = claimPlace journey then storedIn (.ok c.value) else none

/-- The claims of `journey` that changes leave, in order. -/
def claimsOf (journey : ℕ) (cs : List Change) : List Stored := cs.filterMap (Change.claimOf journey)

theorem claimsOf_eq_nil {journey : ℕ} {cs : List Change} (h : ∀ c ∈ cs, c.kind ≠ .claim) :
    claimsOf journey cs = [] := by
  refine List.filterMap_eq_nil_iff.mpr fun c hc => ?_
  have : c.place ≠ claimPlace journey := fun he => h c hc (congrArg Prod.fst he)
  simp [Change.claimOf, this]

/-- From one claim to another by the claims written in between, each allowed by `S` after the one
before it. -/
inductive Trail (S : Option Stored → Stored → Prop) :
    Option Stored → List Stored → Option Stored → Prop
  | nil (before : Option Stored) : Trail S before [] before
  | cons {before last : Option Stored} {after : Stored} {rest : List Stored}
      (allowed : S before after) (trail : Trail S (some after) rest last) :
      Trail S before (after :: rest) last

namespace Trail

variable {S T : Option Stored → Stored → Prop} {before mid last : Option Stored}
  {xs ys : List Stored}

theorem append (h : Trail S before xs mid) (h' : Trail S mid ys last) :
    Trail S before (xs ++ ys) last := by
  induction h with
  | nil _ => exact h'
  | cons allowed _ ih => exact .cons allowed (ih h')

theorem mono (hST : ∀ before after, S before after → T before after)
    (h : Trail S before xs last) : Trail T before xs last := by
  induction h with
  | nil _ => exact .nil _
  | cons allowed _ ih => exact .cons (hST _ _ allowed) ih

end Trail

/-- From `b` to `b'` the claim of `journey` goes by claims `S` allows. -/
def Trailing (journey : ℕ) (S : Option Stored → Stored → Prop) (b b' : Batch) : Prop :=
  b.Proper → b'.Proper ∧ ∃ added, b'.changes = b.changes ++ added ∧
    Trail S (b.claimOn journey) (claimsOf journey added) (b'.claimOn journey)

namespace Trailing

variable {journey : ℕ} {S T : Option Stored → Stored → Prop} {b b' b'' : Batch}

theorem refl (b : Batch) : Trailing journey S b b :=
  fun hb => ⟨hb, [], by simp, .nil _⟩

theorem trans (h : Trailing journey S b b') (h' : Trailing journey S b' b'') :
    Trailing journey S b b'' := by
  intro hb
  obtain ⟨hb', added, he, ht⟩ := h hb
  obtain ⟨hb'', more, he', ht'⟩ := h' hb'
  refine ⟨hb'', added ++ more, by rw [he', he, List.append_assoc], ?_⟩
  rw [claimsOf, List.filterMap_append]
  exact ht.append ht'

theorem mono (hST : ∀ before after, S before after → T before after)
    (h : Trailing journey S b b') : Trailing journey T b b' := by
  intro hb
  obtain ⟨hb', added, he, ht⟩ := h hb
  exact ⟨hb', added, he, ht.mono hST⟩

theorem of_adds {kinds : List Kind} (h : Adds kinds b b') (hk : .claim ∉ kinds) :
    Trailing journey S b b' := by
  intro hb
  obtain ⟨added, he, hadded⟩ := h.changes
  refine ⟨h.proper hb, added, he, ?_⟩
  rw [claimsOf_eq_nil fun c hc heq => hk (heq ▸ (hadded c hc).2), h.claimOn hk]
  exact .nil _

/-- A claim written under its own Journey. -/
theorem put {stored : Stored}
    (h : stored.claim.journey = journey → S (b.claimOn journey) stored) :
    Trailing journey S b
      (b.put .claim (.id stored.claim.journey) (some (Form.bytes stored))) := by
  intro hb
  have hadds : Adds [.claim] b
      (b.put .claim (.id stored.claim.journey) (some (Form.bytes stored))) :=
    ⟨rfl, le_rfl, fun _ => rfl, [_], rfl, by simp [Change.Proper, Form.bytes, Kind.holds]⟩
  refine ⟨hadds.proper hb, [_], rfl, ?_⟩
  rw [Batch.claimOn_put]
  by_cases hj : stored.claim.journey = journey
  · rw [if_pos hj]
    have : claimsOf journey
        [⟨.claim, .id stored.claim.journey, some (Form.bytes stored)⟩] = [stored] := by
      simp [claimsOf, Change.claimOf, Change.place, claimPlace, hj, storedIn, Form.bytes]
    rw [this]
    exact .cons (h hj) (.nil _)
  · rw [if_neg hj]
    have : claimsOf journey
        [⟨.claim, .id stored.claim.journey, some (Form.bytes stored)⟩] = [] := by
      simp [claimsOf, Change.claimOf, Change.place, claimPlace, hj]
    rw [this]
    exact .nil _

end Trailing

/-! ## The steps of a claim -/

namespace Claim

/-- A claim taken: none is held at `now`, and its fence is the next for `epoch`. -/
def TakeStep (asked : Claim) (now until' : ℤ) (epoch journey : ℕ) (before : Option Stored)
    (after : Stored) : Prop :=
  asked.journey = journey ∧ (∀ stored, before = some stored → ¬live now stored) ∧
    after = ⟨{ asked with
      fence := fenceAfter epoch (before.map Stored.claim), untilUnixNanos := until' }, .held⟩

/-- A claim renewed by its holder: a later deadline is kept. -/
def RenewStep (asked : Claim) (lease now : ℤ) (journey : ℕ) (before : Option Stored)
    (after : Stored) : Prop :=
  asked.journey = journey ∧ ∃ stored, before = some stored ∧ stored.heldBy asked ∧
    after = ⟨{ stored.claim with
      untilUnixNanos := max (saturatingAdd now lease) stored.claim.untilUnixNanos }, .held⟩

/-- A claim given back by its holder. -/
def ReleaseStep (asked : Claim) (journey : ℕ) (before : Option Stored) (after : Stored) : Prop :=
  asked.journey = journey ∧ ∃ stored, before = some stored ∧ stored.heldBy asked ∧
    after = ⟨stored.claim, .released⟩

/-- A claim as its holder's hand-on leaves it: handed on, or kept until another time. -/
def HandOnStep (asked : Claim) (journey : ℕ) (before : Option Stored) (after : Stored) : Prop :=
  asked.journey = journey ∧ ∃ stored, before = some stored ∧ stored.heldBy asked ∧
    (after = ⟨stored.claim, .handedOn⟩ ∨
      ∃ until', after = ⟨{ stored.claim with untilUnixNanos := until' }, .held⟩)

theorem hold_run (claim : Claim) (until' : ℤ) (b : Batch) :
    (hold claim until').run b = .ok ({ claim with untilUnixNanos := until' },
      b.put .claim (.id claim.journey)
        (some (Form.bytes (Stored.mk { claim with untilUnixNanos := until' } .held)))) := rfl

theorem end_run (claim : Claim) (standing : Standing) (b : Batch) :
    (end' claim standing).run b = .ok ((),
      b.put .claim (.id claim.journey) (some (Form.bytes (Stored.mk claim standing)))) := rfl

/-- What asking for a claim comes to: the one that is held, given to its own token alone, or the
claim taken. -/
theorem take_ok {claim : Claim} {now until' : ℤ} {epoch : ℕ} {b b' : Batch} {held : Option Claim}
    (hb : b.Proper) (h : (claim.take now until' epoch).run b = .ok (held, b')) :
    (∃ stored, b.claimOn claim.journey = some stored ∧ live now stored ∧ b' = b ∧
      held = if stored.claim.token = claim.token then some stored.claim else none) ∨
    (∃ after, TakeStep claim now until' epoch claim.journey (b.claimOn claim.journey) after ∧
      held = some after.claim ∧
      b' = b.put .claim (.id after.claim.journey) (some (Form.bytes after))) := by
  obtain ⟨found, hread, h⟩ := Decision.reading_bind_ok_iff.mp h
  obtain ⟨rfl, -⟩ := stored_ok hb hread
  cases hs : b.claimOn claim.journey with
  | none =>
      simp only [hs] at h
      obtain ⟨claim', b₁, hhold, h⟩ := Decision.bind_ok_iff.mp h
      rw [hold_run] at hhold
      cases hhold
      cases h
      exact .inr ⟨_, ⟨rfl, by simp, rfl⟩, rfl, rfl⟩
  | some stored =>
      simp only [hs] at h
      split at h
      · next hlive =>
          cases h
          exact .inl ⟨stored, rfl, hlive, rfl, rfl⟩
      · next hlive =>
          obtain ⟨claim', b₁, hhold, h⟩ := Decision.bind_ok_iff.mp h
          rw [hold_run] at hhold
          cases hhold
          cases h
          refine .inr ⟨_, ⟨rfl, fun stored' hs' => ?_, rfl⟩, rfl, rfl⟩
          cases hs'
          exact hlive

theorem take_trailing (claim : Claim) (now until' : ℤ) (epoch journey : ℕ) :
    Decision.Moves (Trailing journey (TakeStep claim now until' epoch journey))
      (claim.take now until' epoch) := by
  intro b held b' h hb
  rcases take_ok hb h with ⟨_, _, _, rfl, _⟩ | ⟨after, hstep, _, rfl⟩
  · exact Trailing.refl b' hb
  · have hkey : after.claim.journey = claim.journey := by rw [hstep.2.2]
    refine Trailing.put (fun hj => ?_) hb
    rw [← hj, hkey]
    exact hstep

theorem renewOne_ok {claim : Claim} {lease now : ℤ} {b b' : Batch} {held : List Claim}
    (hb : b.Proper) (h : (renewOne lease now claim).run b = .ok (held, b')) :
    ((∀ stored, b.claimOn claim.journey = some stored → ¬stored.heldBy claim) ∧ b' = b ∧
      held = []) ∨
    (∃ after, RenewStep claim lease now claim.journey (b.claimOn claim.journey) after ∧
      held = [after.claim] ∧ after.claim.journey = claim.journey ∧
      b' = b.put .claim (.id after.claim.journey) (some (Form.bytes after))) := by
  obtain ⟨found, hread, h⟩ := Decision.reading_bind_ok_iff.mp h
  obtain ⟨rfl, hkey⟩ := stored_ok hb hread
  cases hs : b.claimOn claim.journey with
  | none =>
      simp only [hs] at h
      cases h
      exact .inl ⟨by simp, rfl, rfl⟩
  | some stored =>
      simp only [hs] at h
      split at h
      · next hheld =>
          obtain ⟨claim', b₁, hhold, h⟩ := Decision.bind_ok_iff.mp h
          rw [hold_run] at hhold
          cases hhold
          cases h
          exact .inr ⟨_, ⟨rfl, stored, rfl, hheld, rfl⟩, rfl, hkey stored hs, rfl⟩
      · next hheld =>
          cases h
          refine .inl ⟨?_, rfl, rfl⟩
          rintro _ hs'
          cases hs'
          simpa using hheld

theorem renewOne_trailing (lease now : ℤ) (claim : Claim) (journey : ℕ) :
    Decision.Moves (Trailing journey (RenewStep claim lease now journey))
      (renewOne lease now claim) := by
  intro b held b' h hb
  rcases renewOne_ok hb h with ⟨_, rfl, _⟩ | ⟨after, hstep, _, hkey, rfl⟩
  · exact Trailing.refl b' hb
  · refine Trailing.put (fun hj => ?_) hb
    rw [← hj, hkey]
    exact hstep

theorem renew_trailing (lease now : ℤ) (claims : List Claim) (journey : ℕ) :
    Decision.Moves
      (Trailing journey fun before after =>
        ∃ claim ∈ claims, RenewStep claim lease now journey before after)
      (renew lease now claims) := by
  induction claims with
  | nil => exact .pure Trailing.refl _
  | cons claim claims ih =>
      refine .bind (fun _ _ _ => Trailing.trans) ?_ fun _ =>
        .bind (fun _ _ _ => Trailing.trans) ?_ fun _ => .pure Trailing.refl _
      · refine Decision.Moves.mono (fun b b' h => h.mono ?_)
          (renewOne_trailing lease now claim journey)
        exact fun before after hstep => ⟨claim, by simp, hstep⟩
      · refine Decision.Moves.mono (fun b b' h => h.mono ?_) ih
        rintro before after ⟨c, hc, hstep⟩
        exact ⟨c, by simp [hc], hstep⟩

theorem release_ok {claim : Claim} {b b' : Batch} {yes : Bool} (hb : b.Proper)
    (h : claim.release.run b = .ok (yes, b')) :
    (b' = b ∧ yes = false) ∨
    (∃ after, ReleaseStep claim claim.journey (b.claimOn claim.journey) after ∧ yes = true ∧
      after.claim.journey = claim.journey ∧
      b' = b.put .claim (.id after.claim.journey) (some (Form.bytes after))) := by
  obtain ⟨found, hread, h⟩ := Decision.reading_bind_ok_iff.mp h
  obtain ⟨rfl, hkey⟩ := stored_ok hb hread
  cases hs : b.claimOn claim.journey with
  | none =>
      simp only [hs] at h
      cases h
      exact .inl ⟨rfl, rfl⟩
  | some stored =>
      simp only [hs] at h
      split at h
      · next hheld =>
          obtain ⟨_, b₁, hend, h⟩ := Decision.bind_ok_iff.mp h
          rw [end_run] at hend
          cases hend
          cases h
          exact .inr ⟨_, ⟨rfl, stored, rfl, hheld, rfl⟩, rfl, hkey stored hs, rfl⟩
      · cases h
        exact .inl ⟨rfl, rfl⟩

theorem release_trailing (claim : Claim) (journey : ℕ) :
    Decision.Moves (Trailing journey (ReleaseStep claim journey)) claim.release := by
  intro b yes b' h hb
  rcases release_ok hb h with ⟨rfl, _⟩ | ⟨after, hstep, _, hkey, rfl⟩
  · exact Trailing.refl b' hb
  · refine Trailing.put (fun hj => ?_) hb
    rw [← hj, hkey]
    exact hstep

end Claim

/-! ## A hand-on -/

namespace HandOn

/-- What a hand-on comes to: nothing, where its claim is not its holder's or was ended; or its
writes, and its claim handed on or kept. -/
theorem decide_ok {asked : HandOn} {now : ℤ} {b b' : Batch} {yes : Bool} (hb : b.Proper)
    (h : (asked.decide now).run b = .ok (yes, b')) :
    (b' = b ∧ (yes = true → ∃ stored, b.claimOn asked.claim.journey = some stored ∧
      stored.standing = .handedOn ∧ stored.claim.is asked.claim)) ∨
    (∃ stored b₁, b.claimOn asked.claim.journey = some stored ∧ stored.heldBy asked.claim ∧
      stored.claim.journey = asked.claim.journey ∧ yes = true ∧
      (asked.writes now).run b = .ok ((), b₁) ∧
      (asked.closes stored.claim now).run b₁ = .ok ((), b')) := by
  obtain ⟨found, hread, h⟩ := Decision.reading_bind_ok_iff.mp h
  obtain ⟨rfl, hkey⟩ := Claim.stored_ok hb hread
  cases hs : b.claimOn asked.claim.journey with
  | none =>
      simp only [hs] at h
      cases h
      exact .inl ⟨rfl, by simp⟩
  | some stored =>
      obtain ⟨claim, standing⟩ := stored
      simp only [hs] at h
      cases standing with
      | handedOn =>
          cases h
          exact .inl ⟨rfl, fun hyes => ⟨_, rfl, rfl, hyes⟩⟩
      | released =>
          cases h
          exact .inl ⟨rfl, by simp⟩
      | held =>
          simp only at h
          split at h
          · next his =>
              obtain ⟨_, b₁, hw, h⟩ := Decision.bind_ok_iff.mp h
              obtain ⟨_, b₂, hc, h⟩ := Decision.bind_ok_iff.mp h
              cases h
              refine .inr ⟨_, b₁, rfl, ?_, hkey _ hs, rfl, hw, hc⟩
              simp [Stored.heldBy, his]
          · cases h
            exact .inl ⟨rfl, by simp⟩

theorem closes_run (asked : HandOn) (claim : Claim) (now : ℤ) (b : Batch) :
    ∃ after : Stored, (asked.closes claim now).run b =
        .ok ((), b.put .claim (.id after.claim.journey) (some (Form.bytes after))) ∧
      after.claim.journey = claim.journey ∧
      (asked.keptForNanos = none → after = ⟨claim, .handedOn⟩) ∧
      (after = ⟨claim, .handedOn⟩ ∨
        ∃ until', after = ⟨{ claim with untilUnixNanos := until' }, .held⟩) := by
  unfold closes
  cases asked.keptForNanos with
  | none => exact ⟨⟨claim, .handedOn⟩, rfl, rfl, fun _ => rfl, .inl rfl⟩
  | some nanos => exact ⟨⟨_, .held⟩, rfl, rfl, by simp, .inr ⟨_, rfl⟩⟩

theorem claim_notMem_writeKinds : Kind.claim ∉ writeKinds := by decide

theorem decide_trailing (asked : HandOn) (now : ℤ) (journey : ℕ) :
    Decision.Moves (Trailing journey (Claim.HandOnStep asked.claim journey))
      (asked.decide now) := by
  intro b yes b' h hb
  rcases decide_ok hb h with ⟨rfl, _⟩ | ⟨stored, b₁, hs, hheld, hkey, _, hw, hc⟩
  · exact Trailing.refl b' hb
  · have hadds := writes_writes asked now b () b₁ hw
    obtain ⟨after, hrun, hkey', _, hafter⟩ := closes_run asked stored.claim now b₁
    rw [hrun] at hc
    cases hc
    refine (Trailing.of_adds hadds claim_notMem_writeKinds).trans (Trailing.put fun hj => ?_) hb
    have hjourney : asked.claim.journey = journey := by rw [← hj, hkey', hkey]
    refine ⟨hjourney, stored, ?_, hheld, hafter⟩
    rw [hadds.claimOn claim_notMem_writeKinds, ← hjourney, hs]

end HandOn

namespace Turn

/-- What a turn comes to: its hand-on done, with its Instances and keys written after it; or
nothing. -/
theorem decide_ok {turn : Turn} {now : ℤ} {b b' : Batch} {yes : Bool} (hb : b.Proper)
    (h : (turn.decide now).run b = .ok (yes, b')) :
    (b' = b ∧ yes = false) ∨
    (∃ b₁, (turn.handOn.decide now).run b = .ok (true, b₁) ∧
      (write turn.instances turn.keys turn.unkeyed).run b₁ = .ok ((), b') ∧ yes = true) := by
  obtain ⟨stands, b₀, hc, h⟩ := Decision.bind_ok_iff.mp h
  obtain rfl : b = b₀ := current_reads _ _ _ _ _ hc
  split at h
  · obtain ⟨done, b₁, hd, h⟩ := Decision.bind_ok_iff.mp h
    cases done with
    | true =>
        obtain ⟨_, b₂, hw, h⟩ := Decision.bind_ok_iff.mp h
        cases h
        exact .inr ⟨b₁, hd, hw, rfl⟩
    | false =>
        cases h
        rcases HandOn.decide_ok hb hd with ⟨rfl, _⟩ | ⟨_, _, _, _, _, hno, _⟩
        · exact .inl ⟨rfl, rfl⟩
        · simp at hno
  · cases h
    exact .inl ⟨rfl, rfl⟩

theorem decide_trailing (turn : Turn) (now : ℤ) (journey : ℕ) :
    Decision.Moves (Trailing journey (Claim.HandOnStep turn.handOn.claim journey))
      (turn.decide now) := by
  intro b yes b' h hb
  rcases decide_ok hb h with ⟨rfl, _⟩ | ⟨b₁, hd, hw, _⟩
  · exact Trailing.refl b' hb
  · have hadds := write_writes _ _ _ b₁ () b' hw
    exact ((HandOn.decide_trailing _ _ journey b true b₁ hd).trans
      (.of_adds hadds (by decide))) hb

end Turn

/-! ## A Publication -/

namespace Publication

theorem taking_trailing (now until' : ℤ) (epoch : ℕ) (claims : List Claim) (journey : ℕ) :
    Decision.Moves
      (Trailing journey fun before after =>
        ∃ claim ∈ claims, Claim.TakeStep claim now until' epoch journey before after)
      (taking now until' epoch claims) := by
  induction claims with
  | nil => exact .pure Trailing.refl _
  | cons claim claims ih =>
      refine .bind (fun _ _ _ => Trailing.trans) ?_ fun _ =>
        .bind (fun _ _ _ => Trailing.trans) ?_ fun _ => .pure Trailing.refl _
      · refine .mono (fun b b' h => h.mono ?_)
          (Claim.take_trailing claim now until' epoch journey)
        exact fun before after hstep => ⟨claim, by simp, hstep⟩
      · refine .mono (fun b b' h => h.mono ?_) ih
        rintro before after ⟨c, hc, hstep⟩
        exact ⟨c, by simp [hc], hstep⟩

/-- What a Publication comes to: its writes, its claims taken and its marker; or, where its own
marker is there, the claims of it that stand. -/
theorem decide_ok {asked : Publication} {now : ℤ} {epoch : ℕ} {b b' : Batch}
    {decided : Decided}
    (h : (asked.decide digest now epoch).run b = .ok (decided, b')) :
    (b.read (.publication, .id asked.message.message) = .ok (some (.digest (digest asked))) ∧
      b' = b ∧ ∃ held, decided = .before held ∧
        (standing asked.claims).run b = .ok (held, b)) ∨
    (b.read (.publication, .id asked.message.message) = .ok none ∧
      ∃ b₁ b₂ held, decided = .now held ∧ asked.writes.run b = .ok ((), b₁) ∧
        (taking now (saturatingAdd now asked.leaseNanos) epoch asked.claims).run b₁ =
          .ok (held, b₂) ∧
        b' = b₂.put .publication (.id asked.message.message)
          (some (.digest (digest asked)))) := by
  obtain ⟨found, hread, h⟩ := Decision.reading_bind_ok_iff.mp h
  cases found with
  | some written =>
      simp only at h
      split at h
      · rw [Decision.run_throw] at h
        cases h
      · next hw =>
          obtain ⟨held, b₁, hs, h⟩ := Decision.bind_ok_iff.mp h
          cases h
          obtain rfl := standing_reads _ _ _ _ hs
          refine .inl ⟨?_, rfl, held, rfl, hs⟩
          rw [hread, not_not.mp hw]
  | none =>
      obtain ⟨_, b₁, hw, h⟩ := Decision.bind_ok_iff.mp h
      obtain ⟨held, b₂, ht, h⟩ := Decision.bind_ok_iff.mp h
      obtain ⟨_, b₃, hp, h⟩ := Decision.bind_ok_iff.mp h
      cases h
      cases hp
      exact .inr ⟨hread, b₁, b₂, held, rfl, hw, ht, rfl⟩

theorem decide_trailing (asked : Publication) (now : ℤ) (epoch journey : ℕ) :
    Decision.Moves
      (Trailing journey fun before after => ∃ claim ∈ asked.claims,
        Claim.TakeStep claim now (saturatingAdd now asked.leaseNanos) epoch journey before after)
      (asked.decide digest now epoch) := by
  intro b decided b' h
  rcases decide_ok h with ⟨_, rfl, _⟩ | ⟨_, b₁, b₂, held, _, hw, ht, rfl⟩
  · exact Trailing.refl b'
  · refine (Trailing.of_adds (writes_writes asked b () b₁ hw) (by decide)).trans ?_
    refine (taking_trailing _ _ _ _ journey b₁ held b₂ ht).trans ?_
    have hput : Adds [.publication] b₂ (b₂.put .publication (.id asked.message.message)
        (some (.digest (digest asked)))) :=
      ⟨rfl, le_rfl, fun _ => rfl, [_], rfl, by simp [Change.Proper, Kind.holds]⟩
    exact .of_adds hput (by decide)

end Publication

/-! ## Every operation -/

/-- What an operation may do to the claim of a Journey. -/
def Op.ClaimStep (op : Op) (m : Moment) (journey : ℕ) (before : Option Stored)
    (after : Stored) : Prop :=
  match op with
  | .claim asked lease =>
      Claim.TakeStep asked m.now (saturatingAdd m.now lease) m.epoch journey before after
  | .publish asked => ∃ claim ∈ asked.claims,
      Claim.TakeStep claim m.now (saturatingAdd m.now asked.leaseNanos) m.epoch journey
        before after
  | .renew claims lease => ∃ claim ∈ claims,
      Claim.RenewStep claim lease m.now journey before after
  | .release asked => Claim.ReleaseStep asked journey before after
  | .handOn asked => Claim.HandOnStep asked.claim journey before after
  | .turn asked => Claim.HandOnStep asked.handOn.claim journey before after
  | _ => False

/-- Every operation takes the claim of a Journey by its own steps. -/
theorem Op.decide_trailing {op : Op} (hmade : op.Made) (m : Moment) (journey : ℕ) :
    Decision.Moves (Trailing journey (op.ClaimStep m journey)) (op.decide digest m) := by
  have hpure : ∀ {α : Type} (a : α),
      Decision.Moves (Trailing journey (op.ClaimStep m journey)) (pure a : Deciding α) :=
    fun a => .pure Trailing.refl a
  have hwrites : ∀ {α : Type} {kinds : List Kind} {n : Deciding α}, Writes kinds n →
      .claim ∉ kinds → Decision.Moves (Trailing journey (op.ClaimStep m journey)) n :=
    fun hn hk b a b' h => .of_adds (hn b a b' h) hk
  have hbind : ∀ {b b' b'' : Batch}, Trailing journey (op.ClaimStep m journey) b b' →
      Trailing journey (op.ClaimStep m journey) b' b'' →
        Trailing journey (op.ClaimStep m journey) b b'' := Trailing.trans
  cases op with
  | claim asked lease =>
      exact .bind (fun _ _ _ => hbind) (Claim.take_trailing _ _ _ _ _) fun _ => hpure _
  | renew claims lease =>
      exact .bind (fun _ _ _ => hbind) (Claim.renew_trailing _ _ _ _) fun _ => hpure _
  | release claim =>
      exact .bind (fun _ _ _ => hbind) (Claim.release_trailing _ _) fun _ => hpure _
  | handOn asked =>
      exact .bind (fun _ _ _ => hbind) (HandOn.decide_trailing _ _ _) fun _ => hpure _
  | turn turn =>
      exact .bind (fun _ _ _ => hbind) (Turn.decide_trailing _ _ _) fun _ => hpure _
  | publish asked =>
      refine .bind (fun _ _ _ => hbind) (Publication.decide_trailing _ _ _ _) fun decided => ?_
      cases decided with
      | before held => exact hpure _
      | now held =>
          exact .bind (fun _ _ _ => hbind) (hwrites (audit_writes _) (by decide)) fun _ => hpure _
  | put kind key value =>
      refine hwrites (Op.decide_writes hmade m) ?_
      rcases hmade with ⟨record, rfl, _⟩ | ⟨record, rfl, _⟩ <;> simp [Op.kinds]
  | replay asked => exact hwrites (Op.decide_writes hmade m) (by simp [Op.kinds]; decide)
  | audit entry => exact hwrites (Op.decide_writes hmade m) (by simp [Op.kinds])
  | kept number => exact hwrites (Op.decide_writes hmade m) (by simp [Op.kinds])

/-! ## A run -/

namespace Ruling

/-- The claims a ruling leaves of a Journey, in order. -/
def claims (journey : ℕ) (r : Ruling) : List Stored := claimsOf journey r.stage.changes

theorem Holds.trail {r : Ruling} (h : r.Holds digest) (hb : r.before.Proper) (journey : ℕ) :
    Trail (r.op.ClaimStep r.moment journey) (r.before.claimOn journey) (r.claims journey)
      (r.stage.claimOn journey) := by
  obtain ⟨-, added, he, ht⟩ :=
    Op.decide_trailing h.made r.moment journey r.before.staged r.done r.stage h.ran hb
  have hadded : r.stage.changes = added := by simpa [Batch.staged] using he
  rw [claims, hadded]
  exact ht

end Ruling

end XmipPersist
