import XmipPersist.Verification.Claim.Fencing

/-! # Asking again is safe

A request whose answer was lost is asked again. A hand-on that ended its claim is answered for
and writes nothing, and a Publication is answered by its marker, which nothing takes out.
-/

namespace XmipPersist

open Lease

variable {digest : Publication → Bytes}

/-! ## A hand-on asked again -/

namespace HandOn

theorem done_handedOn {asked : HandOn} {now : ℤ} {b b' : Batch} (hb : b.Proper)
    (h : (asked.decide now).run b = .ok (true, b')) (hkept : asked.keptForNanos = none) :
    ∃ stored, b'.claimOn asked.claim.journey = some stored ∧ stored.standing = .handedOn ∧
      stored.claim.is asked.claim := by
  rcases decide_ok hb h with ⟨rfl, hstands⟩ | ⟨stored, b₁, _, hheld, hkey, _, _, hcloses⟩
  · exact hstands rfl
  · obtain ⟨after, hrun, hkey', hnone, _⟩ := closes_run asked stored.claim now b₁
    have hafter : after = ⟨stored.claim, .handedOn⟩ := hnone hkept
    rw [hrun] at hcloses
    cases hcloses
    have hon : after.claim.journey = asked.claim.journey := hkey'.trans hkey
    refine ⟨after, ?_, by rw [hafter], ?_⟩
    · rw [Batch.claimOn_put, if_pos hon]
    · have his := Stored.heldBy_iff.mp hheld
      rw [hafter]
      simp [Claim.is, his.2.1, his.2.2]

theorem decide_of_handedOn {asked : HandOn} {b : Batch} (hb : b.Proper) {stored : Stored}
    (hs : b.claimOn asked.claim.journey = some stored) (hended : stored.standing = .handedOn)
    (his : stored.claim.is asked.claim) (now : ℤ) :
    (asked.decide now).run b = .ok (true, b) := by
  obtain ⟨claim, standing⟩ := stored
  have hstored : asked.claim.stored.run b = .ok (some ⟨claim, standing⟩, b) := by
    rw [hb.stored_run, hs]
  unfold decide
  rw [Decision.run_bind_ok hstored]
  cases hended
  change (pure (claim.is asked.claim) : Deciding Bool).run b = _
  rw [his]
  rfl

theorem still_of_handedOn {asked : HandOn} {b : Batch} (hb : b.Proper) {stored : Stored}
    (hs : b.claimOn asked.claim.journey = some stored) (hended : stored.standing = .handedOn)
    (his : stored.claim.is asked.claim) (m : Moment) :
    Still digest m b (.handOn asked) (.ok (.yes true)) := by
  have hagain := decide_of_handedOn (b := b.staged) hb hs hended his m.now
  change ((asked.decide m.now) >>= fun yes => pure (Done.yes yes)).run b.staged = _
  rw [Decision.run_bind_ok hagain]
  rfl

end HandOn

theorem Claimed.ended {journey : ℕ} {before last : Option Stored} {h : List (Ruling × Stored)}
    (hc : Claimed journey before h last) {stored : Stored} (hs : before = some stored)
    (hended : stored.standing ≠ .held) (hfree : ∀ e ∈ h, takes (e.1.act e.2) = false) :
    last = before := by
  cases hc with
  | nil _ => rfl
  | @cons before last r after rest step _ =>
      exfalso
      have htakes : takes (r.act after) = false := hfree (r, after) (by simp)
      have hheld : ∀ {s : Stored} {claim : Claim}, before = some s → s.heldBy claim → False := by
        intro s claim hsome hby
        have heq : s = stored := by simpa [hsome] using hs
        exact hended (heq ▸ (Stored.heldBy_iff.mp hby).1)
      obtain ⟨m, op, done, b, stage⟩ := r
      cases op with
      | claim asked lease => simp [Ruling.act, takes] at htakes
      | publish asked => simp [Ruling.act, takes] at htakes
      | renew claims lease =>
          obtain ⟨claim, -, -, s, hsome, hby, -⟩ := step
          exact hheld hsome hby
      | release asked =>
          obtain ⟨-, s, hsome, hby, -⟩ := step
          exact hheld hsome hby
      | handOn asked =>
          obtain ⟨-, s, hsome, hby, -⟩ := step
          exact hheld hsome hby
      | turn asked =>
          obtain ⟨-, s, hsome, hby, -⟩ := step
          exact hheld hsome hby
      | put kind key value => exact step
      | replay asked => exact step
      | audit entry => exact step
      | kept number => exact step

/-- A hand-on that keeps no claim, asked again after it was done, is `true` and writes nothing,
whatever was done in between, as long as nothing took its Journey's claim. -/
theorem handOn_again {steps : List Step} (hmade : ∀ s ∈ steps, s.Made) {m : Moment}
    {pre : List Op} (hpre : ∀ op ∈ pre, op.Made) {asked : HandOn} {before after : List Ruling}
    {r : Ruling} (hrun : Writer.fresh.heard digest steps m pre = before ++ r :: after)
    (hop : r.op = .handOn asked) (hdone : r.done = .yes true)
    (hkept : asked.keptForNanos = none)
    (hfree : ∀ e ∈ claimHistory asked.claim.journey after, takes (e.1.act e.2) = false)
    (post : List Op) :
    Inert digest (Writer.fresh.run digest steps) m pre (.handOn asked) (.ok (.yes true)) post := by
  have hproper : Writer.fresh.store.Proper := Store.empty_proper
  have hheard : ∀ r ∈ Writer.fresh.heard digest steps m pre, r.Holds digest :=
    Writer.heard_hold hmade hpre
  have hheard' : ∀ r ∈ Writer.fresh.heard digest steps m pre, r.before.Proper :=
    Writer.heard_proper hmade hpre hproper
  have hruled : (claimPlace asked.claim.journey).1.ruled := by
    simp [claimPlace, Kind.ruled, Kind.plain, Searched.of]
  have hfollows : Follows (claimPlace asked.claim.journey) _
      (Writer.fresh.heard digest steps m pre) _ :=
    Writer.heard_follows hmade hpre hproper hruled
  rw [hrun] at hheard hheard' hfollows
  obtain ⟨-, hafter⟩ := hfollows.split
  -- The claim as the hand-on left it.
  have hr : r.Holds digest := hheard r (by simp)
  have hb : r.before.staged.Proper := hheard' r (by simp)
  obtain ⟨m', op, done, b, stage⟩ := r
  subst hop hdone
  obtain ⟨yes, b', hdecide, hp⟩ := Decision.bind_ok_iff.mp hr.ran
  cases hp
  obtain ⟨stored, hs, hended, his⟩ := HandOn.done_handedOn hb hdecide hkept
  -- Nothing since then moved it.
  have hclaimed := hafter.claimed fun s hs => ⟨hheard s (by simp [hs]), hheard' s (by simp [hs])⟩
  have hsame := hclaimed.ended hs (by simp [hended]) hfree
  exact inert_of_still post (HandOn.still_of_handedOn
    (Writer.deciding_proper hmade hpre hproper) (hsame.trans hs) hended his m)

/-- A step of Journey 1 that opens Journey 2 and holds its place, its claim kept or not. -/
def opensNext (kept : Option ℕ) : HandOn where
  claim := ⟨1, "first", 7, 0, 12884901889⟩
  result := { journey := 1 }
  next := [{ journey := 2, facts := { state := "ready" } }]
  queued := [{ queue := 5, journey := 2 }]
  keptForNanos := kept

/-- That step done, and then Journey 2 completed by another node. -/
def stepThenNext (kept : Option ℕ) : List Step :=
  let at' (now : ℤ) (op : Op) : Step := .group ⟨now, 3, .asWritten, none⟩ [op]
  [at' 0 (.claim ⟨1, "first", 7, 0, 0⟩ 10),
    at' 1 (.handOn (opensNext kept)),
    at' 2 (.claim ⟨2, "second", 8, 0, 0⟩ 10),
    at' 3 (.handOn { claim := ⟨2, "second", 8, 0, 12884901889⟩,
                     result := { journey := 2, facts := { state := "completed" } },
                     leaves := [5] })]

theorem handOn_again_ended :
    let w := Writer.fresh.run (fun _ => []) (stepThenNext none)
    let again := w.committed (fun _ => []) ⟨4, 3, .asWritten, none⟩ [.handOn (opensNext none)]
    again.answers = [.ok (.yes true)] ∧ again.writer = w :=
  let heard := Writer.fresh.heard (fun _ => []) (stepThenNext none) ⟨4, 3, .asWritten, none⟩ []
  Inert.alone (handOn_again (by simp [stepThenNext, Step.Made, Op.Made]) (by simp)
    ((List.take_append_drop 1 heard).symm.trans
      (congrArg _ (List.drop_eq_getElem_cons (by decide +kernel))))
    (by decide +kernel) (by decide +kernel) rfl (by decide +kernel) [])

/-- A hand-on that keeps its claim writes all of it again: Journey 2, completed since, is
opened a second time. -/
theorem handOn_again_kept :
    let heard := Writer.fresh.heard (fun _ => []) (stepThenNext (some 100))
      ⟨4, 3, .asWritten, none⟩ []
    (∃ before r after, heard = before ++ r :: after ∧ r.op = .handOn (opensNext (some 100)) ∧
      r.done = .yes true ∧ ∀ e ∈ claimHistory 1 after, takes (e.1.act e.2) = false) ∧
    ¬Inert (fun _ => []) (Writer.fresh.run (fun _ => []) (stepThenNext (some 100)))
      ⟨4, 3, .asWritten, none⟩ [] (.handOn (opensNext (some 100))) (.ok (.yes true)) [] := by
  intro heard
  constructor
  · have hlen : 1 < heard.length := by decide +kernel
    exact ⟨heard.take 1, heard[1], heard.drop 2,
      (List.take_append_drop 1 heard).symm.trans
        (congrArg _ (List.drop_eq_getElem_cons hlen)), rfl, rfl, by decide +kernel⟩
  · intro h
    have hjourney := congrArg (fun w => w.store.records (.journey, .id 2)) h.writer
    revert hjourney
    decide +kernel

/-! ## A Publication asked again -/

def markerPlace (message : ℕ) : Place := (.publication, .id message)

theorem Adds.marker {kinds : List Kind} {b b' : Batch} (h : Adds kinds b b')
    (hk : .publication ∉ kinds) (message : ℕ) :
    b'.read (markerPlace message) = b.read (markerPlace message) :=
  h.read_of_kind hk

namespace Publication

theorem decide_others {asked : Publication} {now : ℤ} {epoch : ℕ} {b b' : Batch}
    {decided : Decided} (h : (asked.decide digest now epoch).run b = .ok (decided, b'))
    {message : ℕ} (hne : asked.message.message ≠ message) :
    b'.read (markerPlace message) = b.read (markerPlace message) := by
  rcases decide_ok h with ⟨-, rfl, -⟩ | ⟨-, b₁, b₂, held, -, hw, ht, rfl⟩
  · rfl
  · have hplace : ((.publication, .id asked.message.message) : Place) ≠ markerPlace message := by
      simpa [markerPlace] using hne
    have hwrites : b₁.read (markerPlace message) = b.read (markerPlace message) :=
      (writes_writes asked b () b₁ hw).marker (by decide) message
    have htaking : b₂.read (markerPlace message) = b₁.read (markerPlace message) :=
      (taking_writes _ _ _ _ b₁ held b₂ ht).marker (by decide) message
    rw [Batch.read_put_of_ne _ _ hplace, htaking, hwrites]

theorem decide_marker {asked : Publication} {now : ℤ} {epoch : ℕ} {b b' : Batch}
    {decided : Decided} (h : (asked.decide digest now epoch).run b = .ok (decided, b')) :
    b'.read (markerPlace asked.message.message) = .ok (some (.digest (digest asked))) ∧
      ∀ message found, b.read (markerPlace message) = .ok (some found) →
        b'.read (markerPlace message) = .ok (some found) := by
  have hown : b'.read (markerPlace asked.message.message) =
      .ok (some (.digest (digest asked))) := by
    rcases decide_ok h with ⟨hmarker, rfl, -⟩ | ⟨-, b₁, b₂, held, -, -, -, rfl⟩
    · exact hmarker
    · exact Batch.read_put_self _ _ _ _
  refine ⟨hown, fun message found hfound => ?_⟩
  by_cases hmessage : asked.message.message = message
  · subst hmessage
    rcases decide_ok h with ⟨-, rfl, -⟩ | ⟨hnone, -⟩
    · exact hfound
    · rw [markerPlace, hnone] at hfound
      cases hfound
  · rw [decide_others h hmessage, hfound]

end Publication

theorem Ruling.Holds.publish {r : Ruling} (h : r.Holds digest) {asked : Publication}
    (hop : r.op = .publish asked) :
    r.stage.read (markerPlace asked.message.message) = .ok (some (.digest (digest asked))) ∧
      ∀ message found, r.before.read (markerPlace message) = .ok (some found) →
        r.stage.read (markerPlace message) = .ok (some found) := by
  obtain ⟨m, op, done, b, stage⟩ := r
  subst hop
  obtain ⟨decided, b', hdecide, hrest⟩ := Decision.bind_ok_iff.mp h.ran
  obtain ⟨hown, hothers⟩ := Publication.decide_marker hdecide
  cases decided with
  | before held =>
      cases hrest
      exact ⟨hown, hothers⟩
  | now held =>
      obtain ⟨_, b'', haudit, hrest⟩ := Decision.bind_ok_iff.mp hrest
      cases hrest
      have hkept : ∀ message, stage.read (markerPlace message) = b'.read (markerPlace message) :=
        fun message => (audit_writes asked.audit b' () stage haudit).marker (by decide) message
      exact ⟨(hkept _).trans hown, fun message found hfound =>
        (hkept message).trans (hothers message found hfound)⟩

theorem Op.kinds_unmarked {op : Op} (hmade : op.Made) (h : ∀ asked, op ≠ .publish asked) :
    .publication ∉ op.kinds := by
  cases op with
  | publish asked => exact absurd rfl (h asked)
  | put kind key value =>
      rcases hmade with ⟨record, rfl, _⟩ | ⟨record, rfl, _⟩ <;> simp [Op.kinds]
  | handOn asked => rw [Op.kinds]; decide
  | turn asked => rw [Op.kinds]; decide
  | replay asked => rw [Op.kinds]; decide
  | claim asked lease => simp [Op.kinds]
  | renew claims lease => simp [Op.kinds]
  | release asked => simp [Op.kinds]
  | audit entry => simp [Op.kinds]
  | kept number => simp [Op.kinds]

/-- A Publication's marker outlives every operation. -/
theorem Ruling.Holds.keeps_marker {r : Ruling} (h : r.Holds digest) {message : ℕ}
    {found : Content} (hfound : r.before.read (markerPlace message) = .ok (some found)) :
    r.stage.read (markerPlace message) = .ok (some found) := by
  by_cases hpublish : ∃ asked, r.op = .publish asked
  · obtain ⟨asked, hop⟩ := hpublish
    exact (h.publish hop).2 message found hfound
  · have hkinds := Op.kinds_unmarked h.made fun asked hop => hpublish ⟨asked, hop⟩
    exact (h.adds.marker hkinds message).trans hfound

namespace Publication

theorem still_of_marker {asked : Publication} {b : Batch} (hb : b.Proper)
    (hmarker : b.read (markerPlace asked.message.message) =
      .ok (some (.digest (digest asked)))) (m : Moment) :
    Still digest m b (.publish asked) (.ok (.claims (asked.claims.filterMap b.heldFor))) := by
  have hread : (read .publication (.id asked.message.message)).run b.staged =
      .ok (some (.digest (digest asked)), b.staged) := by
    change (b.read (markerPlace asked.message.message)).map (·, b.staged) = _
    rw [hmarker]
    rfl
  have hstanding := standing_run (b := b.staged) hb asked.claims
  have hdecide : (asked.decide digest m.now m.epoch).run b.staged =
      .ok (.before (asked.claims.filterMap b.heldFor), b.staged) := by
    unfold decide
    rw [Decision.run_bind_ok hread]
    simp only [ne_eq, not_true_eq_false, if_false]
    rw [Decision.run_bind_ok hstanding]
    rfl
  change (asked.decide digest m.now m.epoch >>= _).run b.staged = _
  rw [Decision.run_bind_ok hdecide]
  rfl

theorem still_of_another {asked : Publication} {b : Batch} {found : Content}
    (hmarker : b.read (markerPlace asked.message.message) = .ok (some found))
    (hne : found ≠ .digest (digest asked)) (m : Moment) :
    Still digest m b (.publish asked) (.error asked.another) := by
  have hread : (read .publication (.id asked.message.message)).run b.staged =
      .ok (some found, b.staged) := by
    change (b.read (markerPlace asked.message.message)).map (·, b.staged) = _
    rw [hmarker]
    rfl
  have hdecide : (asked.decide digest m.now m.epoch).run b.staged = .error asked.another := by
    unfold decide
    rw [Decision.run_bind_ok hread]
    simp only [ne_eq, hne, not_false_eq_true, if_true]
    rfl
  change (asked.decide digest m.now m.epoch >>= _).run b.staged = _
  exact Decision.run_bind_error hdecide

end Publication

/-- A Publication asked again, whatever was done since, writes nothing and is answered with
those of its claims that are held under their tokens; another one with its Message is refused
and writes nothing. -/
theorem publish_again {steps : List Step} (hmade : ∀ s ∈ steps, s.Made) {m : Moment}
    {pre : List Op} (hpre : ∀ op ∈ pre, op.Made) {asked : Publication}
    {before after : List Ruling} {r : Ruling}
    (hrun : Writer.fresh.heard digest steps m pre = before ++ r :: after)
    (hop : r.op = .publish asked) (post : List Op) :
    let w := Writer.fresh.run digest steps
    Inert digest w m pre (.publish asked)
        (.ok (.claims (asked.claims.filterMap (w.deciding digest m pre).heldFor))) post ∧
      ∀ other : Publication, other.message.message = asked.message.message →
        (digest other = digest asked → other = asked) → other ≠ asked →
          Inert digest w m pre (.publish other) (.error other.another) post := by
  have hproper : Writer.fresh.store.Proper := Store.empty_proper
  have hheard : ∀ r ∈ Writer.fresh.heard digest steps m pre, r.Holds digest :=
    Writer.heard_hold hmade hpre
  have hruled : (markerPlace asked.message.message).1.ruled := by
    simp [markerPlace, Kind.ruled, Kind.plain, Searched.of]
  have hfollows : Follows (markerPlace asked.message.message) _
      (Writer.fresh.heard digest steps m pre) _ :=
    Writer.heard_follows hmade hpre hproper hruled
  rw [hrun] at hheard hfollows
  obtain ⟨-, hafter⟩ := hfollows.split
  have hmarker := hafter.keeps (I := (· = .ok (some (.digest (digest asked)))))
    ((hheard r (by simp)).publish hop).1
    fun s hs hfound => (hheard s (by simp [hs])).keeps_marker hfound
  constructor
  · exact inert_of_still post (Publication.still_of_marker
      (Writer.deciding_proper hmade hpre hproper) hmarker m)
  · intro other hmessage hdigest hne
    rw [← hmessage] at hmarker
    refine inert_of_still post (Publication.still_of_another hmarker ?_ m)
    intro hsame
    exact hne (hdigest (Content.digest.inj hsame).symm)

/-- A Publication of one Journey held and claimed as it is written. -/
def onePublished : Publication where
  message := { message := 1 }
  journeys := [{ journey := 2 }]
  held := [{ queue := 5, journey := 2 }]
  audit := { id := 9 }
  claims := [⟨2, "first", 7, 0, 0⟩]
  leaseNanos := 10

/-- It is published, and its Journey completed by the claim it took. -/
def publishedThenDone : List Step :=
  let at' (now : ℤ) (op : Op) : Step := .group ⟨now, 3, .asWritten, none⟩ [op]
  [at' 0 (.publish onePublished),
    at' 1 (.handOn { claim := ⟨2, "first", 7, 0, 12884901889⟩,
                     result := { journey := 2, facts := { state := "completed" } },
                     leaves := [5] })]

def audited (asked : Publication) : Bytes := [UInt8.ofNat asked.audit.id]

theorem publish_again_done :
    let w := Writer.fresh.run audited publishedThenDone
    let again := w.committed audited ⟨2, 3, .asWritten, none⟩ [.publish onePublished]
    (again.answers = [.ok (.claims (onePublished.claims.filterMap
        (w.deciding audited ⟨2, 3, .asWritten, none⟩ []).heldFor))] ∧ again.writer = w) ∧
      ∀ other : Publication, other.message.message = onePublished.message.message →
        (audited other = audited onePublished → other = onePublished) → other ≠ onePublished →
          Inert audited w ⟨2, 3, .asWritten, none⟩ [] (.publish other)
            (.error other.another) [] :=
  let heard := Writer.fresh.heard audited publishedThenDone ⟨2, 3, .asWritten, none⟩ []
  let again := publish_again (by simp [publishedThenDone, Step.Made, Op.Made]) (by simp)
    ((List.take_append_drop 0 heard).symm.trans
      (congrArg _ (List.drop_eq_getElem_cons (by decide +kernel)))) rfl []
  ⟨again.1.alone, again.2⟩

end XmipPersist
