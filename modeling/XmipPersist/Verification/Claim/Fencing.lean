import XmipPersist.Library.Lease
import XmipPersist.Verification.Claim.Semantics

/-! # A Journey's claim is a fenced lease

The claims a run writes of one Journey, in order, are a history of the abstract lease: whoever
asks, in whatever order, a claim is taken only where none is held and unlapsed, behind a higher
fence, and renewed, released or handed on only by the one that took it last.
-/

namespace XmipPersist

open Lease

variable {digest : Publication → Bytes}

/-! ## The claims of a run -/

/-- The claims a run leaves of a Journey, in order, each with the ruling that wrote it. -/
def claimHistory (journey : ℕ) (rs : List Ruling) : List (Ruling × Stored) :=
  rs.flatMap fun r => (r.claims journey).map fun stored => (r, stored)

theorem claimHistory_append (journey : ℕ) (rs rs' : List Ruling) :
    claimHistory journey (rs ++ rs') = claimHistory journey rs ++ claimHistory journey rs' := by
  simp [claimHistory]

/-- From one claim to another by the claims rulings wrote, each a step of its operation. -/
inductive Claimed (journey : ℕ) :
    Option Stored → List (Ruling × Stored) → Option Stored → Prop
  | nil (before : Option Stored) : Claimed journey before [] before
  | cons {before last : Option Stored} {r : Ruling} {after : Stored}
      {rest : List (Ruling × Stored)} (step : r.op.ClaimStep r.moment journey before after)
      (claimed : Claimed journey (some after) rest last) :
      Claimed journey before ((r, after) :: rest) last

theorem Claimed.append {journey : ℕ} {before mid last : Option Stored}
    {h h' : List (Ruling × Stored)} (hc : Claimed journey before h mid)
    (hc' : Claimed journey mid h' last) : Claimed journey before (h ++ h') last := by
  induction hc with
  | nil _ => exact hc'
  | cons step _ ih => exact .cons step (ih hc')

theorem Trail.claimed {journey : ℕ} {r : Ruling} {before last : Option Stored}
    {xs : List Stored} (h : Trail (r.op.ClaimStep r.moment journey) before xs last) :
    Claimed journey before (xs.map fun stored => (r, stored)) last := by
  induction h with
  | nil _ => exact .nil _
  | cons allowed _ ih => exact .cons allowed ih

theorem Follows.claimed {journey : ℕ} {rs : List Ruling}
    {x y : Except PersistError (Option Content)} (h : Follows (claimPlace journey) x rs y)
    (hrs : ∀ r ∈ rs, r.Holds digest ∧ r.before.Proper) :
    Claimed journey (storedIn x) (claimHistory journey rs) (storedIn y) := by
  induction h with
  | nil found => exact .nil _
  | @cons r rs found h ih =>
      obtain ⟨hr, hb⟩ := hrs r (by simp)
      rw [claimHistory, List.flatMap_cons]
      exact (hr.trail hb journey).claimed.append (ih fun s hs => hrs s (by simp [hs]))

/-! ## As a history of leases -/

/-- A stored claim as a lease. -/
def Stored.tenure (stored : Stored) : Tenure ℕ ℤ ℕ where
  token := stored.claim.token
  fence := stored.claim.fence
  until' := stored.claim.untilUnixNanos
  stands := stored.standing = .held

/-- What a ruling that left a claim did to it. -/
def Ruling.act (r : Ruling) (after : Stored) : Act ℤ :=
  match r.op with
  | .claim _ _ => .take r.moment.now
  | .publish _ => .take r.moment.now
  | .renew _ _ => .extend
  | _ => if after.standing = .held then .keep else .finish

def tenures (journey : ℕ) (rs : List Ruling) : List (Act ℤ × Tenure ℕ ℤ ℕ) :=
  (claimHistory journey rs).map fun e => (e.1.act e.2, e.2.tenure)

theorem Stored.heldBy_iff {stored : Stored} {claim : Claim} :
    stored.heldBy claim ↔ stored.standing = .held ∧ stored.claim.token = claim.token ∧
      stored.claim.fence = claim.fence := by
  simp [heldBy, Claim.is]

theorem Stored.heldBy_iff_own {stored : Stored} {claim : Claim} :
    stored.heldBy claim ↔ stored.tenure.own = (claim.token, claim.fence, true) := by
  rw [heldBy_iff]
  simp only [Tenure.own, tenure, Prod.mk.injEq, decide_eq_true_eq]
  tauto

/-! ### The fences -/

theorem mul_two_pow_or {a b i : ℕ} (h : b < 2 ^ i) : a * 2 ^ i ||| b = a * 2 ^ i + b := by
  rw [Nat.mul_comm, Nat.two_pow_add_eq_or_of_lt h]

/-- The epoch and the holder count a fence packs, where each fits its half. -/
theorem Claim.fenceAfter_eq {epoch e n : ℕ} {before : Option Claim} (he : epoch < 2 ^ 32)
    (hn : n < u32Max) (hbefore : ∀ claim, before = some claim → claim.fence = e * 2 ^ 32 + n)
    (hnone : before = none → n = 0) : fenceAfter epoch before = epoch * 2 ^ 32 + (n + 1) := by
  have hlt : n + 1 < 2 ^ 32 := by
    have : n < 2 ^ 32 - 1 := hn
    omega
  have hmod : (e * 2 ^ 32 + n) % 2 ^ 32 = n := by omega
  have hcount : (before.map fun claim => claim.fence % 2 ^ 32).getD 0 = n := by
    cases before with
    | none => exact (hnone rfl).symm
    | some claim => rw [Option.map_some, Option.getD_some, hbefore claim rfl, hmod]
  have hepoch : epoch * 2 ^ 32 % 2 ^ 64 = epoch * 2 ^ 32 := Nat.mod_eq_of_lt (by omega)
  simp only [fenceAfter, hcount, hepoch]
  have hle : n + 1 ≤ u32Max := Nat.succ_le_of_lt hn
  rw [min_eq_left hle, mul_two_pow_or hlt]

/-- A fence of at most the epoch `e`, after `n` takings. -/
def FenceAt (n e : ℕ) (before : Option Stored) : Prop :=
  (before = none → n = 0) ∧
    ∀ stored, before = some stored → ∃ e' ≤ e, stored.claim.fence = e' * 2 ^ 32 + n

theorem FenceAt.take {n e : ℕ} {before : Option Stored} (h : FenceAt n e before) {asked : Claim}
    {now until' : ℤ} {epoch journey : ℕ} {after : Stored}
    (hstep : asked.TakeStep now until' epoch journey before after) (he : e ≤ epoch)
    (hepoch : epoch < 2 ^ 32) (hn : n < u32Max) :
    FenceAt (n + 1) epoch (some after) ∧
      Allowed (.take now) (before.map Stored.tenure) after.tenure := by
  obtain ⟨hnone, hsome⟩ := h
  obtain ⟨-, hlive, rfl⟩ := hstep
  cases before with
  | none =>
      have hf : Claim.fenceAfter epoch none = epoch * 2 ^ 32 + (n + 1) :=
        Claim.fenceAfter_eq (e := 0) hepoch hn (by simp) fun _ => hnone rfl
      refine ⟨⟨by simp, ?_⟩, rfl, by simp⟩
      rintro stored hs
      cases hs
      exact ⟨epoch, le_rfl, hf⟩
  | some stored =>
      obtain ⟨e', he', hfence⟩ := hsome stored rfl
      have hf : Claim.fenceAfter epoch (some stored.claim) = epoch * 2 ^ 32 + (n + 1) := by
        refine Claim.fenceAfter_eq (e := e') hepoch hn ?_ (by simp)
        rintro claim hc
        cases hc
        exact hfence
      refine ⟨⟨by simp, ?_⟩, rfl, ?_⟩
      · rintro s hs
        cases hs
        exact ⟨epoch, le_rfl, hf⟩
      · rintro s hs
        cases hs
        constructor
        · change stored.claim.fence < Claim.fenceAfter epoch (some stored.claim)
          have : e' * 2 ^ 32 ≤ epoch * 2 ^ 32 := Nat.mul_le_mul_right _ (he'.trans he)
          omega
        · intro hstands
          have hheld : stored.standing = .held := by simpa [Stored.tenure] using hstands
          have := hlive stored rfl
          simp only [Claim.live, hheld, true_and, not_le] at this
          exact this

theorem FenceAt.same {n e : ℕ} {before : Option Stored} (h : FenceAt n e before)
    {stored after : Stored} (hs : before = some stored)
    (hfence : after.claim.fence = stored.claim.fence) : FenceAt n e (some after) := by
  refine ⟨by simp, ?_⟩
  rintro s hs'
  cases hs'
  obtain ⟨e', he', hf⟩ := h.2 stored hs
  exact ⟨e', he', hfence.trans hf⟩

theorem Claim.RenewStep.allowed {asked : Claim} {lease now : ℤ} {journey : ℕ}
    {before : Option Stored} {after : Stored}
    (h : asked.RenewStep lease now journey before after) :
    Allowed .extend (before.map Stored.tenure) after.tenure := by
  obtain ⟨-, stored, rfl, hheld, rfl⟩ := h
  have hstands := (Stored.heldBy_iff.mp hheld).1
  exact ⟨stored.tenure, rfl, by simp [Stored.tenure, hstands], le_max_right _ _,
    by simp [Stored.tenure, hstands]⟩

theorem Claim.ReleaseStep.allowed {asked : Claim} {journey : ℕ} {before : Option Stored}
    {after : Stored} (h : asked.ReleaseStep journey before after) :
    after.standing ≠ .held ∧ Allowed .finish (before.map Stored.tenure) after.tenure := by
  obtain ⟨-, stored, rfl, hheld, rfl⟩ := h
  have hstands := (Stored.heldBy_iff.mp hheld).1
  exact ⟨by simp, stored.tenure, rfl, by simp [Stored.tenure, hstands], by simp [Stored.tenure]⟩

theorem Claim.HandOnStep.allowed {asked : Claim} {journey : ℕ} {before : Option Stored}
    {after : Stored} (h : asked.HandOnStep journey before after) :
    Allowed (if after.standing = .held then .keep else .finish : Act ℤ)
      (before.map Stored.tenure) after.tenure := by
  obtain ⟨-, stored, rfl, hheld, rfl | ⟨until', rfl⟩⟩ := h
  · have hstands := (Stored.heldBy_iff.mp hheld).1
    exact ⟨stored.tenure, rfl, by simp [Stored.tenure, hstands], by simp [Stored.tenure]⟩
  · have hstands := (Stored.heldBy_iff.mp hheld).1
    exact ⟨stored.tenure, rfl, by simp [Stored.tenure, hstands],
      by simp [Stored.tenure, hstands]⟩

def takings (h : List (Ruling × Stored)) : ℕ := (h.filter fun e => takes (e.1.act e.2)).length

theorem Op.ClaimStep.allowed {r : Ruling} {journey n e : ℕ} {before : Option Stored}
    {after : Stored} (h : r.op.ClaimStep r.moment journey before after)
    (hfence : FenceAt n e before) (he : e ≤ r.moment.epoch) (hepoch : r.moment.epoch < 2 ^ 32)
    (hn : n + takings [(r, after)] ≤ u32Max) :
    FenceAt (n + takings [(r, after)]) r.moment.epoch (some after) ∧
      Allowed (r.act after) (before.map Stored.tenure) after.tenure := by
  have hup : FenceAt n r.moment.epoch before :=
    ⟨hfence.1, fun s hs => let ⟨e', he', hf⟩ := hfence.2 s hs; ⟨e', he'.trans he, hf⟩⟩
  obtain ⟨m, op, done, b, stage⟩ := r
  have hkeep : ∀ {asked : Claim}, asked.HandOnStep journey before after →
      takes (if after.standing = .held then .keep else .finish : Act ℤ) = false := by
    intro asked _
    split <;> rfl
  cases op with
  | claim asked lease =>
      have hone : takings [(⟨m, .claim asked lease, done, b, stage⟩, after)] = 1 := rfl
      rw [hone] at hn ⊢
      exact hfence.take h he hepoch (by omega)
  | publish asked =>
      have hone : takings [(⟨m, .publish asked, done, b, stage⟩, after)] = 1 := rfl
      rw [hone] at hn ⊢
      obtain ⟨claim, -, hstep⟩ := h
      exact hfence.take hstep he hepoch (by omega)
  | renew claims lease =>
      obtain ⟨claim, -, hstep⟩ := h
      refine ⟨?_, hstep.allowed⟩
      obtain ⟨-, stored, hs, -, rfl⟩ := hstep
      exact hup.same hs rfl
  | release asked =>
      obtain ⟨hne, hallowed⟩ := Claim.ReleaseStep.allowed h
      simp only [Ruling.act, hne, if_false]
      refine ⟨?_, hallowed⟩
      obtain ⟨-, stored, hs, -, rfl⟩ := h
      exact hup.same hs rfl
  | handOn asked =>
      refine ⟨?_, Claim.HandOnStep.allowed h⟩
      have hzero : takings [(⟨m, .handOn asked, done, b, stage⟩, after)] = 0 := by
        simp only [takings, Ruling.act, List.filter_cons, hkeep h]
        rfl
      rw [hzero]
      obtain ⟨-, stored, hs, -, rfl | ⟨until', rfl⟩⟩ := h <;> exact hup.same hs rfl
  | turn asked =>
      refine ⟨?_, Claim.HandOnStep.allowed h⟩
      have hzero : takings [(⟨m, .turn asked, done, b, stage⟩, after)] = 0 := by
        simp only [takings, Ruling.act, List.filter_cons, hkeep h]
        rfl
      rw [hzero]
      obtain ⟨-, stored, hs, -, rfl | ⟨until', rfl⟩⟩ := h <;> exact hup.same hs rfl
  | put kind key value => exact h.elim
  | replay asked => exact h.elim
  | audit entry => exact h.elim
  | kept number => exact h.elim

theorem Claimed.history {journey : ℕ} {before last : Option Stored}
    {h : List (Ruling × Stored)} (hc : Claimed journey before h last) {n e : ℕ}
    (hfence : FenceAt n e before) (he : ∀ x ∈ h, e ≤ x.1.moment.epoch)
    (hgrow : h.Pairwise fun x y => x.1.moment.epoch ≤ y.1.moment.epoch)
    (hepoch : ∀ x ∈ h, x.1.moment.epoch < 2 ^ 32) (hn : n + takings h ≤ u32Max) :
    History (before.map Stored.tenure) (h.map fun x => (x.1.act x.2, x.2.tenure))
      (last.map Stored.tenure) := by
  induction hc generalizing n e with
  | nil _ => exact .nil _
  | @cons before last r after rest step _ ih =>
      obtain ⟨hfirst, hrest⟩ := List.pairwise_cons.mp hgrow
      have hsplit : takings ((r, after) :: rest) = takings [(r, after)] + takings rest := by
        simp only [takings, List.filter_cons]
        split <;> simp [Nat.add_comm]
      obtain ⟨hnext, hallowed⟩ :=
        step.allowed hfence (he (r, after) (by simp)) (hepoch (r, after) (by simp)) (by omega)
      refine .cons hallowed (ih hnext hfirst hrest (fun x hx => hepoch x (by simp [hx])) ?_)
      omega

/-! ## What is answered with a claim -/

theorem Batch.Proper.stored_run {b : Batch} (hb : b.Proper) (claim : Claim) :
    claim.stored.run b = .ok (b.claimOn claim.journey, b) := by
  have hread : b.read (.claim, .id claim.journey) = .ok ((b.claimOn claim.journey).map .claim) :=
    (hb (claimPlace claim.journey)).claim.1
  change (b.read (.claim, .id claim.journey) >>= decoded (α := Stored)).map (·, b) = _
  rw [hread]
  cases b.claimOn claim.journey with
  | none => rfl
  | some stored => rfl

/-- The claim a batch keeps for a request that asks for it again, where that holds it. -/
def Batch.heldFor (b : Batch) (asked : Claim) : Option Claim :=
  match b.claimOn asked.journey with
  | some stored => if stored.askedBy asked then some stored.claim else none
  | none => none

theorem Publication.standing_run {b : Batch} (hb : b.Proper) (claims : List Claim) :
    (standing claims).run b = .ok (claims.filterMap b.heldFor, b) := by
  induction claims with
  | nil => rfl
  | cons asked rest ih =>
      unfold standing
      rw [Decision.run_bind_ok (hb.stored_run asked), Decision.run_bind_ok ih,
        List.filterMap_cons]
      have hheld : b.heldFor asked = match b.claimOn asked.journey with
          | some stored => if stored.askedBy asked then some stored.claim else none
          | none => none := rfl
      rw [hheld]
      cases b.claimOn asked.journey with
      | none => rfl
      | some stored =>
          by_cases hasked : stored.askedBy asked = true
          · simp only [if_pos hasked]
            rfl
          · simp only [if_neg hasked]
            rfl

/-- The claims an operation answers with. -/
def Done.given : Done → List Claim
  | .claim held => held.toList
  | .claims held => held
  | _ => []

/-- The claim of `journey` is held under `token` and has not lapsed at `now`. -/
def Batch.Live (journey : ℕ) (now : ℤ) (token : ℕ) (b : Batch) : Prop :=
  b.Proper ∧ ∃ stored, b.claimOn journey = some stored ∧ Claim.live now stored ∧
    stored.claim.token = token

section Live

variable {journey token : ℕ} {now : ℤ} {b b' : Batch}

theorem Batch.Live.of_adds {kinds : List Kind} (h : b.Live journey now token)
    (hadds : Adds kinds b b') (hk : .claim ∉ kinds) : b'.Live journey now token :=
  ⟨hadds.proper h.1, by rw [hadds.claimOn hk]; exact h.2⟩

theorem Claim.hold_adds (stored : Stored) (b : Batch) :
    Adds [.claim] b (b.put .claim (.id stored.claim.journey) (some (Form.bytes stored))) :=
  ⟨rfl, le_rfl, fun _ => rfl, [_], rfl, by simp [Change.Proper, Form.bytes, Kind.holds]⟩

theorem Claim.take_live {claim : Claim} {until' : ℤ} {epoch : ℕ} {held : Option Claim}
    (h : b.Live journey now token) (hrun : (claim.take now until' epoch).run b = .ok (held, b')) :
    b'.Live journey now token ∧
      ∀ given ∈ held, given.journey = journey → given.token = token := by
  obtain ⟨hb, stored, hs, hlive, htoken⟩ := h
  rcases take_ok hb hrun with ⟨stored', hs', -, rfl, rfl⟩ | ⟨after, hstep, rfl, rfl⟩
  · refine ⟨⟨hb, stored, hs, hlive, htoken⟩, fun given hgiven hj => ?_⟩
    split at hgiven
    · next htoken' =>
        obtain rfl : stored'.claim = given := by simpa using hgiven
        have hkey : stored'.claim.journey = claim.journey :=
          (hb (claimPlace claim.journey)).claim.2 stored' hs'
        obtain rfl : stored' = stored := by
          rw [← hkey, hj, hs] at hs'
          exact (Option.some.inj hs').symm
        exact htoken
    · cases hgiven
  · have hkey : after.claim.journey = claim.journey := by rw [hstep.2.2]
    have hne : after.claim.journey ≠ journey := by
      rintro hj
      exact hstep.2.1 stored (by rw [← hkey, hj, hs]) hlive
    refine ⟨⟨(hold_adds after b).proper hb, stored, ?_, hlive, htoken⟩, fun given hgiven hj => ?_⟩
    · rw [Batch.claimOn_put, if_neg hne, hs]
    · obtain rfl : after.claim = given := by simpa using hgiven
      exact absurd hj hne

theorem Claim.renewOne_live {claim : Claim} {lease : ℤ} {held : List Claim}
    (h : b.Live journey now token) (hrun : (renewOne lease now claim).run b = .ok (held, b')) :
    b'.Live journey now token ∧
      ∀ given ∈ held, given.journey = journey → given.token = token := by
  obtain ⟨hb, stored, hs, hlive, htoken⟩ := h
  rcases renewOne_ok hb hrun with ⟨-, rfl, rfl⟩ | ⟨after, hstep, rfl, hkey, rfl⟩
  · exact ⟨⟨hb, stored, hs, hlive, htoken⟩, by simp⟩
  · obtain ⟨-, before, hbefore, -, hafter⟩ := hstep
    by_cases hj : after.claim.journey = journey
    · -- The claim renewed is the one held: its token stays, and its deadline is no earlier.
      obtain rfl : before = stored := by
        rw [← hkey, hj, hs] at hbefore
        exact (Option.some.inj hbefore).symm
      have htoken' : after.claim.token = token := by rw [hafter]; exact htoken
      refine ⟨⟨(hold_adds after b).proper hb, after, ?_, ?_, htoken'⟩, fun given hgiven _ => ?_⟩
      · rw [Batch.claimOn_put, if_pos hj]
      · rw [hafter]
        exact ⟨rfl, hlive.2.trans (le_max_right _ _)⟩
      · rw [List.mem_singleton.mp hgiven]
        exact htoken'
    · refine ⟨⟨(hold_adds after b).proper hb, stored, ?_, hlive, htoken⟩, fun given hgiven hj' => ?_⟩
      · rw [Batch.claimOn_put, if_neg hj, hs]
      · rw [List.mem_singleton.mp hgiven] at hj'
        exact absurd hj' hj

theorem Claim.renew_live {claims : List Claim} {lease : ℤ} {held : List Claim}
    (h : b.Live journey now token) (hrun : (renew lease now claims).run b = .ok (held, b')) :
    ∀ given ∈ held, given.journey = journey → given.token = token := by
  induction claims generalizing b held with
  | nil =>
      cases hrun
      simp
  | cons claim claims ih =>
      obtain ⟨first, b₁, hfirst, hrun⟩ := Decision.bind_ok_iff.mp hrun
      obtain ⟨rest, b₂, hrest, hrun⟩ := Decision.bind_ok_iff.mp hrun
      cases hrun
      obtain ⟨hlive, hgiven⟩ := renewOne_live h hfirst
      intro given hmem
      rcases List.mem_append.mp hmem with hmem | hmem
      · exact hgiven given hmem
      · exact ih hlive hrest given hmem

theorem Publication.taking_live {claims : List Claim} {until' : ℤ} {epoch : ℕ}
    {held : List Claim} (h : b.Live journey now token)
    (hrun : (taking now until' epoch claims).run b = .ok (held, b')) :
    ∀ given ∈ held, given.journey = journey → given.token = token := by
  induction claims generalizing b held with
  | nil =>
      cases hrun
      simp
  | cons claim claims ih =>
      obtain ⟨first, b₁, hfirst, hrun⟩ := Decision.bind_ok_iff.mp hrun
      obtain ⟨rest, b₂, hrest, hrun⟩ := Decision.bind_ok_iff.mp hrun
      cases hrun
      obtain ⟨hlive, hgiven⟩ := Claim.take_live h hfirst
      intro given hmem
      rcases List.mem_append.mp hmem with hmem | hmem
      · exact hgiven given (by simpa using hmem)
      · exact ih hlive hrest given hmem

/-- While a claim is held and has not lapsed, no operation answers with one of its Journey's but
under its own token. -/
theorem Ruling.Holds.given_live {r : Ruling} (h : r.Holds digest)
    (hlive : r.before.Live journey r.moment.now token) {claim : Claim}
    (hgiven : claim ∈ r.done.given) (hj : claim.journey = journey) : claim.token = token := by
  obtain ⟨m, op, done, b, stage⟩ := r
  have hran := h.ran
  have hstaged : b.staged.Live journey m.now token := hlive
  cases op with
  | claim asked lease =>
      obtain ⟨held, b', hrun, hlast⟩ := Decision.bind_ok_iff.mp hran
      cases hlast
      exact (Claim.take_live hstaged hrun).2 claim (by simpa [Done.given] using hgiven) hj
  | renew claims lease =>
      obtain ⟨held, b', hrun, hlast⟩ := Decision.bind_ok_iff.mp hran
      cases hlast
      exact Claim.renew_live hstaged hrun claim hgiven hj
  | publish asked =>
      obtain ⟨decided, b', hrun, hlast⟩ := Decision.bind_ok_iff.mp hran
      rcases Publication.decide_ok hrun with
        ⟨-, rfl, held, rfl, hstanding⟩ | ⟨-, b₁, b₂, held, rfl, hwrites, htaking, -⟩
      · rw [Publication.standing_run hstaged.1] at hstanding
        obtain rfl : asked.claims.filterMap b.staged.heldFor = held :=
          congrArg Prod.fst (Except.ok.inj hstanding)
        obtain rfl : done = .claims _ := (congrArg Prod.fst (Except.ok.inj hlast)).symm
        obtain ⟨asked', -, hfor⟩ := List.mem_filterMap.mp hgiven
        obtain ⟨hb, stored, hs, -, htoken⟩ := hstaged
        unfold Batch.heldFor at hfor
        split at hfor
        · next stored' hs' =>
            split at hfor
            · obtain rfl := Option.some.inj hfor
              have hkey : stored'.claim.journey = asked'.journey :=
                (hb (claimPlace asked'.journey)).claim.2 stored' hs'
              rw [← hkey, hj, hs] at hs'
              obtain rfl := Option.some.inj hs'
              exact htoken
            · cases hfor
        · cases hfor
      · obtain ⟨_, b₃, -, hlast⟩ := Decision.bind_ok_iff.mp hlast
        cases hlast
        have hlive' : b₁.Live journey m.now token :=
          hstaged.of_adds (Publication.writes_writes asked _ _ _ hwrites) (by decide)
        have hmem : claim ∈ held := hgiven
        exact Publication.taking_live hlive' htaking claim hmem hj
  | put kind key value =>
      obtain ⟨_, b', -, hlast⟩ := Decision.bind_ok_iff.mp hran
      cases hlast
      cases hgiven
  | release asked =>
      obtain ⟨yes, b', -, hlast⟩ := Decision.bind_ok_iff.mp hran
      cases hlast
      cases hgiven
  | handOn asked =>
      obtain ⟨yes, b', -, hlast⟩ := Decision.bind_ok_iff.mp hran
      cases hlast
      cases hgiven
  | turn asked =>
      obtain ⟨yes, b', -, hlast⟩ := Decision.bind_ok_iff.mp hran
      cases hlast
      cases hgiven
  | replay asked =>
      obtain ⟨replayed, b', -, hlast⟩ := Decision.bind_ok_iff.mp hran
      cases replayed with
      | now =>
          obtain ⟨_, b₃, -, hlast⟩ := Decision.bind_ok_iff.mp hlast
          cases hlast
          cases hgiven
      | before => cases hlast; cases hgiven
      | absent => cases hlast; cases hgiven
  | audit entry =>
      obtain ⟨_, b', -, hlast⟩ := Decision.bind_ok_iff.mp hran
      cases hlast
      cases hgiven
  | kept number =>
      obtain ⟨yes, b', -, hlast⟩ := Decision.bind_ok_iff.mp hran
      cases hlast
      cases hgiven

/-- One who asks for a claim and is given it holds it, under the token asked. -/
theorem Ruling.Holds.claim_given {r : Ruling} (h : r.Holds digest) (hb : r.before.Proper)
    {asked claim : Claim} {lease : ℤ} (hop : r.op = .claim asked lease)
    (hdone : r.done = .claim (some claim)) :
    claim.token = asked.token ∧ ∃ stored, r.stage.claimOn asked.journey = some stored ∧
      stored.claim = claim ∧ stored.standing = .held := by
  obtain ⟨m, op, done, b, stage⟩ := r
  subst hop hdone
  obtain ⟨held, b', hrun, hlast⟩ := Decision.bind_ok_iff.mp h.ran
  cases hlast
  rcases Claim.take_ok (b := b.staged) hb hrun with
    ⟨stored, hs, hlive, rfl, hheld⟩ | ⟨after, hstep, hheld, rfl⟩
  · split at hheld
    · next htoken =>
        obtain rfl := Option.some.inj hheld
        exact ⟨htoken, stored, hs, rfl, hlive.1⟩
    · cases hheld
  · obtain rfl := Option.some.inj hheld
    have hkey : after.claim.journey = asked.journey := by rw [hstep.2.2]
    refine ⟨by rw [hstep.2.2], after, ?_, rfl, by rw [hstep.2.2]⟩
    rw [Batch.claimOn_put, if_pos hkey]

end Live

/-! ## The law of a Journey's claim -/

def Op.under : Op → Option Claim
  | .release asked => some asked
  | .handOn asked => some asked.claim
  | .turn asked => some asked.handOn.claim
  | _ => none

/-- Whether a ruling left anything, a Work Process's Instances and keys aside. -/
def Ruling.hasEffect (r : Ruling) : Prop :=
  ∃ c ∈ r.stage.changes, c.kind ≠ .processInstance ∧ c.kind ≠ .instanceKey

/-- The claim of a Journey that was taken last, where it was not ended since. -/
def standing (journey : ℕ) (rs : List Ruling) : Option (ℕ × ℕ × Bool) :=
  current none (tenures journey rs)

/-- What holds of a Journey's claim over the rulings of a run. -/
structure Fenced (journey : ℕ) (rs : List Ruling) : Prop where
  /-- The fences of successive takings strictly grow. -/
  fences : ((tenures journey rs).filter fun e => takes e.1).Pairwise
    fun a b => a.2.fence < b.2.fence
  /-- No claim is taken while one is held and not lapsed. -/
  exclusive : ∀ pre now t post, tenures journey rs = pre ++ (.take now, t) :: post →
    ∀ s, (pre.getLast?.map Prod.snd) = some s → s.stands = true → s.until' < now
  /-- A release, a hand-on or a turn has an effect only under the claim taken last, not ended
  since. -/
  holder : ∀ pre r post claim, rs = pre ++ r :: post → r.op.under = some claim →
    claim.journey = journey → r.hasEffect →
      standing journey pre = some (claim.token, claim.fence, true)
  /-- A renewal renews, of the claims asked, those taken last and not ended since, and no
  other. -/
  renewed : ∀ pre r post claims lease, rs = pre ++ r :: post → r.op = .renew claims lease →
    (r.claims journey).length = (claims.filter fun claim => claim.journey = journey ∧
      standing journey pre = some (claim.token, claim.fence, true)).length
  /-- A renewal never brings a deadline forward. -/
  renewal : ∀ pre t post, tenures journey rs = pre ++ (.extend, t) :: post →
    ∃ s, (pre.getLast?.map Prod.snd) = some s ∧ s.until' ≤ t.until'
  /-- One who asks for the claim and is given it holds it, under the token asked. -/
  given : ∀ pre r post asked lease claim, rs = pre ++ r :: post → r.op = .claim asked lease →
    asked.journey = journey → r.done = .claim (some claim) →
      claim.token = asked.token ∧
        standing journey (pre ++ [r]) = some (claim.token, claim.fence, true)
  /-- While it is held and has not lapsed, nothing is answered with it under another token. -/
  alone : ∀ pre r post claim, rs = pre ++ r :: post → claim ∈ r.done.given →
    claim.journey = journey → ∀ s, (tenures journey pre).getLast?.map Prod.snd = some s →
      s.stands = true → r.moment.now ≤ s.until' → claim.token = s.token

theorem Ruling.Holds.heldBy {r : Ruling} (h : r.Holds digest) (hb : r.before.Proper)
    {claim : Claim} (hunder : r.op.under = some claim) (heffect : r.hasEffect) :
    ∃ stored, r.before.claimOn claim.journey = some stored ∧ stored.heldBy claim := by
  obtain ⟨m, op, done, b, stage⟩ := r
  obtain ⟨c, hc, hne⟩ := heffect
  have hran := h.ran
  have hstill : stage ≠ b.staged := by
    rintro rfl
    simp [Batch.staged] at hc
  have hhandOn : ∀ {asked : HandOn} {yes : Bool} {b' : Batch},
      (asked.decide m.now).run b.staged = .ok (yes, b') → b' ≠ b.staged →
        ∃ stored, b.claimOn asked.claim.journey = some stored ∧ stored.heldBy asked.claim := by
    intro asked yes b' hd hb'
    rcases HandOn.decide_ok (b := b.staged) hb hd with ⟨hsame, _⟩ | ⟨stored, _, hs, hheld, _⟩
    · exact absurd hsame hb'
    · exact ⟨stored, hs, hheld⟩
  cases op with
  | release asked =>
      cases hunder
      obtain ⟨yes, b', hd, hp⟩ := Decision.bind_ok_iff.mp hran
      cases hp
      rcases Claim.release_ok (b := b.staged) hb hd with ⟨hsame, _⟩ | ⟨after, hstep, _⟩
      · exact absurd hsame hstill
      · obtain ⟨-, stored, hs, hheld, -⟩ := hstep
        exact ⟨stored, hs, hheld⟩
  | handOn asked =>
      cases hunder
      obtain ⟨yes, b', hd, hp⟩ := Decision.bind_ok_iff.mp hran
      cases hp
      exact hhandOn hd hstill
  | turn asked =>
      cases hunder
      obtain ⟨yes, b', hd, hp⟩ := Decision.bind_ok_iff.mp hran
      cases hp
      rcases Turn.decide_ok (b := b.staged) hb hd with ⟨hsame, _⟩ | ⟨b₁, hd₁, hw, _⟩
      · exact absurd hsame hstill
      · -- What a turn writes beside its hand-on are Instances and keys alone.
        refine hhandOn hd₁ ?_
        rintro rfl
        obtain ⟨added, he, hadded⟩ := (Turn.write_writes _ _ _ _ _ _ hw).changes
        rw [he] at hc
        have hmem : c ∈ added := by simpa [Batch.staged] using hc
        have := (hadded c hmem).2
        simp only [Turn.writeKinds, List.mem_cons, List.not_mem_nil, or_false] at this
        exact this.elim hne.1 hne.2
  | put kind key value => simp [Op.under] at hunder
  | claim asked lease => simp [Op.under] at hunder
  | renew claims lease => simp [Op.under] at hunder
  | publish asked => simp [Op.under] at hunder
  | replay asked => simp [Op.under] at hunder
  | audit entry => simp [Op.under] at hunder
  | kept number => simp [Op.under] at hunder

theorem Claim.renew_count {lease now : ℤ} {claims : List Claim} {b b' : Batch}
    {held : List Claim} (journey : ℕ) (hb : b.Proper)
    (h : (renew lease now claims).run b = .ok (held, b')) :
    ∃ added, b'.changes = b.changes ++ added ∧ (claimsOf journey added).length =
      (claims.filter fun claim => claim.journey = journey ∧
        (b.claimOn journey).map (fun s => s.tenure.own) =
          some (claim.token, claim.fence, true)).length := by
  induction claims generalizing b held with
  | nil => cases h; exact ⟨[], by simp, by simp [claimsOf]⟩
  | cons claim claims ih =>
      obtain ⟨one, b₁, h₁, h⟩ := Decision.bind_ok_iff.mp h
      obtain ⟨rest, b₂, h₂, h⟩ := Decision.bind_ok_iff.mp h
      cases h
      have hb₁ : b₁.Proper := (renewOne_writes lease now claim b one b₁ h₁).proper hb
      obtain ⟨added, he, hcount⟩ := ih hb₁ h₂
      rcases renewOne_ok hb h₁ with ⟨hnot, rfl, _⟩ | ⟨after, hstep, _, hkey, rfl⟩
      · refine ⟨added, he, ?_⟩
        rw [hcount, List.filter_cons_of_neg]
        rintro hmatch
        simp only [decide_eq_true_eq] at hmatch
        obtain ⟨rfl, hown⟩ := hmatch
        obtain ⟨stored, hs, hown⟩ := Option.map_eq_some_iff.mp hown
        exact hnot stored hs (Stored.heldBy_iff_own.mpr hown)
      · refine ⟨⟨.claim, .id after.claim.journey, some (Form.bytes after)⟩ :: added,
          by rw [he]; simp, ?_⟩
        obtain ⟨-, stored, hs, hheld, hafter⟩ := hstep
        have hown : after.tenure.own = stored.tenure.own := by
          rw [hafter]
          simp [Stored.tenure, Tenure.own, (Stored.heldBy_iff.mp hheld).1]
        by_cases hj : claim.journey = journey
        · have hafterOn : (b.put .claim (.id after.claim.journey)
              (some (Form.bytes after))).claimOn journey = some after := by
            rw [Batch.claimOn_put, if_pos (hkey.trans hj)]
          rw [hafterOn] at hcount
          subst hj
          have hone : Change.claimOf claim.journey
              ⟨.claim, .id after.claim.journey, some (Form.bytes after)⟩ = some after := by
            simp [Change.claimOf, Change.place, claimPlace, hkey, storedIn, Form.bytes]
          rw [claimsOf, List.filterMap_cons_some hone, List.length_cons, ← claimsOf, hcount]
          simp only [hs, Option.map_some, hown]
          rw [List.filter_cons_of_pos, List.length_cons]
          simp [Stored.heldBy_iff_own.mp hheld]
        · have hafterOn : (b.put .claim (.id after.claim.journey)
              (some (Form.bytes after))).claimOn journey = b.claimOn journey := by
            rw [Batch.claimOn_put, if_neg fun he => hj (hkey.symm.trans he)]
          rw [hafterOn] at hcount
          have hnone : Change.claimOf journey
              ⟨.claim, .id after.claim.journey, some (Form.bytes after)⟩ = none := by
            simp [Change.claimOf, Change.place, claimPlace, hkey, hj]
          rw [claimsOf, List.filterMap_cons_none hnone, ← claimsOf, hcount,
            List.filter_cons_of_neg]
          simp [hj]

/-- Whatever operations a run decides, in whatever groups and order, the claim of a Journey is a
fenced lease: where the epoch never goes back and stays below 2³², and fewer than 2³² - 1
holders took it. -/
theorem claim_fenced {steps : List Step} (hmade : ∀ s ∈ steps, s.Made) (journey : ℕ)
    (hgrow : (Writer.fresh.ruled digest steps).Pairwise
      fun r r' => r.moment.epoch ≤ r'.moment.epoch)
    (hepoch : ∀ r ∈ Writer.fresh.ruled digest steps, r.moment.epoch < 2 ^ 32)
    (hholders : takings (claimHistory journey (Writer.fresh.ruled digest steps)) < 2 ^ 32 - 1) :
    Fenced journey (Writer.fresh.ruled digest steps) := by
  have hproper : Writer.fresh.store.Proper := Store.empty_proper
  have hrs : ∀ r ∈ Writer.fresh.ruled digest steps, r.Holds digest ∧ r.before.Proper :=
    fun r hr => ⟨Writer.ruled_hold hmade r hr, Writer.ruled_proper hmade hproper r hr⟩
  have hfollows : Follows (claimPlace journey) (.ok none) (Writer.fresh.ruled digest steps)
      ((Writer.fresh.run digest steps).store.get (claimPlace journey)) :=
    Writer.run_follows hmade hproper ⟨⟨rfl, by simp [claimPlace], by simp [claimPlace]⟩,
      by simp [claimPlace], by simp [claimPlace]⟩
  generalize Writer.fresh.ruled digest steps = rs at *
  have hhistory : ∀ {pre post : List Ruling} {y}, rs = pre ++ post →
      Follows (claimPlace journey) (.ok none) pre y →
        History none (tenures journey pre) ((storedIn y).map Stored.tenure) := by
    intro pre post y hsplit hpre
    subst hsplit
    have hmem : ∀ x ∈ claimHistory journey pre, x.1 ∈ pre := by
      rintro x hx
      obtain ⟨r, hr, hx⟩ := List.mem_flatMap.mp hx
      obtain ⟨stored, -, rfl⟩ := List.mem_map.mp hx
      exact hr
    refine (hpre.claimed fun r hr => hrs r (by simp [hr])).history (n := 0) (e := 0)
      ⟨by simp, by simp [storedIn]⟩ (by simp) ?_
      (fun x hx => hepoch x.1 (by simp [hmem x hx])) ?_
    · rw [claimHistory, List.pairwise_flatMap]
      refine ⟨fun r _ => List.pairwise_map.mpr (List.pairwise_of_forall fun _ _ => le_rfl), ?_⟩
      refine (List.pairwise_append.mp hgrow).1.imp ?_
      rintro r r' hle x hx y hy
      obtain ⟨_, -, rfl⟩ := List.mem_map.mp hx
      obtain ⟨_, -, rfl⟩ := List.mem_map.mp hy
      exact hle
    · rw [claimHistory_append] at hholders
      simp only [takings, List.filter_append, List.length_append, u32Max] at hholders ⊢
      omega
  have hwhole := hhistory (List.append_nil rs).symm hfollows
  have hbefore : ∀ {pre post : List Ruling} {r : Ruling}, rs = pre ++ r :: post →
      standing journey pre = (r.before.claimOn journey).map (fun s => s.tenure.own) := by
    intro pre post r hsplit
    have hpre := (hsplit ▸ hfollows).split.1
    have := (hhistory hsplit hpre).current_eq
    simpa [standing, Batch.claimOn, Option.map_map, Function.comp_def] using this
  refine ⟨hwhole.takings_ascend, ?_, ?_, ?_, ?_, ?_, ?_⟩
  · intro pre now t post hsplit s hlast hstands
    obtain ⟨v, hpre, hallowed, -⟩ := (hsplit ▸ hwhole).split
    rw [hpre.last] at hallowed
    exact (hallowed.2 s (by simp [hlast])).2 hstands
  · intro pre r post claim hsplit hunder hj heffect
    obtain ⟨hr, hb⟩ := hrs r (by simp [hsplit])
    obtain ⟨stored, hs, hheld⟩ := hr.heldBy hb hunder heffect
    rw [hbefore hsplit, ← hj, hs]
    exact congrArg some (Stored.heldBy_iff_own.mp hheld)
  · intro pre r post claims lease hsplit hop
    obtain ⟨hr, hb⟩ := hrs r (by simp [hsplit])
    rw [hbefore hsplit]
    obtain ⟨m, op, done, b, stage⟩ := r
    subst hop
    obtain ⟨held, b', hrenew, hp⟩ := Decision.bind_ok_iff.mp hr.ran
    cases hp
    obtain ⟨added, he, hcount⟩ := Claim.renew_count journey (b := b.staged) hb hrenew
    have hchanges : stage.changes = added := by simpa [Batch.staged] using he
    rw [Ruling.claims, hchanges, hcount]
    rfl
  · intro pre t post hsplit
    obtain ⟨v, hpre, hallowed, -⟩ := (hsplit ▸ hwhole).split
    obtain ⟨s, hv, -, hle, -⟩ := hallowed
    rw [hpre.last] at hv
    exact ⟨s, by simpa using hv, hle⟩
  · intro pre r post asked lease claim hsplit hop hj hdone
    obtain ⟨hr, hb⟩ := hrs r (by simp [hsplit])
    obtain ⟨htoken, stored, hs, rfl, hstands⟩ := hr.claim_given hb hop hdone
    refine ⟨htoken, ?_⟩
    obtain ⟨hpre, hpost⟩ := (hsplit ▸ hfollows).split
    have hone : Follows (claimPlace journey) (.ok none) (pre ++ [r])
        (r.stage.read (claimPlace journey)) := hpre.append (.cons (.nil _))
    have hsplit' : rs = (pre ++ [r]) ++ post := by simp [hsplit]
    have hcurrent := (hhistory hsplit' hone).current_eq
    have hstored : storedIn (r.stage.read (claimPlace journey)) = some stored := hj ▸ hs
    have hown : stored.tenure.own = (stored.claim.token, stored.claim.fence, true) := by
      simp [Tenure.own, Stored.tenure, hstands]
    simpa only [standing, hstored, Option.map_some, Option.map_none, hown] using hcurrent
  · intro pre r post claim hsplit hgiven hj s hlast hstands hnow
    obtain ⟨hr, hb⟩ := hrs r (by simp [hsplit])
    have hpre := (hhistory hsplit (hsplit ▸ hfollows).split.1).last
    rw [hlast] at hpre
    obtain ⟨stored, hs, rfl⟩ := Option.map_eq_some_iff.mp (show _ = some s by simpa using hpre)
    exact hr.given_live ⟨hb, stored, hs, ⟨by simpa [Stored.tenure] using hstands, hnow⟩, rfl⟩
      hgiven hj

/-- A claim taken, lapsed and taken again, its late holder's renewal and release without
effect. -/
def retaken : List Step :=
  let at' (now : ℤ) (ops : List Op) : Step := .group ⟨now, 3, .asWritten, none⟩ ops
  [at' 0 [.claim ⟨1, "first", 7, 0, 0⟩ 10],
    at' 20 [.claim ⟨1, "second", 8, 0, 0⟩ 10, .renew [⟨1, "first", 7, 0, 12884901889⟩] 50],
    at' 25 [.release ⟨1, "first", 7, 0, 12884901889⟩,
      .renew [⟨1, "second", 8, 0, 12884901890⟩] 1],
    .restart,
    at' 26 [.release ⟨1, "second", 8, 0, 12884901890⟩]]

theorem claim_fenced_retaken : Fenced 1 (Writer.fresh.ruled (fun _ => []) retaken) :=
  claim_fenced (by simp [retaken, Step.Made, Op.Made]) 1 (by decide) (by decide) (by decide)

end XmipPersist
