import XmipPersist.Model.Queue

/-! # Claims, and the operations decided under one -/

namespace XmipPersist

/-! ## A place held for many Journeys -/

namespace Origin

/-- The holders a Journey counts toward, each with whether it keeps it open: its origin, and
its Send Port Group delivery. -/
def holders (record : JourneyRecord) : (Option ℕ × Bool) × (Option ℕ × Bool) :=
  ((record.facts.origin, record.facts.isOpen),
    (record.facts.groupDelivery, record.facts.groupOpen))

/-- The queues of `places` that `holder` takes and `queues` do not have yet, after them. -/
def taking (holder : ℕ) (places : List Hold) (queues : List ℕ) : List ℕ :=
  places.foldl (fun queues place =>
    if place.journey = holder ∧ place.queue ∉ queues then queues ++ [place.queue]
    else queues) queues

/-- A 32-bit count of open Journeys, one more or one fewer, or as it is. -/
def moved (isOpen : ℕ) : Option Bool → ℕ
  | some true => (isOpen + 1) % 2 ^ 32
  | some false => isOpen - 1
  | none => isOpen

/-- One Journey of `holder` opened or closed, and the places it takes kept with it. -/
def count (holder : ℕ) (move : Option Bool) (places : List Hold) : Deciding Unit := do
  let found ← readAs Origin .origin (.id holder)
  let before := found.getD ⟨0, []⟩
  let counted : Origin := ⟨moved before.isOpen move, taking holder places before.queues⟩
  if counted.isOpen = 0 then do
    counted.queues.forM fun queue => Hold.letGoOf queue holder
    put .origin (.id holder) none
  else
    put .origin (.id holder) (some (Form.bytes counted))

/-- One of a Journey's two holders counted, `kept` being what its record before said. -/
def countedFor (kept : Option (Option ℕ × Bool)) (holder : Option ℕ × Bool)
    (places : List Hold) : Deciding Unit :=
  match holder with
  | (none, _) => pure ()
  | (some holder, isOpen) =>
      let was := decide (kept = some (some holder, true))
      let takes := places.any fun place => place.journey = holder
      if was ≠ isOpen ∨ takes = true then
        count holder (if was ≠ isOpen then some isOpen else none) places
      else pure ()

/-- `record`, about to be written, counted for each holder it names. -/
def counted (record : JourneyRecord) (places : List Hold) : Deciding Unit := do
  let before ← readAs JourneyRecord .journey (.id record.journey)
  let kept := before.map holders
  countedFor (kept.map Prod.fst) (holders record).1 places
  countedFor (kept.map Prod.snd) (holders record).2 places

end Origin

/-! ## A claim -/

namespace Claim

/-- The same holder's token and fence. -/
def is (claim other : Claim) : Bool :=
  claim.token = other.token ∧ claim.fence = other.fence

/-- The fence a claim taken in `epoch` after `before` carries: the epoch in the high 32 bits,
the holder count, one more, in the low 32. -/
def fenceAfter (epoch : ℕ) (before : Option Claim) : ℕ :=
  let holders := (before.map fun claim => claim.fence % 2 ^ 32).getD 0
  (epoch * 2 ^ 32) % 2 ^ 64 ||| min (holders + 1) u32Max

def stored (claim : Claim) : Deciding (Option Stored) :=
  readAs Stored .claim (.id claim.journey)

/-- `claim` held until `until`. -/
def hold (claim : Claim) (until' : ℤ) : Deciding Claim := do
  let claim := { claim with untilUnixNanos := until' }
  putRecord .claim claim.journey (Stored.mk claim .held)
  pure claim

/-- `claim` ended as `standing` says, its token kept. -/
def end' (claim : Claim) (standing : Standing) : Deciding Unit :=
  putRecord .claim claim.journey (Stored.mk claim standing)

end Claim

namespace Stored

def heldBy (stored : Stored) (claim : Claim) : Bool :=
  stored.standing = .held ∧ stored.claim.is claim

/-- Whether it is held by the request `asked`, asked again. -/
def askedBy (stored : Stored) (asked : Claim) : Bool :=
  stored.standing = .held ∧ stored.claim.token = asked.token

end Stored

namespace Claim

/-- Whether a stored claim is held and has not lapsed at `now`. -/
def live (now : ℤ) (stored : Stored) : Prop :=
  stored.standing = .held ∧ now ≤ stored.claim.untilUnixNanos

instance (now : ℤ) (stored : Stored) : Decidable (live now stored) :=
  inferInstanceAs (Decidable (_ ∧ _))

/-- `claim` taken until `until` where no other holds its Message. -/
def take (claim : Claim) (now until' : ℤ) (epoch : ℕ) : Deciding (Option Claim) := do
  match ← claim.stored with
  | some stored =>
      if live now stored then
        pure (if stored.claim.token = claim.token then some stored.claim else none)
      else do
        let held ← hold { claim with fence := fenceAfter epoch (some stored.claim) } until'
        pure (some held)
  | none => do
      let held ← hold { claim with fence := fenceAfter epoch none } until'
      pure (some held)

/-- One claim its holder still holds, held for `lease` from `now`; a later deadline is kept. -/
def renewOne (lease now : ℤ) (claim : Claim) : Deciding (List Claim) := do
  match ← claim.stored with
  | some stored =>
      if stored.heldBy claim then do
        let held ← hold stored.claim
          (max (saturatingAdd now lease) stored.claim.untilUnixNanos)
        pure [held]
      else pure []
  | none => pure []

def renew (lease now : ℤ) : List Claim → Deciding (List Claim)
  | [] => pure []
  | claim :: claims => do
      let renewed ← renewOne lease now claim
      let rest ← renew lease now claims
      pure (renewed ++ rest)

def release (claim : Claim) : Deciding Bool := do
  match ← claim.stored with
  | some stored =>
      if stored.heldBy claim then do
        stored.claim.end' .released
        pure true
      else pure false
  | none => pure false

end Claim

/-! ## A step handed on -/

namespace HandOn

/-- The claimed Message left Failed in its queue, where the step leaves it so. -/
def fails (asked : HandOn) (now : ℤ) : Deciding Unit :=
  match asked.failed with
  | some failure => Failed.enter asked.claim.journey failure now
  | none => pure ()

/-- The claimed Message left waiting for a retry, where the step leaves it so. -/
def waiting (asked : HandOn) (now : ℤ) : Deciding Unit :=
  match asked.waits with
  | some wait =>
      Hold.wait wait.queue asked.claim.journey (saturatingAdd now wait.afterNanos)
  | none => pure ()

/-- What a hand-on writes under its claim, the claim itself aside. -/
def writes (asked : HandOn) (now : ℤ) : Deciding Unit := do
  Origin.counted asked.result asked.queued
  putRecord .journey asked.result.journey asked.result
  asked.messages.forM fun message => putRecord .message message.message message
  asked.next.forM fun next => do
    Origin.counted next asked.queued
    putRecord .journey next.journey next
  asked.leaves.forM fun queue => Hold.letGoOf queue asked.claim.journey
  asked.queued.forM Hold.keep
  asked.requeued.forM fun queue => Hold.toTheEnd queue asked.claim.journey
  asked.fails now
  asked.cleared.forM fun queue => Failed.clear queue asked.claim.journey
  asked.waiting now

/-- The claim of a hand-on as it leaves it: kept where the step waits, else handed on. -/
def closes (asked : HandOn) (claim : Claim) (now : ℤ) : Deciding Unit :=
  match asked.keptForNanos with
  | some nanos => do
      let _ ← claim.hold (saturatingAdd now nanos)
      pure ()
  | none => claim.end' .handedOn

/-- A hand-on decided: written where the claim is its holder's, answered for where it was
handed on already under it. -/
def decide (asked : HandOn) (now : ℤ) : Deciding Bool := do
  match ← asked.claim.stored with
  | none => pure false
  | some stored =>
      match stored.standing with
      | .handedOn => pure (stored.claim.is asked.claim)
      | .released => pure false
      | .held =>
          if stored.claim.is asked.claim then do
            asked.writes now
            asked.closes stored.claim now
            pure true
          else pure false

end HandOn

/-! ## A Work Process's turn -/

namespace Turn

/-- The Instance a key belongs to. -/
def owner (key : ℕ) : Deciding (Option ℕ) := do
  let found ← readAs InstanceKey .instanceKey (.id key)
  pure (found.map InstanceKey.identifier)

/-- Whether every Instance stands at the turn its write is over. -/
def stands : List InstanceWrite → Deciding Bool
  | [] => pure true
  | write :: writes => do
      let found ← readAs InstanceRecord .processInstance (.id write.record.identifier)
      if (found.map InstanceRecord.turns).getD 0 ≠ write.over' then pure false
      else stands writes

/-- Whether every key belongs to no Instance or to the one it names. -/
def free : List InstanceKey → Deciding Bool
  | [] => pure true
  | key :: keys => do
      let owner ← owner key.key
      if owner.any (· ≠ key.identifier) then pure false else free keys

def current (writes : List InstanceWrite) (keys : List InstanceKey) : Deciding Bool := do
  if ← stands writes then free keys else pure false

def write (writes : List InstanceWrite) (keys unkeyed : List InstanceKey) :
    Deciding Unit := do
  writes.forM fun write => putRecord .processInstance write.record.identifier write.record
  keys.forM fun key => putRecord .instanceKey key.key key
  unkeyed.forM fun gone => do
    let owner ← owner gone.key
    if owner = some gone.identifier then put .instanceKey (.id gone.key) none else pure ()

def decide (turn : Turn) (now : ℤ) : Deciding Bool := do
  if ← current turn.instances turn.keys then
    if ← turn.handOn.decide now then do
      write turn.instances turn.keys turn.unkeyed
      pure true
    else pure false
  else pure false

end Turn

end XmipPersist
