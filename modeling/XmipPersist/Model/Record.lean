import Mathlib

/-! # What the runtime database keeps

The records the operations write and read, each with the fields its source has, and the
failures an operation ends with. Identifiers, places, fences and times are numbers; the
bounds of their machine types are stated where a computation depends on them.
-/

namespace XmipPersist

/-- A body, kept as it is given. -/
abbrev Bytes := List UInt8

/-- What a 64-bit count or time holds at most. -/
def u64Max : ℕ := 2 ^ 64 - 1

def u32Max : ℕ := 2 ^ 32 - 1

def i128Max : ℤ := 2 ^ 127 - 1

def i128Min : ℤ := -2 ^ 127

/-- `i128::saturating_add`. -/
def saturatingAdd (a b : ℤ) : ℤ := max i128Min (min i128Max (a + b))

/-- A time as a column keeps it: none before the epoch. -/
def nanos (time : ℤ) : ℕ := min time.toNat u64Max

/-! ## Failures -/

inductive PersistError
  | refused (scope reason : String)
  | key (reason : String)
  | engine (engine reason : String)
  | record (reason : String)
  | failed (reason : String)
  | unreachable (reason : String)
  | schema (reason : String)
  | standby (reason : String)
  deriving DecidableEq

namespace PersistError

/-- The words an error is told in. -/
def toText : PersistError → String
  | refused scope reason => scope ++ ": refused, " ++ reason
  | key error => "the store's data key: " ++ error
  | engine name reason => name ++ ": " ++ reason
  | record reason => "record: " ++ reason
  | failed reason => "a Storage node: " ++ reason
  | unreachable reason => "Xmip Storage: " ++ reason
  | schema reason => reason
  | standby reason => reason

/-- The failure of a batch, said again to each write that was in it. -/
def again : PersistError → PersistError
  | refused scope reason => refused scope reason
  | engine name reason => engine name reason
  | other => record other.toText

end PersistError

/-! ## Streams, Messages and Journeys -/

structure StreamChunk where
  stream : ℕ
  index : ℕ
  bytes : Bytes
  deriving DecidableEq

structure StreamRecord where
  stream : ℕ
  length : ℕ
  chunks : ℕ
  digest : Bytes
  writtenUnixNanos : ℕ
  deriving DecidableEq

structure MessageFacts where
  previousMessage : Option ℕ := none
  generation : ℕ := 0
  createdBy : String := ""
  priority : String := ""
  executionProfile : String := ""
  durability : String := ""
  sizeBytes : ℕ := 0
  party : Option String := none
  contract : Option String := none
  stream : Option ℕ := none
  createdUnixNanos : ℕ := 0
  deriving DecidableEq

structure MessageRecord where
  message : ℕ
  body : Bytes := []
  facts : MessageFacts := {}
  deriving DecidableEq

structure JourneyFacts where
  state : String := ""
  previousJourney : Option ℕ := none
  subscription : Option String := none
  causeWorkProcess : Option String := none
  depth : ℕ := 0
  workProcess : Option String := none
  sendPort : Option String := none
  sendLocation : ℕ := 0
  attempts : ℕ := 0
  message : Option ℕ := none
  origin : Option ℕ := none
  isOpen : Bool := false
  groupDelivery : Option ℕ := none
  groupOpen : Bool := false
  createdUnixNanos : ℕ := 0
  updatedUnixNanos : ℕ := 0
  deriving DecidableEq

structure JourneyRecord where
  journey : ℕ
  body : Bytes := []
  facts : JourneyFacts := {}
  deriving DecidableEq

/-! ## Claims -/

structure Claim where
  journey : ℕ
  holder : String := ""
  token : ℕ
  untilUnixNanos : ℤ := 0
  fence : ℕ := 0
  deriving DecidableEq

inductive Standing
  | held
  | released
  | handedOn
  deriving DecidableEq

/-- A claim as stored: the last claim on its Message, and where it stands. -/
structure Stored where
  claim : Claim
  standing : Standing
  deriving DecidableEq

/-! ## Queues -/

/-- A Message to hold: which queue, which Journey, and the holder's own words. -/
structure Hold where
  queue : ℕ
  journey : ℕ
  body : Bytes := []
  deriving DecidableEq

structure Held where
  sequence : ℕ
  hold : Hold
  heldUnixNanos : ℕ
  failed : Bool
  dueUnixNanos : Option ℤ
  deriving DecidableEq

/-- When it is due, as its queue's index keeps it: zero where it is due since it was held. -/
def Held.dueAt (held : Held) : ℕ :=
  match held.dueUnixNanos with
  | none => 0
  | some due => max (nanos due) 1

structure Places where
  first : ℕ := 0
  next : ℕ := 0
  count : ℕ := 0
  deriving DecidableEq

/-- Where a queue's first entries by when they are due are, and how many keep a retry's due
time. -/
structure DuePlaces where
  fresh : ℕ := 0
  retry : ℕ ×ₗ ℕ := toLex (1, 0)
  retrying : ℕ := 0
  deriving DecidableEq

structure Failure where
  queue : ℕ
  reason : String
  deriving DecidableEq

structure Failed where
  queue : ℕ
  sequence : ℕ
  journey : ℕ
  place : ℕ
  reason : String
  failedUnixNanos : ℤ
  deriving DecidableEq

structure Named where
  name : String
  value : String
  deriving DecidableEq

structure DeadMessage where
  queue : ℕ := 0
  message : ℕ := 0
  stream : ℕ := 0
  node : String := ""
  location : String := ""
  receivedUnixNanos : ℤ := 0
  validation : List Named := []
  promoted : List Named := []
  declines : List Named := []
  body : Bytes := []
  deriving DecidableEq

structure Dead where
  sequence : ℕ
  message : DeadMessage
  deriving DecidableEq

/-! ## Holders of a sequence's place -/

/-- A holder's open Journeys, and the queues it holds a place in. -/
structure Origin where
  isOpen : ℕ
  queues : List ℕ
  deriving DecidableEq

/-! ## Work Processes -/

structure InstanceRecord where
  identifier : ℕ
  workProcess : String := ""
  turns : ℕ
  ended : Bool := false
  body : Bytes := []
  deriving DecidableEq

structure InstanceWrite where
  record : InstanceRecord
  over' : ℕ
  deriving DecidableEq

structure InstanceKey where
  key : ℕ
  identifier : ℕ
  deriving DecidableEq

/-! ## Audit records -/

structure Audited where
  message : Bytes
  streams : List ℕ
  deriving DecidableEq

structure AuditFacts where
  occurredUnixNanos : ℕ := 0
  action : String := ""
  phase : String := ""
  severity : String := ""
  failed : Bool := false
  text : Option String := none
  program : String := ""
  host : String := ""
  process : ℕ := 0
  location : Option String := none
  hidden : Bool := false
  execution : Option ℕ := none
  journey : Option ℕ := none
  message : Option ℕ := none
  artifactKind : Option String := none
  artifactName : Option String := none
  artifactVersion : Option String := none
  node : Option String := none
  cluster : Option String := none
  writer : String := ""
  position : ℕ := 0
  previous : Bytes := []
  digest : Bytes := []
  bodyLength : ℕ := 0
  bodyChunks : ℕ := 0
  bodyDigest : Bytes := []
  keptUnixNanos : ℕ := 0
  deriving DecidableEq

structure AuditEntry where
  id : ℕ
  body : Bytes := []
  audited : Option Audited := none
  facts : AuditFacts := {}
  deriving DecidableEq

/-- An audit record's row as the keeper keeps it. -/
structure KeptAudit where
  id : ℕ
  streams : List ℕ := []
  facts : AuditFacts := {}
  deriving DecidableEq

/-- A Stream a kept audit record carries, with the Stream's own record. -/
structure KeptStream where
  audit : ℕ
  stream : StreamRecord
  deriving DecidableEq

/-- The head of a writer's audit chain: its last record's number and digest. -/
structure ChainHead where
  position : ℕ
  digest : Bytes
  deriving DecidableEq

/-! ## Administration records -/

inductive AdministrationKind
  | registration
  | membership
  | module
  | handler
  | deployment
  | operator
  deriving DecidableEq

def AdministrationKind.word : AdministrationKind → String
  | registration => "registration"
  | membership => "membership"
  | module => "module"
  | handler => "handler"
  | deployment => "deployment"
  | operator => "operator"

structure AdministrationRecord where
  kind : AdministrationKind
  id : ℕ
  body : Bytes := []
  updatedUnixNanos : ℕ := 0
  deriving DecidableEq

/-- A secret as its row keeps it, its value sealed. -/
structure KeptSecret where
  id : ℕ
  name : String
  kind : String
  sealed : Bytes
  setUnixNanos : ℕ
  setBy : String
  deriving DecidableEq

/-! ## What the operations ask -/

/-- Where a Message waits for a retry: its queue, and how long from Xmip Storage's now. -/
structure Wait where
  queue : ℕ
  afterNanos : ℕ
  deriving DecidableEq

structure HandOn where
  claim : Claim
  result : JourneyRecord
  messages : List MessageRecord := []
  next : List JourneyRecord := []
  leaves : List ℕ := []
  queued : List Hold := []
  requeued : List ℕ := []
  failed : Option Failure := none
  cleared : List ℕ := []
  waits : Option Wait := none
  keptForNanos : Option ℕ := none
  deriving DecidableEq

structure Turn where
  handOn : HandOn
  instances : List InstanceWrite := []
  keys : List InstanceKey := []
  unkeyed : List InstanceKey := []
  deriving DecidableEq

structure Publication where
  message : MessageRecord
  journeys : List JourneyRecord := []
  held : List Hold := []
  dead : Option DeadMessage := none
  audit : AuditEntry
  claims : List Claim := []
  leaseNanos : ℕ := 0
  deriving DecidableEq

structure Replay where
  queue : ℕ
  message : ℕ
  journeys : List JourneyRecord := []
  held : List Hold := []
  audit : AuditEntry
  deriving DecidableEq

inductive Replayed
  | now
  | before
  | absent
  deriving DecidableEq

end XmipPersist
