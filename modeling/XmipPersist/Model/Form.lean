import XmipPersist.Library.Wire
import XmipPersist.Model.Read
import XmipPersist.Model.Standby

/-! # The one binary form of each record

How each record is written, part by part, and how it is read: on the wire between a node and a
Storage node, and sealed in the databases.
-/

namespace XmipPersist

variable {β : Type} (out : Sink β) (p : Primitives)

/-! ## Streams, Messages and Journeys -/

def StreamRecord.writeForm (record : StreamRecord) : β :=
  out.all [out.u128 record.stream, out.u64 record.length, out.u32 record.chunks,
    out.array 32 record.digest, out.u64 record.writtenUnixNanos]

def StreamRecord.readForm : Cursor StreamRecord := do
  return {
    stream := ← p.readU128
    length := ← p.readU64
    chunks := ← p.readU32
    digest := ← p.take 32
    writtenUnixNanos := ← p.readU64 }

def StreamChunk.writeForm (chunk : StreamChunk) : β :=
  out.all [out.u128 chunk.stream, out.u32 chunk.index, out.counted chunk.bytes]

def StreamChunk.readForm : Cursor StreamChunk := do
  return {
    stream := ← p.readU128
    index := ← p.readU32
    bytes := ← p.readCounted }

def JourneyFacts.writeForm (facts : JourneyFacts) : β :=
  out.all [out.text facts.state, out.optional out.u128 facts.previousJourney,
    out.optional out.text facts.subscription, out.optional out.text facts.causeWorkProcess,
    out.u32 facts.depth, out.optional out.text facts.workProcess,
    out.optional out.text facts.sendPort, out.u32 facts.sendLocation, out.u32 facts.attempts,
    out.optional out.u128 facts.message, out.optional out.u128 facts.origin, out.flag facts.isOpen,
    out.optional out.u128 facts.groupDelivery, out.flag facts.groupOpen,
    out.u64 facts.createdUnixNanos, out.u64 facts.updatedUnixNanos]

def JourneyFacts.readForm : Cursor JourneyFacts := do
  return {
    state := ← p.readText
    previousJourney := ← p.readOptional p.readU128
    subscription := ← p.readOptional p.readText
    causeWorkProcess := ← p.readOptional p.readText
    depth := ← p.readU32
    workProcess := ← p.readOptional p.readText
    sendPort := ← p.readOptional p.readText
    sendLocation := ← p.readU32
    attempts := ← p.readU32
    message := ← p.readOptional p.readU128
    origin := ← p.readOptional p.readU128
    isOpen := ← p.readFlag
    groupDelivery := ← p.readOptional p.readU128
    groupOpen := ← p.readFlag
    createdUnixNanos := ← p.readU64
    updatedUnixNanos := ← p.readU64 }

def MessageFacts.writeForm (facts : MessageFacts) : β :=
  out.all ([out.optional out.u128 facts.previousMessage, out.u32 facts.generation] ++
    [facts.createdBy, facts.priority, facts.executionProfile, facts.durability].map out.text ++
    [out.u64 facts.sizeBytes, out.optional out.text facts.party,
      out.optional out.text facts.contract, out.optional out.u128 facts.stream,
      out.u64 facts.createdUnixNanos])

def MessageFacts.readForm : Cursor MessageFacts := do
  return {
    previousMessage := ← p.readOptional p.readU128
    generation := ← p.readU32
    createdBy := ← p.readText
    priority := ← p.readText
    executionProfile := ← p.readText
    durability := ← p.readText
    sizeBytes := ← p.readU64
    party := ← p.readOptional p.readText
    contract := ← p.readOptional p.readText
    stream := ← p.readOptional p.readU128
    createdUnixNanos := ← p.readU64 }

def MessageRecord.writeForm (record : MessageRecord) : β :=
  out.all [out.u128 record.message, out.counted record.body, record.facts.writeForm out]

def MessageRecord.readForm : Cursor MessageRecord := do
  return {
    message := ← p.readU128
    body := ← p.readCounted
    facts := ← MessageFacts.readForm p }

def JourneyRecord.writeForm (record : JourneyRecord) : β :=
  out.all [out.u128 record.journey, out.counted record.body, record.facts.writeForm out]

def JourneyRecord.readForm : Cursor JourneyRecord := do
  return {
    journey := ← p.readU128
    body := ← p.readCounted
    facts := ← JourneyFacts.readForm p }

/-! ## Claims -/

def Claim.writeForm (claim : Claim) : β :=
  out.all [out.u128 claim.journey, out.text claim.holder, out.u128 claim.token,
    out.i128 claim.untilUnixNanos, out.u64 claim.fence]

/-- A claim kept before fences were written ends before its fence. -/
def Claim.readForm : Cursor Claim := do
  return {
    journey := ← p.readU128
    holder := ← p.readText
    token := ← p.readU128
    untilUnixNanos := ← p.readI128
    fence := ← do if ← Cursor.isEmpty then pure 0 else p.readU64 }

/-! ## Administration records -/

namespace AdministrationKind

def all : List AdministrationKind :=
  [registration, membership, module, handler, deployment, operator]

def number : AdministrationKind → ℕ
  | registration => 0
  | membership => 1
  | module => 2
  | handler => 3
  | deployment => 4
  | operator => 5

def numbered (n : ℕ) : Except String AdministrationKind :=
  match all.find? fun kind => kind.number = n with
  | some kind => .ok kind
  | none => .error ("no administration kind is numbered " ++ toString n)

def writeForm (kind : AdministrationKind) : β := out.byte kind.number

def readForm : Cursor AdministrationKind := do
  let n ← p.readByte
  liftM (numbered n)

end AdministrationKind

def AdministrationRecord.writeForm (record : AdministrationRecord) : β :=
  out.all [record.kind.writeForm out, out.u128 record.id, out.counted record.body,
    out.u64 record.updatedUnixNanos]

def AdministrationRecord.readForm : Cursor AdministrationRecord := do
  return {
    kind := ← AdministrationKind.readForm p
    id := ← p.readU128
    body := ← p.readCounted
    updatedUnixNanos := ← p.readU64 }

/-! ## Audit records -/

def AuditFacts.writeForm (facts : AuditFacts) : β :=
  out.all ([out.u64 facts.occurredUnixNanos] ++
    [facts.action, facts.phase, facts.severity].map out.text ++
    [out.flag facts.failed, out.optional out.text facts.text, out.text facts.program,
      out.text facts.host, out.u32 facts.process, out.optional out.text facts.location,
      out.flag facts.hidden] ++
    [facts.execution, facts.journey, facts.message].map (out.optional out.u128) ++
    [facts.artifactKind, facts.artifactName, facts.artifactVersion].map (out.optional out.text) ++
    [out.optional out.text facts.node, out.optional out.text facts.cluster, out.text facts.writer,
      out.u64 facts.position, out.array 32 facts.previous, out.array 32 facts.digest,
      out.u64 facts.bodyLength, out.u32 facts.bodyChunks, out.array 32 facts.bodyDigest,
      out.u64 facts.keptUnixNanos])

def AuditFacts.readForm : Cursor AuditFacts := do
  return {
    occurredUnixNanos := ← p.readU64
    action := ← p.readText
    phase := ← p.readText
    severity := ← p.readText
    failed := ← p.readFlag
    text := ← p.readOptional p.readText
    program := ← p.readText
    host := ← p.readText
    process := ← p.readU32
    location := ← p.readOptional p.readText
    hidden := ← p.readFlag
    execution := ← p.readOptional p.readU128
    journey := ← p.readOptional p.readU128
    message := ← p.readOptional p.readU128
    artifactKind := ← p.readOptional p.readText
    artifactName := ← p.readOptional p.readText
    artifactVersion := ← p.readOptional p.readText
    node := ← p.readOptional p.readText
    cluster := ← p.readOptional p.readText
    writer := ← p.readText
    position := ← p.readU64
    previous := ← p.take 32
    digest := ← p.take 32
    bodyLength := ← p.readU64
    bodyChunks := ← p.readU32
    bodyDigest := ← p.take 32
    keptUnixNanos := ← p.readU64 }

def Audited.writeForm (audited : Audited) : β :=
  out.all [out.counted audited.message, out.each out.u128 audited.streams]

def Audited.readForm : Cursor Audited := do
  return {
    message := ← p.readCounted
    streams := ← p.readEach p.readU128 }

/-- The one writing of a body, in a record and in its chunks. -/
def writeBody (body : Bytes) (audited : Option Audited) : β :=
  out.all [out.counted body, out.optional (Audited.writeForm out) audited]

def readBody : Cursor (Bytes × Option Audited) := do
  return (← p.readCounted, ← p.readOptional (Audited.readForm p))

def AuditEntry.writeForm (entry : AuditEntry) : β :=
  out.all [out.u128 entry.id, writeBody out entry.body entry.audited, entry.facts.writeForm out]

def AuditEntry.readForm : Cursor AuditEntry := do
  let id ← p.readU128
  let (body, audited) ← readBody p
  return { id, body, audited, facts := ← AuditFacts.readForm p }

def KeptAudit.writeForm (kept : KeptAudit) : β :=
  out.all [out.u128 kept.id, out.each out.u128 kept.streams, kept.facts.writeForm out]

def KeptAudit.readForm : Cursor KeptAudit := do
  return {
    id := ← p.readU128
    streams := ← p.readEach p.readU128
    facts := ← AuditFacts.readForm p }

/-! ## Queues -/

/-- A queue as read: its places, how many it holds, and what was read. -/
def Paged.writeForm {α : Type} (write : α → β) (page : Paged α) : β :=
  out.all [out.u64 page.first, out.u64 page.next, out.u64 page.count, out.list write page.entries]

def Paged.readForm {α : Type} (read : Cursor α) : Cursor (Paged α) := do
  return {
    first := ← p.readU64
    next := ← p.readU64
    count := ← p.readU64
    entries := ← p.readList read }

def Hold.writeForm (hold : Hold) : β :=
  out.all [out.u128 hold.queue, out.u128 hold.journey, out.counted hold.body]

def Hold.readForm : Cursor Hold := do
  return {
    queue := ← p.readU128
    journey := ← p.readU128
    body := ← p.readCounted }

/-- A time that may be none: whether there is one, and zero where there is none. -/
def writeDue (due : Option ℤ) : β := out.all [out.flag due.isSome, out.i128 (due.getD 0)]

def readDue : Cursor (Option ℤ) := do
  let waits ← p.readFlag
  let due ← p.readI128
  return if waits then some due else none

def Held.writeForm (held : Held) : β :=
  out.all [out.u64 held.sequence, held.hold.writeForm out, out.u64 held.heldUnixNanos,
    out.flag held.failed, writeDue out held.dueUnixNanos]

def Held.readForm : Cursor Held := do
  return {
    sequence := ← p.readU64
    hold := ← Hold.readForm p
    heldUnixNanos := ← p.readU64
    failed := ← p.readFlag
    dueUnixNanos := ← readDue p }

def HeldQueue.writeForm (queue : HeldQueue) : β :=
  out.all [queue.toPaged.writeForm out (Held.writeForm out), out.i128 queue.readUnixNanos]

def HeldQueue.readForm : Cursor HeldQueue := do
  return {
    toPaged := ← Paged.readForm p (Held.readForm p)
    readUnixNanos := ← p.readI128 }

def Failure.writeForm (failure : Failure) : β :=
  out.all [out.u128 failure.queue, out.text failure.reason]

def Failure.readForm : Cursor Failure := do
  return {
    queue := ← p.readU128
    reason := ← p.readText }

def Failed.writeForm (failed : Failed) : β :=
  out.all [out.u128 failed.queue, out.u64 failed.sequence, out.u128 failed.journey,
    out.u64 failed.place, out.text failed.reason, out.i128 failed.failedUnixNanos]

def Failed.readForm : Cursor Failed := do
  return {
    queue := ← p.readU128
    sequence := ← p.readU64
    journey := ← p.readU128
    place := ← p.readU64
    reason := ← p.readText
    failedUnixNanos := ← p.readI128 }

def DuePart.writeForm (part : DuePart) : β :=
  out.byte (match part with
    | .due => 0
    | .waiting => 1
    | .failed => 2)

def DuePart.readForm : Cursor DuePart := do
  match ← p.readByte with
  | 0 => return .due
  | 1 => return .waiting
  | 2 => return .failed
  | other => throw ("no part of a queue is numbered " ++ toString other)

/-! ## Dead Message Queues -/

def Named.writeForm (named : Named) : β := out.all [out.text named.name, out.text named.value]

def Named.readForm : Cursor Named := do
  return {
    name := ← p.readText
    value := ← p.readText }

/-- The form's number, the first byte of every entry written. -/
def DeadMessage.form : ℕ := 1

def DeadMessage.writeForm (dead : DeadMessage) : β :=
  out.all [out.byte form, out.u128 dead.queue, out.u128 dead.message, out.u128 dead.stream,
    out.text dead.node, out.text dead.location, out.i128 dead.receivedUnixNanos,
    out.list (Named.writeForm out) dead.validation, out.list (Named.writeForm out) dead.promoted,
    out.list (Named.writeForm out) dead.declines, out.counted dead.body]

def DeadMessage.readForm : Cursor DeadMessage := do
  let read ← p.readByte
  if read ≠ form then
    throw ("a Dead Message Queue entry of form " ++ toString read ++ ", and this reads form " ++
      toString form)
  return {
    queue := ← p.readU128
    message := ← p.readU128
    stream := ← p.readU128
    node := ← p.readText
    location := ← p.readText
    receivedUnixNanos := ← p.readI128
    validation := ← p.readList (Named.readForm p)
    promoted := ← p.readList (Named.readForm p)
    declines := ← p.readList (Named.readForm p)
    body := ← p.readCounted }

def Dead.writeForm (dead : Dead) : β := out.all [out.u64 dead.sequence, dead.message.writeForm out]

def Dead.readForm : Cursor Dead := do
  return {
    sequence := ← p.readU64
    message := ← DeadMessage.readForm p }

def DeadEntry.writeForm : DeadEntry → β
  | .kept entry => out.all [out.byte 0, entry.writeForm out]
  | .replayed => out.byte 1
  | .never => out.byte 2

def DeadEntry.readForm : Cursor DeadEntry := do
  match ← p.readByte with
  | 0 => return .kept (← Dead.readForm p)
  | 1 => return .replayed
  | 2 => return .never
  | other => throw ("no Dead Message Queue entry standing is numbered " ++ toString other)

def Replay.writeForm (replay : Replay) : β :=
  out.all [out.u128 replay.queue, out.u128 replay.message,
    out.list (JourneyRecord.writeForm out) replay.journeys,
    out.list (Hold.writeForm out) replay.held, replay.audit.writeForm out]

def Replay.readForm : Cursor Replay := do
  return {
    queue := ← p.readU128
    message := ← p.readU128
    journeys := ← p.readList (JourneyRecord.readForm p)
    held := ← p.readList (Hold.readForm p)
    audit := ← AuditEntry.readForm p }

def Replayed.writeForm (replayed : Replayed) : β :=
  out.byte (match replayed with
    | .now => 0
    | .before => 1
    | .absent => 2)

def Replayed.readForm : Cursor Replayed := do
  match ← p.readByte with
  | 0 => return .now
  | 1 => return .before
  | 2 => return .absent
  | other => throw ("no Replay answer is numbered " ++ toString other)

/-! ## Hand-ons, turns and Publications -/

def Wait.writeForm (wait : Wait) : β := out.all [out.u128 wait.queue, out.u64 wait.afterNanos]

def Wait.readForm : Cursor Wait := do
  return {
    queue := ← p.readU128
    afterNanos := ← p.readU64 }

def HandOn.writeForm (handOn : HandOn) : β :=
  out.all [handOn.claim.writeForm out, handOn.result.writeForm out,
    out.list (MessageRecord.writeForm out) handOn.messages,
    out.list (JourneyRecord.writeForm out) handOn.next, out.each out.u128 handOn.leaves,
    out.list (Hold.writeForm out) handOn.queued, out.each out.u128 handOn.requeued,
    out.optional (Failure.writeForm out) handOn.failed, out.each out.u128 handOn.cleared,
    out.optional (Wait.writeForm out) handOn.waits, out.optional out.u64 handOn.keptForNanos]

def HandOn.readForm : Cursor HandOn := do
  return {
    claim := ← Claim.readForm p
    result := ← JourneyRecord.readForm p
    messages := ← p.readList (MessageRecord.readForm p)
    next := ← p.readList (JourneyRecord.readForm p)
    leaves := ← p.readEach p.readU128
    queued := ← p.readList (Hold.readForm p)
    requeued := ← p.readEach p.readU128
    failed := ← p.readOptional (Failure.readForm p)
    cleared := ← p.readEach p.readU128
    waits := ← p.readOptional (Wait.readForm p)
    keptForNanos := ← p.readOptional p.readU64 }

def InstanceRecord.writeForm (record : InstanceRecord) : β :=
  out.all [out.u128 record.identifier, out.text record.workProcess, out.u64 record.turns,
    out.flag record.ended, out.counted record.body]

def InstanceRecord.readForm : Cursor InstanceRecord := do
  return {
    identifier := ← p.readU128
    workProcess := ← p.readText
    turns := ← p.readU64
    ended := ← p.readFlag
    body := ← p.readCounted }

def InstanceWrite.writeForm (write : InstanceWrite) : β :=
  out.all [write.record.writeForm out, out.u64 write.over']

def InstanceWrite.readForm : Cursor InstanceWrite := do
  return {
    record := ← InstanceRecord.readForm p
    over' := ← p.readU64 }

def InstanceKey.writeForm (key : InstanceKey) : β :=
  out.all [out.u128 key.key, out.u128 key.identifier]

def InstanceKey.readForm : Cursor InstanceKey := do
  return {
    key := ← p.readU128
    identifier := ← p.readU128 }

def Turn.writeForm (turn : Turn) : β :=
  out.all [turn.handOn.writeForm out, out.list (InstanceWrite.writeForm out) turn.instances,
    out.list (InstanceKey.writeForm out) turn.keys,
    out.list (InstanceKey.writeForm out) turn.unkeyed]

def Turn.readForm : Cursor Turn := do
  return {
    handOn := ← HandOn.readForm p
    instances := ← p.readList (InstanceWrite.readForm p)
    keys := ← p.readList (InstanceKey.readForm p)
    unkeyed := ← p.readList (InstanceKey.readForm p) }

def Publication.writeForm (publication : Publication) : β :=
  out.all [publication.message.writeForm out,
    out.list (JourneyRecord.writeForm out) publication.journeys,
    out.list (Hold.writeForm out) publication.held,
    out.optional (DeadMessage.writeForm out) publication.dead, publication.audit.writeForm out,
    out.list (Claim.writeForm out) publication.claims, out.u64 publication.leaseNanos]

def Publication.readForm : Cursor Publication := do
  return {
    message := ← MessageRecord.readForm p
    journeys := ← p.readList (JourneyRecord.readForm p)
    held := ← p.readList (Hold.readForm p)
    dead := ← p.readOptional (DeadMessage.readForm p)
    audit := ← AuditEntry.readForm p
    claims := ← p.readList (Claim.readForm p)
    leaseNanos := ← p.readU64 }

/-! ## Standings -/

/-- The next write of each database. -/
def writeNext (next : Standby.Database → ℕ) : β :=
  out.all [out.u64 (next 0), out.u64 (next 1), out.u64 (next 2)]

def readNext : Cursor (Standby.Database → ℕ) := do
  return ![← p.readU64, ← p.readU64, ← p.readU64]

def Standby.Standing.writeForm (standing : Standby.Standing) : β :=
  out.all [out.u128 standing.process, out.flag standing.primary, out.u64 standing.epoch,
    out.u128 standing.history, writeNext out standing.next, out.flag standing.copying]

def Standby.Standing.readForm : Cursor Standby.Standing := do
  return {
    process := ← p.readU128
    primary := ← p.readFlag
    epoch := ← p.readU64
    history := ← p.readU128
    next := ← readNext p
    copying := ← p.readFlag }

def Standby.Follow.writeForm (follow : Standby.Follow) : β :=
  out.all [out.u64 follow.epoch, out.u128 follow.history, writeNext out follow.next]

def Standby.Follow.readForm : Cursor Standby.Follow := do
  return {
    epoch := ← p.readU64
    history := ← p.readU128
    next := ← readNext p }

end XmipPersist
