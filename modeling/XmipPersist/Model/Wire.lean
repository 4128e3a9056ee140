import XmipPersist.Model.Form

/-! # Xmip Storage on the wire

What is asked of Xmip Storage and what it answers, one frame each, and the frames a primary sends a
standby that follows it.
-/

namespace XmipPersist.Wire

/-! ## Queries -/

/-- From one time to another, both included. -/
structure Span where
  fromUnixNanos : ℕ
  toUnixNanos : ℕ
  deriving DecidableEq

/-- What is asked, of which table. -/
inductive Ask
  | messagesInState (state : String) (updated : Span)
  | messagesAtSendPort (sendPort state : String)
  | journeysAfter (journey : ℕ)
  | journeysHolding (message : ℕ)
  | messagesCreated (created : Span)
  | messagesFromParty (party : String) (created : Span)
  | messagesOfContract (contract : String) (created : Span)
  | messagesAfter (message : ℕ)
  | held (queue : ℕ) (held : Span)
  | deadMessages (queue : ℕ) (queued : Span)
  | auditOccurred (occurred : Span)
  | auditOfJourney (journey : ℕ)
  | auditOfMessage (message : ℕ)
  | auditOfArtifact (artifact : String) (occurred : Span)
  | auditFailed (occurred : Span)
  | auditOfStream (stream : ℕ)
  | auditChain (writer : String) (start : ℕ)
  | administrationUpdated (kind : AdministrationKind) (updated : Span)
  deriving DecidableEq

/-- A question, how many of its answers, and in what order. -/
structure Query where
  ask : Ask
  most : ℕ
  newestFirst : Bool
  deriving DecidableEq

section

variable {β : Type} (out : Sink β) (p : Primitives)

def Span.writeForm (span : Span) : β :=
  out.all [out.u64 span.fromUnixNanos, out.u64 span.toUnixNanos]

def Span.readForm : Cursor Span := do
  return {
    fromUnixNanos := ← p.readU64
    toUnixNanos := ← p.readU64 }

/-- A question's number on the wire. -/
def Ask.number : Ask → ℕ
  | messagesInState .. => 1
  | messagesAtSendPort .. => 2
  | journeysAfter .. => 3
  | journeysHolding .. => 4
  | messagesCreated .. => 5
  | messagesFromParty .. => 6
  | messagesOfContract .. => 7
  | messagesAfter .. => 8
  | held .. => 9
  | deadMessages .. => 10
  | auditOccurred .. => 11
  | auditOfJourney .. => 12
  | auditOfMessage .. => 13
  | auditOfArtifact .. => 14
  | auditFailed .. => 15
  | administrationUpdated .. => 16
  | auditOfStream .. => 17
  | auditChain .. => 18

/-- A question of one identifier. -/
def Ask.writeId (ask : Ask) (id : ℕ) : β := out.all [out.byte ask.number, out.u128 id]

/-- A question of a span. -/
def Ask.writeSpan (ask : Ask) (span : Span) : β :=
  out.all [out.byte ask.number, span.writeForm out]

/-- A question of a name and a span. -/
def Ask.writeText (ask : Ask) (text : String) (span : Span) : β :=
  out.all [out.byte ask.number, out.text text, span.writeForm out]

/-- A question of a queue and a span. -/
def Ask.writeQueue (ask : Ask) (queue : ℕ) (span : Span) : β :=
  out.all [out.byte ask.number, out.u128 queue, span.writeForm out]

def Ask.writeForm (ask : Ask) : β :=
  match ask with
  | messagesInState state updated => out.all [out.byte 1, out.text state, updated.writeForm out]
  | messagesAtSendPort sendPort state => out.all [out.byte 2, out.text sendPort, out.text state]
  | journeysAfter id => ask.writeId out id
  | journeysHolding id => ask.writeId out id
  | messagesAfter id => ask.writeId out id
  | auditOfJourney id => ask.writeId out id
  | auditOfMessage id => ask.writeId out id
  | auditOfStream id => ask.writeId out id
  | messagesCreated span => ask.writeSpan out span
  | auditOccurred span => ask.writeSpan out span
  | auditFailed span => ask.writeSpan out span
  | messagesFromParty text span => ask.writeText out text span
  | messagesOfContract text span => ask.writeText out text span
  | auditOfArtifact text span => ask.writeText out text span
  | held queue span => ask.writeQueue out queue span
  | deadMessages queue span => ask.writeQueue out queue span
  | administrationUpdated kind updated =>
      out.all [out.byte 16, kind.writeForm out, updated.writeForm out]
  | auditChain writer start => out.all [out.byte ask.number, out.text writer, out.u64 start]

def Ask.readForm : Cursor Ask := do
  match ← p.readByte with
  | 1 => return .messagesInState (← p.readText) (← Span.readForm p)
  | 2 => return .messagesAtSendPort (← p.readText) (← p.readText)
  | 3 => return .journeysAfter (← p.readU128)
  | 4 => return .journeysHolding (← p.readU128)
  | 5 => return .messagesCreated (← Span.readForm p)
  | 6 => return .messagesFromParty (← p.readText) (← Span.readForm p)
  | 7 => return .messagesOfContract (← p.readText) (← Span.readForm p)
  | 8 => return .messagesAfter (← p.readU128)
  | 9 => return .held (← p.readU128) (← Span.readForm p)
  | 10 => return .deadMessages (← p.readU128) (← Span.readForm p)
  | 11 => return .auditOccurred (← Span.readForm p)
  | 12 => return .auditOfJourney (← p.readU128)
  | 13 => return .auditOfMessage (← p.readU128)
  | 14 => return .auditOfArtifact (← p.readText) (← Span.readForm p)
  | 15 => return .auditFailed (← Span.readForm p)
  | 16 => return .administrationUpdated (← AdministrationKind.readForm p) (← Span.readForm p)
  | 17 => return .auditOfStream (← p.readU128)
  | 18 => return .auditChain (← p.readText) (← p.readU64)
  | other => throw ("no question is numbered " ++ toString other)

def Query.writeForm (query : Query) : β :=
  out.all [query.ask.writeForm out, out.u32 query.most, out.flag query.newestFirst]

def Query.readForm : Cursor Query := do
  return {
    ask := ← Ask.readForm p
    most := ← p.readU32
    newestFirst := ← p.readFlag }

end

/-! ## Secrets -/

/-- Names of secrets, their kinds and secrets, as their library makes them: a name, a kind and a
secret are made again of what they say. -/
structure Secrets where
  Name : Type
  SecretKind : Type
  Secret : Type
  asStr : Name → String
  newName : String → Except String Name
  word : SecretKind → String
  named : String → Option SecretKind
  name : Secret → Name
  secretKind : Secret → SecretKind
  value : Secret → Bytes
  newSecret : Name → SecretKind → Bytes → Except String Secret
  newName_asStr : ∀ name, newName (asStr name) = .ok name
  named_word : ∀ kind, named (word kind) = some kind
  newSecret_parts : ∀ s, newSecret (name s) (secretKind s) (value s) = .ok s

/-- A secret as Xmip Storage keeps it. -/
structure SecretRecord (x : Secrets) where
  id : ℕ
  secret : x.Secret
  setUnixNanos : ℕ
  setBy : String

/-- What a surface is told of a secret: never its value. -/
structure SecretEntry (x : Secrets) where
  name : x.Name
  secretKind : x.SecretKind
  setUnixNanos : ℕ
  setBy : String

section

variable {β : Type} (x : Secrets) (out : Sink β) (p : Primitives)

def writeKind (kind : x.SecretKind) : β := out.text (x.word kind)

def readKind : Cursor x.SecretKind := do
  let word ← p.readText
  match x.named word with
  | some kind => return kind
  | none => throw ("no secret kind is '" ++ word ++ "'")

def readName : Cursor x.Name := do
  let text ← p.readText
  liftM (x.newName text)

variable {x} in
def SecretRecord.writeForm (record : SecretRecord x) : β :=
  out.all [out.u128 record.id, out.text (x.asStr (x.name record.secret)),
    writeKind x out (x.secretKind record.secret), out.counted (x.value record.secret),
    out.u64 record.setUnixNanos, out.text record.setBy]

def SecretRecord.readForm : Cursor (SecretRecord x) := do
  let id ← p.readU128
  let name ← readName x p
  let kind ← readKind x p
  let value ← p.readCounted
  let secret ← liftM (x.newSecret name kind value)
  return {
    id, secret
    setUnixNanos := ← p.readU64
    setBy := ← p.readText }

variable {x} in
def SecretEntry.writeForm (entry : SecretEntry x) : β :=
  out.all [out.text (x.asStr entry.name), writeKind x out entry.secretKind,
    out.u64 entry.setUnixNanos, out.text entry.setBy]

def SecretEntry.readForm : Cursor (SecretEntry x) := do
  return {
    name := ← readName x p
    secretKind := ← readKind x p
    setUnixNanos := ← p.readU64
    setBy := ← p.readText }

end

/-! ## Requests -/

/-- One operation asked of Xmip Storage, with its fields. -/
inductive Request (x : Secrets)
  | writeChunk (chunk : StreamChunk)
  | readChunk (stream index : ℕ)
  | writeMessage (message : MessageRecord)
  | readMessage (id : ℕ)
  | writeJourney (journey : JourneyRecord)
  | readJourney (id : ℕ)
  | claim (claim : XmipPersist.Claim) (lease : ℕ)
  | renew (claims : List XmipPersist.Claim) (lease : ℕ)
  | release (claim : XmipPersist.Claim)
  | handOn (handOn : HandOn)
  | writeAudit (entry : AuditEntry)
  | keepAudit (most chunk : ℕ)
  | readKeptAudit (id : ℕ)
  | writeAdministration (record : AdministrationRecord)
  | readAdministration (kind : AdministrationKind) (id : ℕ)
  | removeAdministration (kind : AdministrationKind) (id : ℕ)
  | publish (publication : Publication)
  | readHeld (queue start most : ℕ)
  | readDead (queue start most : ℕ)
  | readDeadMessage (queue message : ℕ)
  | replay (replay : Replay)
  | query (query : Query)
  | writeStream (last : StreamChunk) (stream : StreamRecord)
  | readStream (id : ℕ)
  | readKeptAuditChunk (id : ℕ) (stream : Option ℕ) (index : ℕ)
  | readKeptAuditStream (id stream : ℕ)
  | readFailed (queue start most : ℕ)
  | readDue (queue : ℕ) (part : DuePart) (start : ℕ × ℕ) (most : ℕ)
  | standing
  | follow (follow : Standby.Follow)
  | turn (turn : Turn)
  | readInstance (id : ℕ)
  | readInstanceKey (id : ℕ)
  | writeSecret (secret : SecretRecord x)
  | readSecret (name : x.Name)
  | listSecrets

section

variable {β : Type} {x : Secrets} (out : Sink β) (p : Primitives)

namespace Request

/-- The operations numbered from 22 on. -/
def writeLate : Request x → β
  | query asked => out.all [out.byte 22, asked.writeForm out]
  | writeStream last stream => out.all [out.byte 23, last.writeForm out, stream.writeForm out]
  | readStream id => out.all [out.byte 24, out.u128 id]
  | readKeptAuditChunk id stream index =>
      out.all [out.byte 25, out.u128 id, out.flag stream.isSome, out.u128 (stream.getD 0),
        out.u32 index]
  | readKeptAuditStream id stream => out.all [out.byte 26, out.u128 id, out.u128 stream]
  | readFailed queue start most =>
      out.all [out.byte 27, out.u128 queue, out.u64 start, out.u32 most]
  | readDue queue part (due, place) most =>
      out.all [out.byte 28, out.u128 queue, part.writeForm out, out.u64 due, out.u64 place,
        out.u32 most]
  | standing => out.byte 29
  | follow place => out.all [out.byte 30, place.writeForm out]
  | turn taken => out.all [out.byte 31, taken.writeForm out]
  | readInstance id => out.all [out.byte 32, out.u128 id]
  | readInstanceKey id => out.all [out.byte 33, out.u128 id]
  | writeSecret secret => out.all [out.byte 34, secret.writeForm out]
  | readSecret name => out.all [out.byte 35, out.text (x.asStr name)]
  | listSecrets => out.byte 36
  | _ => out.all []

def writeForm : Request x → β
  | writeChunk chunk => out.all [out.byte 1, chunk.writeForm out]
  | readChunk stream index => out.all [out.byte 2, out.u128 stream, out.u32 index]
  | writeMessage message => out.all [out.byte 3, message.writeForm out]
  | readMessage id => out.all [out.byte 4, out.u128 id]
  | writeJourney journey => out.all [out.byte 5, journey.writeForm out]
  | readJourney id => out.all [out.byte 6, out.u128 id]
  | claim asked lease => out.all [out.byte 7, asked.writeForm out, out.u64 lease]
  | renew claims lease =>
      out.all [out.byte 8, out.list (XmipPersist.Claim.writeForm out) claims, out.u64 lease]
  | release held => out.all [out.byte 9, held.writeForm out]
  | handOn made => out.all [out.byte 10, made.writeForm out]
  | writeAudit entry => out.all [out.byte 11, entry.writeForm out]
  | keepAudit most chunk => out.all [out.byte 12, out.u32 most, out.u64 chunk]
  | readKeptAudit id => out.all [out.byte 13, out.u128 id]
  | writeAdministration record => out.all [out.byte 14, record.writeForm out]
  | readAdministration kind id => out.all [out.byte 15, kind.writeForm out, out.u128 id]
  | removeAdministration kind id => out.all [out.byte 16, kind.writeForm out, out.u128 id]
  | publish publication => out.all [out.byte 17, publication.writeForm out]
  | readHeld queue start most =>
      out.all [out.byte 18, out.u128 queue, out.u64 start, out.u32 most]
  | readDead queue start most =>
      out.all [out.byte 19, out.u128 queue, out.u64 start, out.u32 most]
  | readDeadMessage queue message => out.all [out.byte 20, out.u128 queue, out.u128 message]
  | replay act => out.all [out.byte 21, act.writeForm out]
  | late => late.writeLate out

def readForm : Cursor (Request x) := do
  match ← p.readByte with
  | 1 => return writeChunk (← StreamChunk.readForm p)
  | 2 => return readChunk (← p.readU128) (← p.readU32)
  | 3 => return writeMessage (← MessageRecord.readForm p)
  | 4 => return readMessage (← p.readU128)
  | 5 => return writeJourney (← JourneyRecord.readForm p)
  | 6 => return readJourney (← p.readU128)
  | 7 => return claim (← XmipPersist.Claim.readForm p) (← p.readU64)
  | 8 => return renew (← p.readList (XmipPersist.Claim.readForm p)) (← p.readU64)
  | 9 => return release (← XmipPersist.Claim.readForm p)
  | 10 => return handOn (← HandOn.readForm p)
  | 11 => return writeAudit (← AuditEntry.readForm p)
  | 12 => return keepAudit (← p.readU32) (← p.readU64)
  | 13 => return readKeptAudit (← p.readU128)
  | 14 => return writeAdministration (← AdministrationRecord.readForm p)
  | 15 => return readAdministration (← AdministrationKind.readForm p) (← p.readU128)
  | 16 => return removeAdministration (← AdministrationKind.readForm p) (← p.readU128)
  | 17 => return publish (← Publication.readForm p)
  | 18 => return readHeld (← p.readU128) (← p.readU64) (← p.readU32)
  | 19 => return readDead (← p.readU128) (← p.readU64) (← p.readU32)
  | 20 => return readDeadMessage (← p.readU128) (← p.readU128)
  | 21 => return replay (← Replay.readForm p)
  | 22 => return query (← Query.readForm p)
  | 23 => return writeStream (← StreamChunk.readForm p) (← StreamRecord.readForm p)
  | 24 => return readStream (← p.readU128)
  | 25 => do
      let id ← p.readU128
      let carried ← p.readFlag
      let stream ← p.readU128
      return readKeptAuditChunk id (if carried then some stream else none) (← p.readU32)
  | 26 => return readKeptAuditStream (← p.readU128) (← p.readU128)
  | 27 => return readFailed (← p.readU128) (← p.readU64) (← p.readU32)
  | 28 => do
      let queue ← p.readU128
      let part ← DuePart.readForm p
      return readDue queue part (← p.readU64, ← p.readU64) (← p.readU32)
  | 29 => return standing
  | 30 => return follow (← Standby.Follow.readForm p)
  | 31 => return turn (← Turn.readForm p)
  | 32 => return readInstance (← p.readU128)
  | 33 => return readInstanceKey (← p.readU128)
  | 34 => return writeSecret (← SecretRecord.readForm x p)
  | 35 => return readSecret (← readName x p)
  | 36 => return listSecrets
  | other => throw ("no operation is numbered " ++ toString other)

end Request

end

/-! ## Answers -/

/-- A part of a queue read by when each is due, with the earliest due time after it. -/
structure DueQueue where
  held : List Held
  retrying : ℕ
  nextDueUnixNanos : Option ℤ
  readUnixNanos : ℤ
  deriving DecidableEq

/-- What an operation answered. -/
inductive Answer (x : Secrets)
  | done
  | chunk (chunk : Option StreamChunk)
  | message (record : Option MessageRecord)
  | journey (record : Option JourneyRecord)
  | claim (claim : Option XmipPersist.Claim)
  | claims (held : List XmipPersist.Claim)
  | yes (yes : Bool)
  | count (count : ℕ)
  | audit (entry : Option KeptAudit)
  | administration (record : Option AdministrationRecord)
  | held (queue : HeldQueue)
  | deadQueue (queue : Paged Dead)
  | dead (entry : DeadEntry)
  | replayed (replayed : Replayed)
  | refused (scope reason : String)
  | failed (reason : String)
  | records (records : List ℕ)
  | stream (stream : Option StreamRecord)
  | bytes (bytes : Option Bytes)
  | failedQueue (queue : Paged Failed)
  | dueQueue (queue : DueQueue)
  | standing (standing : Standby.Standing)
  | standby (reason : String)
  | instance' (record : Option InstanceRecord)
  | secret (record : Option (SecretRecord x))
  | secrets (entries : List (SecretEntry x))

section

variable {β : Type} {x : Secrets} (out : Sink β) (p : Primitives)

def DueQueue.writeForm (queue : DueQueue) : β :=
  out.all [out.list (Held.writeForm out) queue.held, out.u64 queue.retrying,
    writeDue out queue.nextDueUnixNanos, out.i128 queue.readUnixNanos]

def DueQueue.readForm : Cursor DueQueue := do
  return {
    held := ← p.readList (Held.readForm p)
    retrying := ← p.readU64
    nextDueUnixNanos := ← readDue p
    readUnixNanos := ← p.readI128 }

namespace Answer

/-- The answers numbered from 21 on. -/
def writeLate : Answer x → β
  | standing now => out.all [out.byte 21, now.writeForm out]
  | standby reason => out.all [out.byte 22, out.text reason]
  | instance' record => out.all [out.byte 23, out.optional (InstanceRecord.writeForm out) record]
  | secret record => out.all [out.byte 24, out.optional (SecretRecord.writeForm out) record]
  | secrets entries => out.all [out.byte 25, out.list (SecretEntry.writeForm out) entries]
  | _ => out.all []

def writeForm : Answer x → β
  | done => out.byte 0
  | chunk found => out.all [out.byte 1, out.optional (StreamChunk.writeForm out) found]
  | message found => out.all [out.byte 2, out.optional (MessageRecord.writeForm out) found]
  | journey found => out.all [out.byte 3, out.optional (JourneyRecord.writeForm out) found]
  | claim found => out.all [out.byte 4, out.optional (XmipPersist.Claim.writeForm out) found]
  | yes said => out.all [out.byte 5, out.flag said]
  | count n => out.all [out.byte 6, out.u32 n]
  | audit found => out.all [out.byte 7, out.optional (KeptAudit.writeForm out) found]
  | administration found =>
      out.all [out.byte 8, out.optional (AdministrationRecord.writeForm out) found]
  | refused scope reason => out.all [out.byte 9, out.text scope, out.text reason]
  | failed reason => out.all [out.byte 10, out.text reason]
  | held queue => out.all [out.byte 11, queue.writeForm out]
  | deadQueue queue => out.all [out.byte 12, queue.writeForm out (Dead.writeForm out)]
  | dead entry => out.all [out.byte 13, entry.writeForm out]
  | replayed came => out.all [out.byte 14, came.writeForm out]
  | claims found => out.all [out.byte 15, out.list (XmipPersist.Claim.writeForm out) found]
  | records found => out.all [out.byte 16, out.each out.u128 found]
  | stream found => out.all [out.byte 17, out.optional (StreamRecord.writeForm out) found]
  | bytes found => out.all [out.byte 18, out.optional out.counted found]
  | failedQueue queue => out.all [out.byte 19, queue.writeForm out (Failed.writeForm out)]
  | dueQueue queue => out.all [out.byte 20, queue.writeForm out]
  | late => late.writeLate out

def readForm : Cursor (Answer x) := do
  match ← p.readByte with
  | 0 => return done
  | 1 => return chunk (← p.readOptional (StreamChunk.readForm p))
  | 2 => return message (← p.readOptional (MessageRecord.readForm p))
  | 3 => return journey (← p.readOptional (JourneyRecord.readForm p))
  | 4 => return claim (← p.readOptional (XmipPersist.Claim.readForm p))
  | 5 => return yes (← p.readFlag)
  | 6 => return count (← p.readU32)
  | 7 => return audit (← p.readOptional (KeptAudit.readForm p))
  | 8 => return administration (← p.readOptional (AdministrationRecord.readForm p))
  | 9 => return refused (← p.readText) (← p.readText)
  | 10 => return failed (← p.readText)
  | 11 => return held (← HeldQueue.readForm p)
  | 12 => return deadQueue (← Paged.readForm p (Dead.readForm p))
  | 13 => return dead (← DeadEntry.readForm p)
  | 14 => return replayed (← Replayed.readForm p)
  | 15 => return claims (← p.readList (XmipPersist.Claim.readForm p))
  | 16 => return records (← p.readEach p.readU128)
  | 17 => return stream (← p.readOptional (StreamRecord.readForm p))
  | 18 => return bytes (← p.readOptional p.readCounted)
  | 19 => return failedQueue (← Paged.readForm p (Failed.readForm p))
  | 20 => return dueQueue (← DueQueue.readForm p)
  | 21 => return standing (← Standby.Standing.readForm p)
  | 22 => return standby (← p.readText)
  | 23 => return instance' (← p.readOptional (InstanceRecord.readForm p))
  | 24 => return secret (← p.readOptional (SecretRecord.readForm x p))
  | 25 => return secrets (← p.readList (SecretEntry.readForm x p))
  | other => throw ("no answer is numbered " ++ toString other)

end Answer

end

/-! ## Frames to a standby -/

/-- One frame from a primary to a standby following it. -/
inductive Shipped
  | beat (epoch : ℕ)
  | copy (database number : ℕ) (changes : List (Bytes × Option Bytes))
  | whole (history epoch : ℕ) (keys : List Bytes)
  | entries (database : ℕ) (entries : List (Bytes × Bytes))
  | copied (database next : ℕ)
  | declined (reason : String)
  deriving DecidableEq

section

variable {β : Type} (out : Sink β) (p : Primitives)

def writeChange (change : Bytes × Option Bytes) : β :=
  out.all [out.counted change.1, out.optional out.counted change.2]

def readChange : Cursor (Bytes × Option Bytes) := do
  return (← p.readCounted, ← p.readOptional p.readCounted)

def writeEntry (entry : Bytes × Bytes) : β :=
  out.all [out.counted entry.1, out.counted entry.2]

def readEntry : Cursor (Bytes × Bytes) := do return (← p.readCounted, ← p.readCounted)

namespace Shipped

/-- How many databases a Storage node has. -/
def databases : ℕ := 3

def readDatabase : Cursor ℕ := do
  let database ← p.readByte
  if database < databases then return database
  else throw ("no database is numbered " ++ toString database)

def writeForm : Shipped → β
  | beat epoch => out.all [out.byte 0, out.u64 epoch]
  | copy database number changes =>
      out.all [out.byte 1, out.byte database, out.u64 number, out.each (writeChange out) changes]
  | whole history epoch keys =>
      out.all [out.byte 2, out.u128 history, out.u64 epoch, out.each out.counted keys]
  | entries database found =>
      out.all [out.byte 3, out.byte database, out.each (writeEntry out) found]
  | copied database next => out.all [out.byte 4, out.byte database, out.u64 next]
  | declined reason => out.all [out.byte 5, out.text reason]

def readForm : Cursor Shipped := do
  match ← p.readByte with
  | 0 => return beat (← p.readU64)
  | 1 => return copy (← readDatabase p) (← p.readU64) (← p.readEach (readChange p))
  | 2 => return whole (← p.readU128) (← p.readU64) (← p.readEach p.readCounted)
  | 3 => return entries (← readDatabase p) (← p.readEach (readEntry p))
  | 4 => return copied (← readDatabase p) (← p.readU64)
  | 5 => return declined (← p.readText)
  | other => throw ("no frame is numbered " ++ toString other)

end Shipped

end

end XmipPersist.Wire
