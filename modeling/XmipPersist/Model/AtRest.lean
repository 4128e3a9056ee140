import XmipPersist.Library.Octets
import XmipPersist.Model.CopiedNode
import XmipPersist.Model.EncryptedStore
import XmipPersist.Model.Form
import XmipPersist.Model.Query

/-! # The records of a node as its databases keep them

Each record's one binary form, under the words of its kind and the bytes of its key, and each write
of a node as its encrypted stores are asked it.
-/

namespace XmipPersist

open EncryptedStore (utf8 RecordChange)

/-! ## Forms that are kept and never sent -/

section

variable {β : Type} (out : Sink β) (p : Primitives)

def Standing.number : Standing → ℕ
  | held => 0
  | released => 1
  | handedOn => 2

def Standing.numbered : ℕ → Except String Standing
  | 0 => .ok held
  | 1 => .ok released
  | 2 => .ok handedOn
  | other => .error ("a claim standing " ++ toString other)

def Stored.writeForm (stored : Stored) : β :=
  out.all [out.byte stored.standing.number, stored.claim.writeForm out]

def Stored.readForm : Cursor Stored := do
  let number ← p.readByte
  let standing ← liftM (Standing.numbered number)
  return { claim := ← Claim.readForm p, standing }

def Places.writeForm (places : Places) : β :=
  out.all [out.u64 places.first, out.u64 places.next, out.u64 places.count]

def Places.readForm : Cursor Places := do
  return {
    first := ← p.readU64
    next := ← p.readU64
    count := ← p.readU64 }

def DuePlaces.writeForm (places : DuePlaces) : β :=
  out.all [out.u64 places.fresh, out.u64 (ofLex places.retry).1, out.u64 (ofLex places.retry).2,
    out.u64 places.retrying]

def DuePlaces.readForm : Cursor DuePlaces := do
  let fresh ← p.readU64
  let due ← p.readU64
  let place ← p.readU64
  return { fresh, retry := toLex (due, place), retrying := ← p.readU64 }

def Origin.writeForm (origin : Origin) : β :=
  out.all [out.u32 origin.isOpen, out.each out.u128 origin.queues]

def Origin.readForm : Cursor Origin := do
  return {
    isOpen := ← p.readU32
    queues := ← p.readEach p.readU128 }

def KeptStream.writeForm (row : KeptStream) : β :=
  out.all [out.u128 row.audit, row.stream.writeForm out]

def KeptStream.readForm : Cursor KeptStream := do
  return {
    audit := ← p.readU128
    stream := ← StreamRecord.readForm p }

def KeptSecret.writeForm (secret : KeptSecret) : β :=
  out.all [out.u128 secret.id, out.text secret.name, out.text secret.kind,
    out.counted secret.sealed, out.u64 secret.setUnixNanos, out.text secret.setBy]

def KeptSecret.readForm : Cursor KeptSecret := do
  return {
    id := ← p.readU128
    name := ← p.readText
    kind := ← p.readText
    sealed := ← p.readCounted
    setUnixNanos := ← p.readU64
    setBy := ← p.readText }

end

/-! ## What is kept under a kind -/

/-- The words a kind's records are kept under. -/
def Kind.word : Kind → String
  | chunk => "chunk"
  | stream => "stream"
  | message => "message"
  | journey => "journey"
  | claim => "claim"
  | audit => "audit"
  | held => "held"
  | heldJourney => "held-journey"
  | places => "held-places"
  | duePlaces => "held-due-places"
  | dead => "dead-message"
  | deadMessage => "dead-message-by-message"
  | deadPlaces => "dead-message-places"
  | failed => "failed-message"
  | failedByJourney => "failed-message-by-journey"
  | failedPlaces => "failed-message-places"
  | publication => "publication"
  | sequence => "audit-sequence"
  | origin => "sequence-origin"
  | processInstance => "process-instance"
  | instanceKey => "process-instance-key"
  | keptAudit => "audit"
  | keptAuditStreams => "audit_stream"
  | keptAuditStream => "audit-stream-chunk"
  | keptAuditBody => "audit-body-chunk"
  | chain => "audit-chain-head"
  | administration kind => "administration/" ++ kind.word
  | secret => "secret"

namespace Queue

/-- Where an entry is kept: its queue and its place. -/
def entryKey (queue sequence : ℕ) : Bytes := Octets.number 16 queue ++ Octets.number 8 sequence

/-- Where a queue's places are kept: under the queue. -/
def placesKey (queue : ℕ) : Bytes := Octets.number 16 queue

/-- Where the index keeps an entry's place: its queue and what it is about. -/
def byKey (queue about : ℕ) : Bytes := Octets.number 16 queue ++ Octets.number 16 about

end Queue

/-- A Stream's chunk: the Stream's identifier and the chunk's number. -/
def chunkKey (stream index : ℕ) : Bytes := Octets.number 16 stream ++ Octets.number 4 index

namespace Keeper

/-- A kept Stream: the audit record's identifier and the Stream's. -/
def streamKey (audit stream : ℕ) : Bytes := Octets.number 16 audit ++ Octets.number 16 stream

/-- A kept chunk: the audit record's identifier, the Stream's and the chunk's number. -/
def chunkKey (audit stream index : ℕ) : Bytes :=
  Octets.number 16 audit ++ Octets.number 16 stream ++ Octets.number 4 index

/-- A body's chunk: the audit record's identifier and the chunk's number. -/
def bodyKey (audit index : ℕ) : Bytes := Octets.number 16 audit ++ Octets.number 4 index

end Keeper

/-- The bytes of a record's key of a kind; none where the kind has no such key. -/
def Kind.keyed : Kind → Key → Bytes
  | chunk, .pair id index => chunkKey id index
  | audit, .id number => Octets.number 8 number
  | held, .pair queue place | dead, .pair queue place | failed, .pair queue place =>
      Queue.entryKey queue place
  | heldJourney, .pair queue about | deadMessage, .pair queue about
  | failedByJourney, .pair queue about => Queue.byKey queue about
  | places, .id queue | deadPlaces, .id queue | failedPlaces, .id queue | duePlaces, .id queue =>
      Queue.placesKey queue
  | sequence, .next => utf8 "next"
  | sequence, .kept => utf8 "kept"
  | keptAuditStreams, .pair id carried => Keeper.streamKey id carried
  | keptAuditStream, .triple id carried index => Keeper.chunkKey id carried index
  | keptAuditBody, .pair id index => Keeper.bodyKey id index
  | chain, .name writer => utf8 writer
  | stream, .id id | message, .id id | journey, .id id | claim, .id id | publication, .id id
  | origin, .id id | processInstance, .id id | instanceKey, .id id | keptAudit, .id id
  | administration _, .id id | secret, .id id => Octets.number 16 id
  | _, _ => []

/-- What a store is asked for a place by. -/
def Place.kept (place : Place) : String × Bytes := (place.1.word, place.1.keyed place.2)

section

variable (p : Primitives)

/-- The bytes of what is kept at a place. What is torn or broken no write makes. -/
def Content.kept : Content → Bytes
  | .chunk a => a.writeForm p.sink
  | .stream a => a.writeForm p.sink
  | .message a => a.writeForm p.sink
  | .journey a => a.writeForm p.sink
  | .claim a => a.writeForm p.sink
  | .audit a => a.writeForm p.sink
  | .held a => a.writeForm p.sink
  | .dead a => a.writeForm p.sink
  | .failed a => a.writeForm p.sink
  | .places a => a.writeForm p.sink
  | .duePlaces a => a.writeForm p.sink
  | .origin a => a.writeForm p.sink
  | .processInstance a => a.writeForm p.sink
  | .instanceKey a => a.writeForm p.sink
  | .keptAudit a => a.writeForm p.sink
  | .keptStream a => a.writeForm p.sink
  | .chainHead head => Octets.number 8 head.position ++ head.digest
  | .administration a => a.writeForm p.sink
  | .secret a => a.writeForm p.sink
  | .number n => Octets.number 8 n
  | .body bytes | .digest bytes => bytes
  | .nothing | .torn _ | .broken _ => []

/-- A record as it was read, or why there is none. -/
def formed {α : Type} (content : α → Content) : Except String α → Content
  | .ok a => content a
  | .error reason => .torn reason

/-- A number of eight bytes. -/
def eightBytes (what : String) (bytes : Bytes) : Content :=
  if bytes.length = 8 then .number (ofBigEndian (bytes.map UInt8.toNat)) else .torn what

/-- A place, or that what it was of is taken out and remembered so. -/
def placeBytes (bytes : Bytes) : Content :=
  if bytes = [] then .nothing else eightBytes "a place that is not eight bytes" bytes

/-- A chain's head: a number and a digest. -/
def headBytes (bytes : Bytes) : Content :=
  if 8 ≤ bytes.length ∧ bytes.length - 8 = 32 then
    .chainHead ⟨ofBigEndian ((bytes.take 8).map UInt8.toNat), bytes.drop 8⟩
  else .torn "an audit chain's head that is not a number and a digest"

/-- What bytes kept under a kind are read as. -/
def Kind.read : Kind → Bytes → Content
  | chunk, bytes | keptAuditStream, bytes =>
      formed .chunk (p.fromBytes (StreamChunk.readForm p) bytes)
  | stream, bytes => formed .stream (p.fromBytes (StreamRecord.readForm p) bytes)
  | message, bytes => formed .message (p.fromBytes (MessageRecord.readForm p) bytes)
  | journey, bytes => formed .journey (p.fromBytes (JourneyRecord.readForm p) bytes)
  -- a stored claim is read to its end, and what may follow is left
  | claim, bytes => formed .claim (((Stored.readForm p).run bytes).map Prod.fst)
  | audit, bytes => formed .audit (p.fromBytes (AuditEntry.readForm p) bytes)
  | held, bytes => formed .held (p.fromBytes (Held.readForm p) bytes)
  | dead, bytes => formed .dead (p.fromBytes (Dead.readForm p) bytes)
  | failed, bytes => formed .failed (p.fromBytes (Failed.readForm p) bytes)
  | places, bytes | deadPlaces, bytes | failedPlaces, bytes =>
      formed .places (p.fromBytes (Places.readForm p) bytes)
  | duePlaces, bytes => formed .duePlaces (p.fromBytes (DuePlaces.readForm p) bytes)
  | heldJourney, bytes | deadMessage, bytes | failedByJourney, bytes => placeBytes bytes
  | publication, bytes => .digest bytes
  | sequence, bytes => eightBytes "an audit sequence that is not eight bytes" bytes
  | origin, bytes => formed .origin (p.fromBytes (Origin.readForm p) bytes)
  | processInstance, bytes =>
      formed .processInstance (p.fromBytes (InstanceRecord.readForm p) bytes)
  | instanceKey, bytes => formed .instanceKey (p.fromBytes (InstanceKey.readForm p) bytes)
  | keptAudit, bytes => formed .keptAudit (p.fromBytes (KeptAudit.readForm p) bytes)
  | keptAuditStreams, bytes => formed .keptStream (p.fromBytes (KeptStream.readForm p) bytes)
  | keptAuditBody, bytes => .body bytes
  | chain, bytes => headBytes bytes
  | administration _, bytes =>
      formed .administration (p.fromBytes (AdministrationRecord.readForm p) bytes)
  | secret, bytes => formed .secret (p.fromBytes (KeptSecret.readForm p) bytes)

/-! ## What the stores are asked -/

def Change.kept (c : Change) : RecordChange where
  kind := c.place.kept.1
  key := c.place.kept.2
  value := c.value.map (Content.kept p)

def IndexEntry.kept (entry : IndexEntry) : EncryptedStore.IndexEntry :=
  (entry.1.map UInt8.ofNat, entry.2)

/-- One write of a database, as its store is asked it. -/
def Laid.kept (laid : Laid) : List RecordChange × List EncryptedStore.IndexEntry :=
  (laid.1.map (Change.kept p), laid.2.map IndexEntry.kept)

end

/-- An engine that a store was asked to write to, one write after another, each of which came
out. -/
inductive EncryptedStore.Written {k : DataKeys} (store : EncryptedStore k) :
    Engine → List (List RecordChange × List EncryptedStore.IndexEntry) → Engine → Prop
  | nil (engine : Engine) : Written store engine [] engine
  | cons {engine engine' last : Engine} {drawn : ℕ → k.Drawn} {changes : List RecordChange}
      {entries : List EncryptedStore.IndexEntry}
      {writes : List (List RecordChange × List EncryptedStore.IndexEntry)}
      (made : store.applyIndexed drawn engine none changes entries = .ok engine')
      (rest : Written store engine' writes last) :
      Written store engine ((changes, entries) :: writes) last

/-! ## The writes of a node -/

section

variable {x : Wire.Secrets} {k : Sealing}

namespace AdministrationWrite

/-- What it lays out, where it writes. -/
def laid (s : Store) (write : AdministrationWrite x k) : Option Laid :=
  match write.made s with
  | .error _ => none
  | .ok _ => (writtenOver s.get (nanos write.now) [] (write.changes s)).toOption

end AdministrationWrite

namespace Databases

variable (codec : Codec) (sha : Bytes → Bytes) (digest : Publication → Bytes)

/-- What an act lays out, and in which database. -/
def wrote (node : Databases) : Act x k → Option (Schema.Database × Laid)
  | .embedded act => (node.embedded.wrote digest act).map fun (database, laid) =>
      (![.runtime, .administration, .audit] database, laid)
  | .administered write => (write.laid node.administration).map (.administration, ·)

/-- What the acts of a run lay out in a database, one write after another. -/
def writes (database : Schema.Database) (node : Databases) : List (Act x k) → List Laid
  | [] => []
  | act :: acts =>
      ((node.wrote digest act).filter fun w => w.1 = database).toList.map Prod.snd ++
        writes database (node.after codec sha digest act) acts

end Databases

end

end XmipPersist
