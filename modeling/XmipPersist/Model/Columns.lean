import XmipPersist.Library.BigEndian
import XmipPersist.Model.Batch

/-! # The laid-out columns of the searchable records, and their index entries -/

namespace XmipPersist

/-! ## Rows -/

inductive Value
  | time (time : ℕ)
  | count (count : ℕ)
  | flag (flag : Bool)
  | text (text : String)
  | id (id : ℕ)
  | bytes (bytes : Bytes)
  deriving DecidableEq

inductive Column
  | createdAt
  | updatedAt
  | state
  | previousJourney
  | subscription
  | causeWorkProcess
  | depth
  | workProcess
  | sendPort
  | sendLocation
  | attempts
  | message
  | origin
  | isOpen
  | groupDelivery
  | groupOpen
  | previousMessage
  | generation
  | createdBy
  | priority
  | executionProfile
  | durability
  | sizeBytes
  | party
  | contract
  | stream
  | queue
  | sequence
  | heldAt
  | failed
  | dueAt
  | node
  | receiveLocation
  | queuedAt
  | place
  | reason
  | failedAt
  | occurredAt
  | keptAt
  | action
  | phase
  | severity
  | messageText
  | program
  | host
  | process
  | location
  | hidden
  | execution
  | journey
  | artifactKind
  | artifactName
  | artifactVersion
  | cluster
  | writer
  | position
  | previousDigest
  | digest
  | bodyLength
  | bodyChunks
  | bodyDigest
  | length
  | chunks
  | writtenAt
  | kind
  | name
  | setAt
  | setBy
  deriving DecidableEq

/-- A record's columns, by name: nothing where it holds nothing there. -/
abbrev Row := List (Column × Option Value)

/-- A record its table lays out in columns. -/
class Columned (α : Type) extends Form α where
  /-- What its index entries find. -/
  id : α → ℕ
  /-- Xmip Storage's own times set to `now`, or kept from the record it replaces. -/
  stamp : α → ℕ → Option α → α
  row : α → Row

instance : Columned JourneyRecord where
  id record := record.journey
  stamp record now before :=
    { record with facts := { record.facts with
        createdUnixNanos := (before.map fun b => b.facts.createdUnixNanos).getD now
        updatedUnixNanos := now } }
  row record :=
    let facts := record.facts
    [(.createdAt, some (.time facts.createdUnixNanos)),
      (.updatedAt, some (.time facts.updatedUnixNanos)),
      (.state, some (.text facts.state)),
      (.previousJourney, facts.previousJourney.map .id),
      (.subscription, facts.subscription.map .text),
      (.causeWorkProcess, facts.causeWorkProcess.map .text),
      (.depth, some (.count facts.depth)),
      (.workProcess, facts.workProcess.map .text),
      (.sendPort, facts.sendPort.map .text),
      (.sendLocation, some (.count facts.sendLocation)),
      (.attempts, some (.count facts.attempts)),
      (.message, facts.message.map .id),
      (.origin, facts.origin.map .id),
      (.isOpen, some (.flag facts.isOpen)),
      (.groupDelivery, facts.groupDelivery.map .id),
      (.groupOpen, some (.flag facts.groupOpen))]

instance : Columned MessageRecord where
  id record := record.message
  stamp record now before :=
    { record with facts := { record.facts with
        createdUnixNanos := (before.map fun b => b.facts.createdUnixNanos).getD now } }
  row record :=
    let facts := record.facts
    [(.createdAt, some (.time facts.createdUnixNanos)),
      (.previousMessage, facts.previousMessage.map .id),
      (.generation, some (.count facts.generation)),
      (.createdBy, some (.text facts.createdBy)),
      (.priority, some (.text facts.priority)),
      (.executionProfile, some (.text facts.executionProfile)),
      (.durability, some (.text facts.durability)),
      (.sizeBytes, some (.count facts.sizeBytes)),
      (.party, facts.party.map .text),
      (.contract, facts.contract.map .text),
      (.stream, facts.stream.map .id)]

instance : Columned Held where
  id held := held.hold.journey
  stamp held now before :=
    { held with heldUnixNanos := (before.map fun b => b.heldUnixNanos).getD now }
  row held :=
    [(.queue, some (.id held.hold.queue)),
      (.sequence, some (.count held.sequence)),
      (.heldAt, some (.time held.heldUnixNanos)),
      (.failed, some (.flag held.failed)),
      (.dueAt, some (.time held.dueAt))]

/-- An entry's time is its Publication's, which it carries: nothing is stamped. -/
instance : Columned Dead where
  id dead := dead.message.message
  stamp dead _ _ := dead
  row dead :=
    let entry := dead.message
    [(.queue, some (.id entry.queue)),
      (.sequence, some (.count dead.sequence)),
      (.stream, some (.id entry.stream)),
      (.node, some (.text entry.node)),
      (.receiveLocation, some (.text entry.location)),
      (.queuedAt, some (.time (nanos entry.receivedUnixNanos)))]

/-- Its time is set as it fails, in the hand-on's write: nothing is stamped. -/
instance : Columned Failed where
  id failed := failed.journey
  stamp failed _ _ := failed
  row failed :=
    [(.queue, some (.id failed.queue)),
      (.sequence, some (.count failed.sequence)),
      (.place, some (.count failed.place)),
      (.reason, some (.text failed.reason)),
      (.failedAt, some (.time (nanos failed.failedUnixNanos)))]

instance : Columned KeptAudit where
  id record := record.id
  stamp record now before :=
    { record with facts := { record.facts with
        keptUnixNanos := (before.map fun b => b.facts.keptUnixNanos).getD now } }
  row record :=
    let facts := record.facts
    [(.occurredAt, some (.time facts.occurredUnixNanos)),
      (.keptAt, some (.time facts.keptUnixNanos)),
      (.action, some (.text facts.action)),
      (.phase, some (.text facts.phase)),
      (.severity, some (.text facts.severity)),
      (.failed, some (.flag facts.failed)),
      (.messageText, facts.text.map .text),
      (.program, some (.text facts.program)),
      (.host, some (.text facts.host)),
      (.process, some (.count facts.process)),
      (.location, facts.location.map .text),
      (.hidden, some (.flag facts.hidden)),
      (.execution, facts.execution.map .id),
      (.journey, facts.journey.map .id),
      (.message, facts.message.map .id),
      (.artifactKind, facts.artifactKind.map .text),
      (.artifactName, facts.artifactName.map .text),
      (.artifactVersion, facts.artifactVersion.map .text),
      (.node, facts.node.map .text),
      (.cluster, facts.cluster.map .text),
      (.writer, some (.text facts.writer)),
      (.position, some (.count facts.position)),
      (.previousDigest, some (.bytes facts.previous)),
      (.digest, some (.bytes facts.digest)),
      (.bodyLength, some (.count facts.bodyLength)),
      (.bodyChunks, some (.count facts.bodyChunks)),
      (.bodyDigest, some (.bytes facts.bodyDigest))]

/-- Its times are the Stream's own record's: nothing is stamped. -/
instance : Columned KeptStream where
  id row := row.audit
  stamp row _ _ := row
  row row :=
    let stream := row.stream
    [(.stream, some (.id stream.stream)),
      (.length, some (.count stream.length)),
      (.chunks, some (.count stream.chunks)),
      (.digest, some (.bytes stream.digest)),
      (.writtenAt, some (.time stream.writtenUnixNanos))]

instance : Columned AdministrationRecord where
  id record := record.id
  stamp record now _ := { record with updatedUnixNanos := now }
  row record :=
    [(.kind, some (.text record.kind.word)),
      (.updatedAt, some (.time record.updatedUnixNanos))]

instance : Columned KeptSecret where
  id record := record.id
  stamp record now _ := { record with setUnixNanos := now }
  row record :=
    [(.name, some (.text record.name)),
      (.kind, some (.text record.kind)),
      (.setAt, some (.time record.setUnixNanos)),
      (.setBy, some (.text record.setBy))]

/-! ## Indexes -/

/-- An index: its number, its columns, and the flag a record has to have to be in it. -/
structure Index where
  number : ℕ
  name : String
  columns : List Column
  only : Option Column := none
  deriving DecidableEq

/-- The searchable tables. -/
inductive Searched
  | journey
  | message
  | held
  | dead
  | failed
  | audit
  | auditStream
  | administration
  | secret
  deriving DecidableEq

namespace Searched

def of : Kind → Option Searched
  | .journey => some journey
  | .message => some message
  | .held => some held
  | .dead => some dead
  | .failed => some failed
  | .keptAudit => some audit
  | .keptAuditStreams => some auditStream
  | .administration _ => some administration
  | .secret => some secret
  | _ => none

def indexes : Searched → List Index
  | journey =>
      [⟨1, "journey_state", [.state, .updatedAt], none⟩,
        ⟨2, "journey_send_port", [.sendPort, .state], none⟩,
        ⟨3, "journey_previous", [.previousJourney], none⟩,
        ⟨4, "journey_message", [.message], none⟩]
  | message =>
      [⟨5, "message_created", [.createdAt], none⟩,
        ⟨6, "message_party", [.party, .createdAt], none⟩,
        ⟨7, "message_contract", [.contract, .createdAt], none⟩,
        ⟨8, "message_previous", [.previousMessage], none⟩,
        ⟨17, "message_stream", [.stream], none⟩]
  | held =>
      [⟨9, "held_time", [.queue, .heldAt], none⟩,
        ⟨20, "held_place", [.queue, .sequence], none⟩,
        ⟨23, "held_due", [.queue, .failed, .dueAt, .sequence], none⟩]
  | dead =>
      [⟨10, "dead_message_time", [.queue, .queuedAt], none⟩,
        ⟨21, "dead_message_place", [.queue, .sequence], none⟩]
  | failed => [⟨22, "failed_message_place", [.queue, .sequence], none⟩]
  | audit =>
      [⟨11, "audit_occurred", [.occurredAt], none⟩,
        ⟨12, "audit_journey", [.journey], none⟩,
        ⟨13, "audit_message", [.message], none⟩,
        ⟨14, "audit_artifact", [.artifactName, .occurredAt], none⟩,
        ⟨15, "audit_failed", [.failed, .occurredAt], some .failed⟩,
        ⟨19, "audit_chain", [.writer, .position], none⟩]
  | auditStream => [⟨18, "audit_stream_stream", [.stream], none⟩]
  | administration => [⟨16, "administration_updated", [.kind, .updatedAt], none⟩]
  | secret => [⟨24, "secret_name", [.name], none⟩]

end Searched

/-- Bytes after their length. -/
def counted (bytes : Bytes) : List ℕ :=
  bigEndian 4 (min bytes.length u32Max) ++ bytes.map UInt8.toNat

/-- A value as an entry's key keeps it, so that it sorts: words and bytes after their length. -/
def encoded : Value → List ℕ
  | .time time => bigEndian 8 time
  | .count count => bigEndian 8 count
  | .flag flag => [flag.toNat]
  | .text text => counted text.toUTF8.data.toList
  | .id id => bigEndian 16 id
  | .bytes bytes => counted bytes

/-- The value a row holds in a column, where it holds one. -/
def Row.value (row : Row) (column : Column) : Option Value :=
  (row.find? fun cell => cell.1 = column).bind Prod.snd

/-- The values a row holds in `columns`, where it holds one in each. -/
def Row.values (row : Row) : List Column → Option (List Value)
  | [] => some []
  | column :: columns => do
      let value ← row.value column
      let rest ← row.values columns
      pure (value :: rest)

/-- Whether a row has the flag of a partial index. -/
def Index.takes (index : Index) (row : Row) : Bool :=
  match index.only with
  | some flag => row.value flag = some (.flag true)
  | none => true

/-- The key of the entry of `index` that finds `id` by `values`. -/
def Index.key (index : Index) (values : List Value) (id : ℕ) : IndexKey :=
  index.number :: values.flatMap encoded ++ bigEndian 16 id

/-- The key of each entry `row` belongs in: none for an index whose column it lacks, or whose
flag it does not have. -/
def entries (searched : Searched) (row : Row) (id : ℕ) : List IndexKey :=
  searched.indexes.filterMap fun index =>
    if index.takes row then (row.values index.columns).map fun values => index.key values id
    else none

/-- The row and the identifier of the record bytes hold. -/
def rowOf (α : Type) [Columned α] (bytes : Content) : Except PersistError (Row × ℕ) := do
  let record : α ← Form.fromBytes bytes
  pure (Columned.row record, Columned.id record)

/-- Bytes stamped at `now` over the record they replace: the bytes to keep, the row, and the
identifier. -/
def stamp (α : Type) [Columned α] (bytes : Content) (before : Option Content) (now : ℕ) :
    Except PersistError (Content × Row × ℕ) := do
  let record : α ← Form.fromBytes bytes
  let before : Option α ← decoded before
  let record := Columned.stamp record now before
  pure (Form.bytes record, Columned.row record, Columned.id record)

namespace Searched

def row : Searched → Content → Except PersistError (Row × ℕ)
  | journey => rowOf JourneyRecord
  | message => rowOf MessageRecord
  | held => rowOf Held
  | dead => rowOf Dead
  | failed => rowOf Failed
  | audit => rowOf KeptAudit
  | auditStream => rowOf KeptStream
  | administration => rowOf AdministrationRecord
  | secret => rowOf KeptSecret

def stamped : Searched → Content → Option Content → ℕ →
    Except PersistError (Content × Row × ℕ)
  | journey => stamp JourneyRecord
  | message => stamp MessageRecord
  | held => stamp Held
  | dead => stamp Dead
  | failed => stamp Failed
  | audit => stamp KeptAudit
  | auditStream => stamp KeptStream
  | administration => stamp AdministrationRecord
  | secret => stamp KeptSecret

end Searched

/-! ## The changes as they are written -/

/-- An index entry set to the record it finds, or taken out. -/
abbrev IndexEntry := IndexKey × Option ℕ

/-- The removal of the entries of the record a change replaces. -/
def goneEntries (searched : Searched) : Option Content → Except PersistError (List IndexEntry)
  | none => .ok []
  | some bytes => do
      let (row, id) ← searched.row bytes
      pure ((entries searched row id).map fun key => (key, none))

/-- One change laid out over what its place held: as it is written, with the entries it takes
out and the entries it sets. -/
def laidOut (c : Change) (before : Option Content) (now : ℕ) :
    Except PersistError (Change × List IndexEntry) :=
  match Searched.of c.kind with
  | none => .ok (c, [])
  | some searched => do
      let gone ← goneEntries searched before
      match c.value with
      | some bytes => do
          let (bytes, row, id) ← searched.stamped bytes before now
          let kept := (entries searched row id).map fun key => (key, some id)
          pure ({ c with value := some bytes }, gone ++ kept)
      | none => pure (c, gone)

/-- The record a change replaces: the one laid out last at its place, or what `kept` says the
store holds there. Only a searchable record is asked for it. -/
def replaced (kept : Place → Except PersistError (Option Content)) (done : List Change)
    (c : Change) : Except PersistError (Option Content) :=
  match Searched.of c.kind with
  | none => .ok none
  | some _ =>
      match written done c.place with
      | some before => .ok before
      | none => kept c.place

/-- The changes of a batch as they are written at `now`, after the ones laid out already. -/
def writtenOver (kept : Place → Except PersistError (Option Content)) (now : ℕ) :
    List Change → List Change → Except PersistError (List Change × List IndexEntry)
  | _, [] => .ok ([], [])
  | done, c :: cs => do
      let before ← replaced kept done c
      let (c', entries) ← laidOut c before now
      let (cs', rest) ← writtenOver kept now (done ++ [c']) cs
      pure (c' :: cs', entries ++ rest)

/-- The changes and their entries written, all in one write. -/
def Store.applyIndexed (s : Store) (changes : List Change) (entries : List IndexEntry) : Store where
  records p := (written changes p).getD (s.records p)
  entries := s.entries.apply entries

/-! ## A range of an index -/

/-- The most a byte holds, `n` times. -/
def tops (n : ℕ) : List ℕ := List.replicate n 255

namespace Index

/-- What the keys of the entries whose first columns are `equal` open with. -/
def opens (index : Index) (equal : List Value) : IndexKey :=
  index.number :: (equal.take index.columns.length).flatMap encoded

/-- The first and last keys of the range in which the entries are kept whose first columns are
`equal` and whose next, where `span` says, is from one value to another, both included; no range
where it holds none. -/
def range (index : Index) (equal : List Value) : Option (ℕ × ℕ) → Option (IndexKey × IndexKey)
  | some (first, last) =>
      if last < first then none
      else some (index.opens equal ++ bigEndian 8 first,
        index.opens equal ++ bigEndian 8 last ++ tops 17)
  | none => some (index.opens equal, index.opens equal ++ tops 64)

/-- The records `index` finds whose first columns are `equal` and whose next, where `span` says,
is from one value to another, both included: up to `most`, in the index's order or the reverse. -/
def find (index : Index) (s : Store) (equal : List Value) (span : Option (ℕ × ℕ)) (most : ℕ)
    (reverse : Bool) : List ℕ :=
  match index.range equal span with
  | none => []
  | some (first, last) => (s.entries.range first last most reverse).map Prod.snd

/-- The numbers that bytes are, eight of them each. -/
def numbers : ℕ → List ℕ → List ℕ
  | 0, _ => []
  | n + 1, bytes => ofBigEndian (bytes.take 8) :: numbers n (bytes.drop 8)

/-- The values an entry's key holds after `pre`, where they are as many as `trailing`, and the
record it finds. -/
def ordered (index : Index) (pre : IndexKey) (trailing : ℕ) (entry : IndexKey × ℕ) :
    Except PersistError (List ℕ × ℕ) :=
  let values := (entry.1.take (entry.1.length - 16)).drop pre.length
  if values.length = 8 * trailing then .ok (numbers trailing values, entry.2)
  else .error (.record (index.name ++ ": not in that order"))

/-- The entries of `index` whose first columns are `equal` and whose columns after them are
from `first` on, the first of them `last` at most: up to `most`, in the index's order, each
with those values. -/
def findOrdered (index : Index) (s : Store) (equal : List Value) (first : List ℕ)
    (last most : ℕ) : Except PersistError (List (List ℕ × ℕ)) :=
  let pre := index.opens equal
  let trailing := index.columns.length - equal.length
  match first.head? with
  | none => .error (.record (index.name ++ ": not in that order"))
  | some start =>
      if trailing < first.length ∨ last < start then .ok []
      else
        (s.entries.range (pre ++ first.flatMap (bigEndian 8))
          (pre ++ bigEndian 8 last ++ tops (8 * (trailing - 1) + 17)) most false).mapM
          (index.ordered pre trailing)

end Index

end XmipPersist
