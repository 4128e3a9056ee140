import XmipPersist.Model.Claim
import XmipPersist.Model.Due

/-! # The one writer of the runtime database, and its runs -/

namespace XmipPersist

/-! ## Publications and Replays -/

/-- What a Publication's write decided: written now, its audit record still to be numbered,
or written before, and either way the claims its node holds of those it asked for. -/
inductive Decided
  | now (claims : List Claim)
  | before (claims : List Claim)
  deriving DecidableEq

namespace Publication

/-- Of the claims asked, those still held under their tokens. -/
def standing : List Claim → Deciding (List Claim)
  | [] => pure []
  | asked :: rest => do
      let found ← asked.stored
      let held := match found with
        | some stored => if stored.askedBy asked then [stored.claim] else []
        | none => []
      let others ← standing rest
      pure (held ++ others)

/-- The claims asked taken, where no other holds them. -/
def taking (now until' : ℤ) (epoch : ℕ) : List Claim → Deciding (List Claim)
  | [] => pure []
  | asked :: rest => do
      let held ← asked.take now until' epoch
      let others ← taking now until' epoch rest
      pure (held.toList ++ others)

/-- Its Dead Message Queue entry kept, where nothing matched. -/
def keepDead (asked : Publication) : Deciding Unit :=
  match asked.dead with
  | some entry => Dead.keep entry
  | none => pure ()

/-- A Publication's own writes, its claims aside. -/
def writes (asked : Publication) : Deciding Unit := do
  putRecord .message asked.message.message asked.message
  asked.journeys.forM fun journey => do
    Origin.counted journey asked.held
    putRecord .journey journey.journey journey
  asked.held.forM Hold.keep
  asked.keepDead

/-- The refusal of a Publication whose Message another one was written with. -/
def another (asked : Publication) : PersistError :=
  .failed ("the Message " ++ toString asked.message.message ++
    " was published before as another Publication; nothing of this one is written")

/-- A Publication decided: written, and that it was written kept by its Message, or, where it
was written before, answered as it stands. -/
def decide (digest : Publication → Bytes) (asked : Publication) (now : ℤ) (epoch : ℕ) :
    Deciding Decided := do
  match ← read .publication (.id asked.message.message) with
  | some written =>
      if written ≠ .digest (digest asked) then
        throw asked.another
      else do
        let held ← standing asked.claims
        pure (.before held)
  | none => do
      asked.writes
      let held ← taking now (saturatingAdd now asked.leaseNanos) epoch asked.claims
      put .publication (.id asked.message.message) (some (.digest (digest asked)))
      pure (.now held)

end Publication

namespace Replay

/-- An entry's Journeys written, the held ones kept, and the entry taken out, once. -/
def decide (asked : Replay) : Deciding Replayed := do
  match ← Queue.placed Dead.kinds asked.queue asked.message with
  | .never => pure .absent
  | .takenOut => pure .before
  | .at sequence => do
      let _ ← Queue.takeOut Dead.kinds asked.queue sequence
      Queue.remember Dead.kinds asked.queue asked.message
      asked.journeys.forM fun journey => do
        Origin.counted journey asked.held
        putRecord .journey journey.journey journey
      asked.held.forM Hold.keep
      pure .now

end Replay

/-! ## One write -/

/-- One write the committer decides. -/
inductive Op
  | put (kind : Kind) (key : Key) (value : Content)
  | claim (claim : Claim) (leaseNanos : ℤ)
  | renew (claims : List Claim) (leaseNanos : ℤ)
  | release (claim : Claim)
  | handOn (asked : HandOn)
  | turn (turn : Turn)
  | publish (asked : Publication)
  | replay (asked : Replay)
  | audit (entry : AuditEntry)
  | kept (number : ℕ)
  deriving DecidableEq

/-- A raw write as the storage operations make it: a Message's or a Journey's record under
its own identifier. -/
def Op.Made : Op → Prop
  | put kind key value =>
      (∃ record : MessageRecord,
        kind = .message ∧ key = .id record.message ∧ value = Form.bytes record) ∨
      ∃ record : JourneyRecord,
        kind = .journey ∧ key = .id record.journey ∧ value = Form.bytes record
  | _ => True

/-- What a write decided. -/
inductive Done
  | written
  | claim (claim : Option Claim)
  | claims (claims : List Claim)
  | yes (yes : Bool)
  | replayed (replayed : Replayed)
  deriving DecidableEq

/-- An audit record numbered and written. -/
def audit (entry : AuditEntry) : Deciding Unit := fun b =>
  .ok ((), { b.put .audit (.id b.next) (some (Form.bytes entry)) with next := b.next + 1 })

/-- An eight-byte number of the audit sequence, zero where none is. -/
def numbered : Option Content → Except PersistError ℕ
  | none => .ok 0
  | some (.number number) => .ok number
  | some _ => .error (.record "an audit sequence that is not eight bytes")

/-- Audit record `number` forgotten, where the keeper has not moved past it already. -/
def forgetKept (number : ℕ) : Deciding Bool := do
  let kept ← reading fun b => b.read (.sequence, .kept) >>= numbered
  if kept ≠ number then pure false
  else do
    put .audit (.id number) none
    put .sequence .kept (some (.number (number + 1)))
    pure true

/-- What a group of writes is decided with: the Storage node's clock and epoch as they were
read, the order its hash map comes out in, and the engine's refusal to write it, where it
refuses. -/
structure Moment where
  now : ℤ
  epoch : ℕ
  order : Due.Arrangement
  refused : Option PersistError := none

/-! The digest a Publication is known by is one function, whatever it is. -/

variable (digest : Publication → Bytes)

/-- One write decided. -/
def Op.decide (m : Moment) : Op → Deciding Done
  | put kind key value => do
      XmipPersist.put kind key (some value)
      pure .written
  | claim asked lease => do
      let held ← asked.take m.now (saturatingAdd m.now lease) m.epoch
      pure (.claim held)
  | renew claims lease => do
      let held ← Claim.renew lease m.now claims
      pure (.claims held)
  | release held => do
      let yes ← held.release
      pure (.yes yes)
  | handOn asked => do
      let yes ← asked.decide m.now
      pure (.yes yes)
  | turn asked => do
      let yes ← asked.decide m.now
      pure (.yes yes)
  | publish asked => do
      match ← asked.decide digest m.now m.epoch with
      | .before held => pure (.claims held)
      | .now held => do
          XmipPersist.audit asked.audit
          pure (.claims held)
  | replay asked => do
      match ← asked.decide with
      | .now => do
          XmipPersist.audit asked.audit
          pure (.replayed .now)
      | other => pure (.replayed other)
  | audit entry => do
      XmipPersist.audit entry
      pure .written
  | kept number => do
      let yes ← forgetKept number
      pure (.yes yes)

/-! ## A group of writes -/

abbrev Outcome := Except PersistError Done

/-- Each write of a group decided on a stage of its own, all of it taken into the batch or
none of it. -/
def decideEach (m : Moment) : Batch → List Op → List Outcome × Batch
  | b, [] => ([], b)
  | b, op :: ops =>
      match (op.decide digest m).run b.staged with
      | .ok (done, stage) =>
          let rest := decideEach m (b.taking stage) ops
          (.ok done :: rest.1, rest.2)
      | .error e =>
          let rest := decideEach m b ops
          (.error e :: rest.1, rest.2)

/-- The one writer: the runtime database, and the next audit record's number. -/
structure Writer where
  store : Store
  next : ℕ

/-- Whether what a group answered is durable already, or told by its sync. -/
inductive Durability
  | kept
  | pending
  deriving DecidableEq

structure Committed where
  writer : Writer
  answers : List Outcome
  durable : Durability

namespace Writer

/-- The batch `decided` as it is written, its due places settled and the next audit number
kept. -/
def laying (w : Writer) (m : Moment) (decided : Batch) :
    Except PersistError (List Change × List IndexEntry) := do
  let settled ← Due.settle w.store m.order decided
  let numbered :=
    if decided.next ≠ w.next then
      settled.put .sequence .next (some (.number decided.next))
    else settled
  writtenOver w.store.get (nanos m.now) [] numbered.changes

/-- Whether a decided batch leaves nothing to write. -/
def idle (w : Writer) (decided : Batch) : Prop :=
  decided.changes = [] ∧ decided.next = w.next

instance (w : Writer) (decided : Batch) : Decidable (w.idle decided) :=
  decidable_of_iff (decided.changes.isEmpty = true ∧ decided.next = w.next) (by simp [idle])

/-- The store once a decided batch is written, or the batch's failure. -/
def laid (w : Writer) (m : Moment) (decided : Batch) : Except PersistError Store :=
  if w.idle decided then .ok w.store
  else do
    let (changes, entries) ← w.laying m decided
    match m.refused with
    | some error => throw error
    | none => pure (w.store.applyIndexed changes entries)

/-- A group of writes decided, written and answered. -/
def committed (w : Writer) (m : Moment) (group : List Op) : Committed :=
  let decided := decideEach digest m (Batch.over' w.store w.next) group
  match w.laid m decided.2 with
  | .ok store =>
      { writer := ⟨store, decided.2.next⟩
        answers := decided.1
        durable := if w.idle decided.2 then .kept else .pending }
  | .error e =>
      { writer := w
        answers := group.map fun _ => .error e.again
        durable := .kept }

end Writer

/-! ## Runs of the writer -/

/-- A step of a run: a group of writes committed, a chunk of a Stream written straight to the
engine, the last with the Stream's record, or the Storage node started again. -/
inductive Step
  | group (m : Moment) (ops : List Op)
  | chunk (chunk : StreamChunk)
  | stream (last : StreamChunk) (stream : StreamRecord) (now : ℤ)
  | restart

namespace Writer

/-- The writer of a new runtime database. -/
def fresh : Writer := ⟨Store.empty, 0⟩

/-- Straight to the engine, needing no condition. -/
def deferred (w : Writer) (changes : List Change) : Writer :=
  { w with store := w.store.applyIndexed changes [] }

/-- The writer over a store, its next audit number read from it. -/
def start (s : Store) : Except PersistError Writer := do
  let next ← s.get (.sequence, .next) >>= numbered
  pure ⟨s, next⟩

def chunkChange (chunk : StreamChunk) : Change :=
  ⟨.chunk, .pair chunk.stream chunk.index, some (Form.bytes chunk)⟩

/-- A Stream's last chunk and its record, its time this Storage node's. -/
def streamChanges (last : StreamChunk) (stream : StreamRecord) (now : ℤ) : List Change :=
  [chunkChange last, ⟨.stream, .id stream.stream,
    some (Form.bytes { stream with writtenUnixNanos := nanos now })⟩]

/-- The state after a step; a Storage node whose audit sequence cannot be read does not
start. -/
def after (w : Writer) : Step → Writer
  | .group m ops => (w.committed digest m ops).writer
  | .chunk chunk => w.deferred [chunkChange chunk]
  | .stream last stream now => w.deferred (streamChanges last stream now)
  | .restart =>
      match start w.store with
      | .ok started => started
      | .error _ => w

def run (w : Writer) (steps : List Step) : Writer :=
  steps.foldl (after digest) w

end Writer

end XmipPersist
