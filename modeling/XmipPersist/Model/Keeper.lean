import XmipPersist.Model.Chain
import XmipPersist.Model.Commit

/-! # The audit keeper, and the node it runs in

Each audit record is moved from the runtime database to the audit database, oldest first: the
Streams it carries and its body a chunk at a time, then its row with its writer's chain's head in
one write, and only then is it forgotten where it was.
-/

namespace XmipPersist

/-! ## What the keeper writes of one record -/

/-- One write to the audit database's engine: changes as they are, unsynced, or a record's own,
stamped and with its index entries. -/
inductive EngineWrite
  | deferred (change : Change)
  | indexed (changes : List Change)

/-- The audit database once a write is made. -/
def EngineWrite.apply (audit : Store) (now : ℤ) : EngineWrite → Except PersistError Store
  | deferred change => .ok (audit.applyIndexed [change] [])
  | indexed changes => do
      let (changes, entries) ← writtenOver audit.get (nanos now) [] changes
      pure (audit.applyIndexed changes entries)

/-- Bytes in pieces of `size`, the last of what is left. -/
def pieces (size : ℕ) (bytes : Bytes) : List Bytes :=
  (List.range ((bytes.length + size - 1) / size)).map fun index =>
    (bytes.drop (index * size)).take size

namespace Keeper

variable (codec : Codec) (sha : Bytes → Bytes)

def missing (id stream : ℕ) (what : String) : PersistError :=
  .record ("the audit record " ++ toString id ++ " carries the Stream " ++ toString stream ++
    ", and the Ledger holds " ++ what)

/-- The chunks of one Stream kept beside the record that carries it, and its own record. -/
def streamKept (runtime : Store) (id stream : ℕ) :
    Except PersistError (List EngineWrite × StreamRecord) := do
  match ← runtime.get (.stream, .id stream) >>= decoded (α := StreamRecord) with
  | none => throw (missing id stream "no record of it")
  | some record =>
      let chunks ← (List.range record.chunks).mapM fun index => do
        match ← runtime.get (.chunk, .pair stream index) >>= decoded (α := StreamChunk) with
        | none => throw (missing id stream ("no chunk " ++ toString index ++ " of it"))
        | some chunk => pure (EngineWrite.deferred
            ⟨.keptAuditStream, .triple id stream index, some (Form.bytes chunk)⟩)
      pure (chunks, record)

/-- Each Stream a record carries kept beside it, and their records. -/
def streamsKept (runtime : Store) (entry : AuditEntry) :
    Except PersistError (List EngineWrite × List StreamRecord) := do
  let kept ← entry.carriedStreams.mapM (streamKept runtime entry.id)
  pure (kept.flatMap Prod.fst, kept.map Prod.snd)

/-- The row of each Stream a record carries. -/
def streamRows (id : ℕ) (streams : List StreamRecord) : List Change :=
  streams.map fun stream =>
    ⟨.keptAuditStreams, .pair id stream.stream, some (Form.bytes (KeptStream.mk id stream))⟩

/-- A record's body kept beside it in chunks. -/
def bodyKept (chunk : ℕ) (entry : AuditEntry) : List EngineWrite :=
  (pieces (max chunk 1) (entry.bodyBytes codec)).mapIdx fun index piece =>
    .deferred ⟨.keptAuditBody, .pair entry.id index, some (.body piece)⟩

/-- A record's row before it is linked to its chain. -/
def row (chunk : ℕ) (entry : AuditEntry) : KeptAudit where
  id := entry.id
  streams := entry.carriedStreams
  facts := { entry.facts with
    bodyLength := (entry.bodyBytes codec).length
    bodyChunks := (pieces (max chunk 1) (entry.bodyBytes codec)).length
    bodyDigest := sha (entry.bodyBytes codec) }

/-- The writes one record is kept in, in order: none where its identifier is kept already. -/
def writes (chunk : ℕ) (runtime audit : Store) (number : ℕ) :
    Except PersistError (List EngineWrite) := do
  match ← runtime.get (.audit, .id number) >>= decoded (α := AuditEntry) with
  | none => throw (.record ("audit record " ++ toString number ++ " is gone"))
  | some entry =>
      match ← audit.get (.keptAudit, .id entry.id) with
      | some _ => pure []
      | none => do
          let (chunks, streams) ← streamsKept runtime entry
          let (head, kept) ← link codec sha audit (row codec sha chunk entry) streams
          pure (chunks ++ bodyKept codec chunk entry ++
            [.indexed (streamRows entry.id streams ++
              [head, ⟨.keptAudit, .id entry.id, some (Form.bytes kept)⟩])])

end Keeper

/-! ## The node -/

/-- How far the keeper has come: the record it moves, the first past those it moves at all, the
size its bodies are kept in chunks of, and what it has still to write of the record, once it has
read it. -/
structure Keeping where
  number : ℕ
  upto : ℕ
  chunk : ℕ
  writes : Option (List EngineWrite) := none

/-- The embedded Storage node: the writer of its runtime database, its audit database, and its
keeper, where one moves records. -/
structure Embedded where
  writer : Writer
  audit : Store
  keeping : Option Keeping := none

/-- A node over databases of its own, new. -/
def Embedded.fresh : Embedded := ⟨.fresh, .empty, none⟩

/-- How far a batch had come where it panicked: so many of its operations decided, the next one's
audit number taken or not, or its write made. -/
inductive Struck
  | deciding (decided : ℕ) (numbered : Bool)
  | written

/-- A step of the node: one of its writer's, a batch that panics, the writer then read again where
that read comes out, a keeper started, a step of it, or its end. -/
inductive Embedded.Act
  | step (step : Step)
  | panicked (m : Moment) (ops : List Op) (struck : Struck) (reads : Bool)
  | keep (most chunk : ℕ)
  | look
  | write (now : ℤ)
  | cut

namespace Writer

variable (digest : Publication → Bytes)

/-- What the writer holds in memory once a batch of its panicked. -/
def struck (w : Writer) (m : Moment) (ops : List Op) : Struck → Writer
  | .deciding decided numbered =>
      let batch := (decideEach digest m (Batch.over' w.store w.next) (ops.take decided)).2
      { w with next := batch.next + if numbered then 1 else 0 }
  | .written => (w.committed digest m ops).writer

/-- The writer's next number read again from what was written, where it can be. -/
def recover (w : Writer) (reads : Bool) : Writer :=
  if reads then
    match w.store.get (.sequence, .next) >>= numbered with
    | .ok next => { w with next }
    | .error _ => w
  else w

end Writer

namespace Embedded

variable (codec : Codec) (sha : Bytes → Bytes) (digest : Publication → Bytes)

/-- What the node's writer answered an operation of a group. -/
def answered (w : Writer) (m : Moment) (ops : List Op) (op : Op) : Option Outcome :=
  ((ops.zip (w.committed digest m ops).answers).find? fun asked => asked.1 = op).map Prod.snd

/-- Up to `most` audit records taken up by the keeper; one keeps at a time. -/
def keep (node : Embedded) (most chunk : ℕ) : Embedded :=
  match node.keeping, node.writer.store.get (.sequence, .kept) >>= numbered,
      node.writer.store.get (.sequence, .next) >>= numbered with
  | none, .ok kept, .ok next =>
      let upto := min next (kept + most)
      { node with keeping := if kept < upto then some ⟨kept, upto, chunk, none⟩ else none }
  | _, _, _ => node

/-- The keeper reading the record it moves next, and what it is to write of it. -/
def look (node : Embedded) : Embedded :=
  match node.keeping with
  | some ⟨number, upto, chunk, none⟩ =>
      match Keeper.writes codec sha chunk node.writer.store node.audit number with
      | .ok writes => { node with keeping := some ⟨number, upto, chunk, some writes⟩ }
      | .error _ => { node with keeping := none }
  | _ => node

/-- The next of the keeper's writes to the audit database. -/
def write (node : Embedded) (now : ℤ) : Embedded :=
  match node.keeping with
  | some ⟨number, upto, chunk, some (next :: rest)⟩ =>
      match next.apply node.audit now with
      | .ok audit => { node with audit, keeping := some ⟨number, upto, chunk, some rest⟩ }
      | .error _ => { node with keeping := none }
  | _ => node

/-- The keeper once it is answered whether its record is forgotten. -/
def told (keeping : Keeping) : Option Outcome → Option Keeping
  | some (.ok (.yes true)) =>
      if keeping.number + 1 < keeping.upto then
        some { keeping with number := keeping.number + 1, writes := none }
      else none
  | _ => none

/-- The keeper once a group of the writer's is answered: gone on or stopped, where its own
operation was in it. -/
def heard (node : Embedded) (m : Moment) (ops : List Op) : Option Keeping :=
  match node.keeping with
  | some keeping =>
      if .kept keeping.number ∈ ops then
        told keeping (answered digest node.writer m ops (.kept keeping.number))
      else some keeping
  | none => none

/-- The node after a step. -/
def after (node : Embedded) : Act → Embedded
  | .step (.group m ops) =>
      { node with
        writer := node.writer.after digest (.group m ops)
        keeping := node.heard digest m ops }
  | .step .restart => { node with writer := node.writer.after digest .restart, keeping := none }
  | .step other => { node with writer := node.writer.after digest other }
  | .panicked m ops struck reads =>
      { node with
        writer := (node.writer.struck digest m ops struck).recover reads
        keeping := node.keeping.filter fun keeping => .kept keeping.number ∉ ops }
  | .keep most chunk => node.keep most chunk
  | .look => node.look codec sha
  | .write now => node.write now
  | .cut => { node with keeping := none }

def run (node : Embedded) (acts : List Act) : Embedded := acts.foldl (after codec sha digest) node

end Embedded

/-- The operations of a step. -/
def Embedded.Act.ops : Embedded.Act → List Op
  | .step (.group _ ops) => ops
  | .panicked _ ops _ _ => ops
  | _ => []

/-- A step as the node makes it: its raw writes a Message's or a Journey's own record, and a
record forgotten only for its keeper, which has written what it keeps of it. -/
structure Embedded.Makes (node : Embedded) (act : Embedded.Act) : Prop where
  made : ∀ op ∈ act.ops, op.Made
  asked : ∀ number, .kept number ∈ act.ops →
    ∃ keeping, node.keeping = some keeping ∧ keeping.number = number ∧ keeping.writes = some []

end XmipPersist
