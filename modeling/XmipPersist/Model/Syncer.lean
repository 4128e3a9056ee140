import XmipPersist.Library.Synced
import XmipPersist.Model.Commit

/-! # The sync thread, and when a write is durable

The one writer answers a batch once it is written and hands its durability to the sync thread,
which syncs every batch handed to it while its last sync ran with one sync.
-/

namespace XmipPersist

/-! ## Batches on their way to a sync -/

/-- An operation that came out: what it decided, how many writes there were then, and the
changes its batch wrote. -/
structure Answered where
  op : Op
  done : Done
  position : ℕ
  wrote : List Change
  deriving DecidableEq

/-- A batch written and not synced yet, with what its operations answer once it is. -/
structure Pending where
  position : ℕ
  answers : List Answered
  deriving DecidableEq

/-- The Storage node: the runtime database's engine, the next audit number, the batch written
last and not handed over yet, the batches handed to the sync thread, those it took for its next
sync, how many writes there were when that began, and the operations that returned. -/
structure Node where
  disk : Synced Store
  next : ℕ
  unhanded : Option Pending
  inbox : List Pending
  taken : List Pending
  began : Option ℕ
  returned : List Answered

/-- What happens at a Storage node: a group committed, its durability handed over, the sync
thread taking what is handed to it, a sync begun and come to its end, a chunk of a Stream or its
last with its record written straight to the engine, and a crash. -/
inductive Event
  | group (m : Moment) (ops : List Op)
  | hand
  | take (more : ℕ)
  | begins
  | ends (synced : Bool)
  | chunk (chunk : StreamChunk)
  | stream (last : StreamChunk) (stream : StreamRecord) (now : ℤ)
  | crash

namespace Node

variable (digest : Publication → Bytes)

def opened (s : Store) (next : ℕ) : Node := ⟨.opened s, next, none, [], [], none, []⟩

def writer (n : Node) : Writer := ⟨n.disk.now, n.next⟩

/-- The operations of a group that came out, each as it is answered. -/
def answered (n : Node) (m : Moment) (ops : List Op) (position : ℕ) (wrote : List Change) :
    List Answered :=
  (ops.zip (n.writer.committed digest m ops).answers).filterMap fun
    | (op, .ok done) => some ⟨op, done, position, wrote⟩
    | (_, .error _) => none

/-- What a group decides over what is written. -/
def batch (n : Node) : Batch := Batch.over' n.disk.now n.next

/-- The changes a group writes, its due places and the next audit number aside. -/
def wrote (n : Node) (m : Moment) (ops : List Op) : List Change :=
  (decideEach digest m n.batch ops).2.changes

/-- A group committed, once the last batch was handed over: answered at once where it left
nothing to write, else once its sync tells it. -/
def group (n : Node) (m : Moment) (ops : List Op) : Node :=
  match n.unhanded, (n.writer.committed digest m ops).durable with
  | some _, _ => n
  | none, .kept =>
      { n with returned := n.returned ++ n.answered digest m ops n.disk.size [] }
  | none, .pending =>
      let written := (n.writer.committed digest m ops).writer
      let position := n.disk.size + 1
      { n with
        disk := n.disk.write written.store
        next := written.next
        unhanded := some ⟨position, n.answered digest m ops position (n.wrote digest m ops)⟩ }

def hand (n : Node) : Node :=
  match n.unhanded with
  | some pending => { n with unhanded := none, inbox := n.inbox ++ [pending] }
  | none => n

/-- The sync thread takes the first batch handed to it, and `more` of those after it. -/
def take (n : Node) (more : ℕ) : Node :=
  match n.taken, n.inbox with
  | [], first :: rest => { n with taken := first :: rest.take more, inbox := rest.drop more }
  | _, _ => n

def begins (n : Node) : Node :=
  match n.taken, n.began with
  | _ :: _, none => { n with began := some n.disk.size }
  | _, _ => n

/-- A sync come to its end: each batch it was for is told what it came to. -/
def ends (n : Node) (synced : Bool) : Node :=
  match n.began with
  | none => n
  | some began =>
      if synced then
        { n with
          disk := n.disk.sync began
          taken := []
          began := none
          returned := n.returned ++ n.taken.flatMap Pending.answers }
      else { n with taken := [], began := none }

/-- Written straight to the engine, needing no condition. -/
def deferred (n : Node) (changes : List Change) : Node :=
  { n with disk := n.disk.write (n.disk.now.applyIndexed changes []) }

/-- What the engine kept, opened again: nothing waits for a sync, and the audit sequence goes on
from what is kept of it. What returned before rests on what was kept then. -/
def crash (n : Node) : Node where
  disk := n.disk.crash
  next := match Writer.start n.disk.crash.now with
    | .ok started => started.next
    | .error _ => n.next
  unhanded := none
  inbox := []
  taken := []
  began := none
  returned := n.returned.map fun a => { a with position := min a.position n.disk.kept }

def after (n : Node) : Event → Node
  | .group m ops => n.group digest m ops
  | .hand => n.hand
  | .take more => n.take more
  | .begins => n.begins
  | .ends synced => n.ends synced
  | .chunk chunk => n.deferred [Writer.chunkChange chunk]
  | .stream last stream now => n.deferred (Writer.streamChanges last stream now)
  | .crash => n.crash

def run (n : Node) (events : List Event) : Node := events.foldl (after digest) n

end Node

end XmipPersist
