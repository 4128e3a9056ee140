import XmipPersist.Model.Keeper
import XmipPersist.Model.Syncer

/-! # The embedded Storage node on disk

The runtime database is written unsynced, a batch readable as soon as it is written and durable
once a sync begun after it has come to its end. The keeper reads it as it is. What it keeps beside
a record it writes unsynced too; the record's own write is durable as it returns, with all written
before it.
-/

namespace XmipPersist

/-- The node: its runtime database's writer and sync thread, its audit database, and its keeper,
where one moves records. -/
structure OnDisk where
  node : Node
  audit : Synced Store
  keeping : Option Keeping := none

/-- What happens at the node: at its writer or its sync thread, or a crash; a keeper started, a
step of it, its operation answered, or its end. -/
inductive OnDisk.Act
  | event (event : Event)
  | keep (most chunk : ℕ)
  | look
  | write (now : ℤ)
  | told
  | cut

/-- The audit database once a write of the keeper's is made. -/
def EngineWrite.onto (audit : Synced Store) (s : Store) : EngineWrite → Synced Store
  | deferred _ => audit.write s
  | indexed _ => (audit.write s).sync (audit.size + 1)

namespace OnDisk

variable (codec : Codec) (sha : Bytes → Bytes) (digest : Publication → Bytes)

/-- A node over databases of its own, new. -/
def fresh : OnDisk := ⟨.opened .empty 0, .opened .empty, none⟩

/-- The node as its keeper reads it. -/
def embedded (d : OnDisk) : Embedded := ⟨d.node.writer, d.audit.now, d.keeping⟩

/-- The next of the keeper's writes to the audit database. -/
def write (d : OnDisk) (now : ℤ) : OnDisk :=
  match d.keeping with
  | some ⟨number, upto, chunk, some (next :: rest)⟩ =>
      match next.apply d.audit.now now with
      | .ok s =>
          { d with
            audit := next.onto d.audit s
            keeping := some ⟨number, upto, chunk, some rest⟩ }
      | .error _ => { d with keeping := none }
  | _ => d

/-- The keeper once its record is answered forgotten, durably. -/
def told (d : OnDisk) : OnDisk :=
  match d.keeping with
  | some keeping =>
      match d.node.returned.find? fun a => a.op = .kept keeping.number with
      | some a => { d with keeping := Embedded.told keeping (some (.ok a.done)) }
      | none => d
  | none => d

/-- A crash takes back what either database had not synced, and the keeper is gone. -/
def crash (d : OnDisk) : OnDisk := ⟨d.node.crash, d.audit.crash, none⟩

def after (d : OnDisk) : Act → OnDisk
  | .event .crash => d.crash
  | .event other => { d with node := d.node.after digest other }
  | .keep most chunk => { d with keeping := (d.embedded.keep most chunk).keeping }
  | .look => { d with keeping := (d.embedded.look codec sha).keeping }
  | .write now => d.write now
  | .told => d.told
  | .cut => { d with keeping := none }

def run (d : OnDisk) (acts : List Act) : OnDisk := acts.foldl (after codec sha digest) d

end OnDisk

end XmipPersist
