import XmipPersist.Model.Following
import XmipPersist.Model.Keeper

/-! # The embedded Storage node as a primary

Each write an engine takes is numbered and kept for the standbys as it is made, in the order its
own database takes them: those of the operations in the runtime database's order, those of the
keeper in the audit database's. A standby is handed the one and then the other.
-/

namespace XmipPersist

open Standby

/-! ## What the engines are written -/

/-- The changes of one write to an engine, and the index entries with them. -/
abbrev Laid := List Change × List IndexEntry

/-- What a write to the audit database's engine is laid out as. -/
def EngineWrite.laid (audit : Store) (now : ℤ) : EngineWrite → Except PersistError Laid
  | deferred change => .ok ([change], [])
  | indexed changes => writtenOver audit.get (nanos now) [] changes

/-- What a group of writes lays out, where it writes. -/
def Writer.wrote (digest : Publication → Bytes) (w : Writer) (m : Moment) (ops : List Op) :
    Option Laid :=
  let decided := (decideEach digest m (Batch.over' w.store w.next) ops).2
  if w.idle decided then none
  else match m.refused with
    | some _ => none
    | none => (w.laying m decided).toOption

/-- What a step of the node lays out, and in which of its databases. -/
def Embedded.wrote (digest : Publication → Bytes) (node : Embedded) :
    Embedded.Act → Option (Database × Laid)
  | .step (.group m ops) => (node.writer.wrote digest m ops).map (0, ·)
  | .step (.chunk chunk) => some (0, [Writer.chunkChange chunk], [])
  | .step (.stream last stream now) => some (0, Writer.streamChanges last stream now, [])
  | .panicked m ops .written _ => (node.writer.wrote digest m ops).map (0, ·)
  | .write now =>
      match node.keeping with
      | some ⟨_, _, _, some (next :: _)⟩ => (next.laid node.audit now).toOption.map (2, ·)
      | _ => none
  | _ => none

/-- The keys the engines keep records and index entries under, no two the same. -/
structure EngineKeys (κ : Type) where
  record : Place → κ
  entry : IndexKey → κ
  record_injective : Function.Injective record
  apart : ∀ p k, record p ≠ entry k

namespace EngineKeys

variable {κ : Type} (keys : EngineKeys κ)

/-- What an engine keeps under a key: a record's bytes, or the record an index entry finds. -/
abbrev Value := Content ⊕ ℕ

/-- A write as its engine takes it. -/
def write (laid : Laid) : List (Standby.Change κ Value) :=
  laid.1.map (fun c => (keys.record c.place, c.value.map .inl)) ++
    laid.2.map fun e => (keys.entry e.1, e.2.map .inr)

/-- The key of the first audit record not forgotten. -/
def kept : κ := keys.record (.sequence, .kept)

/-- Its number, as an engine's entries have it. -/
def forgotten [LinearOrder κ] (entries : OrderedMap κ Value) : Except PersistError ℕ :=
  numbered ((entries.get keys.kept).bind Sum.getLeft?)

end EngineKeys

/-! ## The node and a standby of it -/

variable {κ : Type} [LinearOrder κ]

/-- The node with a standby and, for the record, the number the audit database's next write had
as each write to the runtime database was made. -/
structure CopiedNode (κ : Type) [LinearOrder κ] where
  node : Embedded
  pair : Pair κ EngineKeys.Value
  dated : ℕ → ℕ

/-- What happens: a step of the node's, a write to its administration database, or what happens
between it and its standby. -/
inductive CopiedNode.Act (κ : Type)
  | node (act : Embedded.Act)
  | administered (changes : List (Standby.Change κ EngineKeys.Value))
  | follow
  | ship (idle : Bool)
  | take
  | cut
  | restart (process : ℕ)
  | lost

namespace CopiedNode

variable (codec : Codec) (sha : Bytes → Bytes) (digest : Publication → Bytes)
  (bounds : Bounds κ EngineKeys.Value) (keys : EngineKeys κ)

/-- The node a primary, with a standby. -/
def begun (node : Embedded) (primary standby : StorageNode κ EngineKeys.Value) : CopiedNode κ :=
  ⟨node, .begun primary standby, fun _ => 0⟩

/-- What a step is between the node and its standby. -/
def event (c : CopiedNode κ) : Act κ → Option (PairEvent κ EngineKeys.Value)
  | .node act => (c.node.wrote digest act).map fun w => .write w.1 (keys.write w.2)
  | .administered changes => some (.write 1 changes)
  | .follow => some .follow
  | .ship idle => some (.ship idle)
  | .take => some .take
  | .cut => some .cut
  | .restart process => some (.restart process)
  | .lost => some .lost

/-- A write dated where it is the runtime database's. -/
def datedAfter (c : CopiedNode κ) : PairEvent κ EngineKeys.Value → ℕ → ℕ
  | .write 0 _ => Function.update c.dated (c.pair.primary.copies.next 0)
      (c.pair.primary.copies.next 2)
  | _ => c.dated

/-- The node after a step, which it takes while it is not lost. -/
def acted (c : CopiedNode κ) : Act κ → Embedded
  | .node act => if c.pair.lost then c.node else c.node.after codec sha digest act
  | _ => c.node

def after (c : CopiedNode κ) (act : Act κ) : CopiedNode κ :=
  match c.event digest keys act with
  | none => { c with node := c.acted codec sha digest act }
  | some event => ⟨c.acted codec sha digest act, c.pair.after bounds event, c.datedAfter event⟩

def run (c : CopiedNode κ) (acts : List (Act κ)) : CopiedNode κ :=
  acts.foldl (after codec sha digest bounds keys) c

end CopiedNode

end XmipPersist
