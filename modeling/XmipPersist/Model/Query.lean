import XmipPersist.Model.Schema
import XmipPersist.Model.Secrets

/-! # The embedded node's databases, and what they are asked to find

One question per searchable table, each over one of its indexes, answered with the identifiers of
the records found. The administration database is written one record at a time, its secrets among
them.
-/

namespace XmipPersist

open Wire (Ask Query Span Secrets)

/-! ## How a question is answered -/

/-- The database, table and index that answer a question, the values the index's first columns
equal, and the span of the next. -/
structure Plan where
  database : Schema.Database
  table : String
  index : String
  equal : List Value
  range : Option (ℕ × ℕ)

namespace Wire.Ask

/-- The index it reads: its database, its table and its name. -/
def index : Ask → Schema.Database × String × String
  | messagesInState .. => (.runtime, "journey", "journey_state")
  | messagesAtSendPort .. => (.runtime, "journey", "journey_send_port")
  | journeysAfter .. => (.runtime, "journey", "journey_previous")
  | journeysHolding .. => (.runtime, "journey", "journey_message")
  | messagesCreated .. => (.runtime, "message", "message_created")
  | messagesFromParty .. => (.runtime, "message", "message_party")
  | messagesOfContract .. => (.runtime, "message", "message_contract")
  | messagesAfter .. => (.runtime, "message", "message_previous")
  | held .. => (.runtime, "held", "held_time")
  | deadMessages .. => (.runtime, "dead_message", "dead_message_time")
  | auditOccurred .. => (.audit, "audit", "audit_occurred")
  | auditOfJourney .. => (.audit, "audit", "audit_journey")
  | auditOfMessage .. => (.audit, "audit", "audit_message")
  | auditOfArtifact .. => (.audit, "audit", "audit_artifact")
  | auditFailed .. => (.audit, "audit", "audit_failed")
  | auditOfStream .. => (.audit, "audit_stream", "audit_stream_stream")
  | auditChain .. => (.audit, "audit", "audit_chain")
  | administrationUpdated .. => (.administration, "administration", "administration_updated")

/-- The values its index's first columns equal, and the span of the next where it asks one. -/
def values : Ask → List Value × Option Span
  | messagesInState state updated => ([.text state], some updated)
  | messagesAtSendPort sendPort state => ([.text sendPort, .text state], none)
  | journeysAfter id | journeysHolding id | messagesAfter id | auditOfJourney id
  | auditOfMessage id | auditOfStream id => ([.id id], none)
  | messagesCreated span | auditOccurred span => ([], some span)
  | messagesFromParty text span | messagesOfContract text span | auditOfArtifact text span =>
      ([.text text], some span)
  | held queue span | deadMessages queue span => ([.id queue], some span)
  | auditFailed occurred => ([.flag true], some occurred)
  -- a span of numbers: the index's next column is the number
  | auditChain writer start => ([.text writer], some ⟨start, u64Max⟩)
  | administrationUpdated kind updated => ([.text kind.word], some updated)

def plan (ask : Ask) : Plan :=
  let (database, table, index) := ask.index
  let (equal, span) := ask.values
  { database, table, index, equal
    range := span.map fun span => (span.fromUnixNanos, span.toUnixNanos) }

end Wire.Ask

/-! ## Tables by their names -/

namespace Searched

def database : Searched → Schema.Database
  | journey | message | held | dead | failed => .runtime
  | audit | auditStream => .audit
  | administration | secret => .administration

def table : Searched → String
  | journey => "journey"
  | message => "message"
  | held => "held"
  | dead => "dead_message"
  | failed => "failed_message"
  | audit => "audit"
  | auditStream => "audit_stream"
  | administration => "administration"
  | secret => "secret"

def tables : List Searched :=
  [journey, message, held, dead, failed, audit, auditStream, administration, secret]

end Searched

/-- The index of a table of a database, by their names. -/
def Index.named (database : Schema.Database) (at' : String × String) : Except PersistError Index :=
  let missing := PersistError.record ("no index " ++ at'.1 ++ "." ++ at'.2)
  match Searched.tables.find? fun table => table.database = database ∧ table.table = at'.1 with
  | none => .error missing
  | some table =>
      match table.indexes.find? fun candidate => candidate.name = at'.2 with
      | none => .error missing
      | some index => .ok index

/-! ## The administration database -/

/-- The record of a kind and identifier written, or removed where there are no bytes, with its
index entries, in one write; the engine may refuse it. -/
def Store.administered (s : Store) (kind : AdministrationKind) (id : ℕ) (bytes : Option Content)
    (now : ℤ) (refused : Option PersistError) : Except PersistError Store := do
  let written ← (EngineWrite.indexed [⟨.administration kind, .id id, bytes⟩]).apply s now
  match refused with
  | some e => throw e
  | none => pure written

/-- The record of a kind and identifier, or none. -/
def Store.administrationRecord (s : Store) (kind : AdministrationKind) (id : ℕ) :
    Except PersistError (Option AdministrationRecord) :=
  s.get (.administration kind, .id id) >>= decoded

/-- A write asked of the administration database, with Xmip Storage's clock as it read and the
engine's refusal of it, where it refuses. -/
inductive AdministrationWrite (x : Secrets) (k : Sealing)
  | write (record : AdministrationRecord) (now : ℤ) (refused : Option PersistError)
  | remove (kind : AdministrationKind) (id : ℕ) (now : ℤ) (refused : Option PersistError)
  | secret (asked : SecretWrite x k)

variable {x : Secrets} {k : Sealing}

def AdministrationWrite.made (s : Store) : AdministrationWrite x k → Except PersistError Store
  | .write record now refused =>
      s.administered record.kind record.id (some (Form.bytes record)) now refused
  | .remove kind id now refused => s.administered kind id none now refused
  | .secret asked => asked.set s

/-- The row a secret is asked to be kept in, over the store it is asked of. -/
def SecretWrite.changes (w : SecretWrite x k) (s : Store) : List Change :=
  match k.derived sealing >>= fun key => sealedSecret k key w.drawn w.record with
  | .error _ => []
  | .ok row =>
      let id := (Secret.secretId w.name s).getD row.id
      [⟨.secret, .id id, some (Form.bytes { row with id }.kept)⟩]

/-- What a write asks to be changed. -/
def AdministrationWrite.changes (s : Store) : AdministrationWrite x k → List Change
  | .write record _ _ =>
      [⟨.administration record.kind, .id record.id, some (Form.bytes record)⟩]
  | .remove kind id _ _ => [⟨.administration kind, .id id, none⟩]
  | .secret asked => asked.changes s

def AdministrationWrite.now : AdministrationWrite x k → ℤ
  | .write _ now _ | .remove _ _ now _ => now
  | .secret asked => asked.now

/-! ## The node and its databases -/

/-- The embedded node, its writer and keeper over two databases, with the third. -/
structure Databases where
  embedded : Embedded
  administration : Store

namespace Databases

def fresh : Databases := ⟨.fresh, .empty⟩

def store (node : Databases) : Schema.Database → Store
  | .runtime => node.embedded.writer.store
  | .administration => node.administration
  | .audit => node.embedded.audit

/-- The records a query finds. -/
def searched (node : Databases) (query : Query) : Except PersistError (List ℕ) := do
  let plan := query.ask.plan
  let index ← Index.named plan.database (plan.table, plan.index)
  pure (index.find (node.store plan.database) plan.equal plan.range query.most query.newestFirst)

/-- A step of the node, or a write asked of its administration database. -/
inductive Act (x : Secrets) (k : Sealing)
  | embedded (act : Embedded.Act)
  | administered (write : AdministrationWrite x k)

variable (codec : Codec) (sha : Bytes → Bytes) (digest : Publication → Bytes)

/-- The node after an act; a write that fails leaves its database as it was. -/
def after (node : Databases) : Act x k → Databases
  | .embedded act => { node with embedded := node.embedded.after codec sha digest act }
  | .administered write =>
      match write.made node.administration with
      | .ok administration => { node with administration }
      | .error _ => node

def run (node : Databases) (acts : List (Act x k)) : Databases :=
  acts.foldl (after codec sha digest) node

end Databases

end XmipPersist
