import XmipPersist.Library.BigEndian
import XmipPersist.Model.Batch

/-! # A writer's audit records as a chain

Each kept record is given the next number in its writer's chain, the digest of the record before
it there and its own, over its canonical form.
-/

namespace XmipPersist

/-! ## Byte forms -/

/-- How the codec writes a text, and bytes of any length, so that they are read back. -/
structure Codec where
  text : String → Bytes
  counted : Bytes → Bytes

/-- A SHA-256 digest's length. -/
def digestLength : ℕ := 32

/-- The digest before a chain's first record. -/
def zeroDigest : Bytes := List.replicate digestLength 0

/-- A number big-endian in so many bytes. -/
def be (width n : ℕ) : Bytes := (bigEndian width n).map UInt8.ofNat

def flagByte (flag : Bool) : Bytes := [if flag then 1 else 0]

/-- Whether there is one, and then it. -/
def maybe {α : Type} (form : α → Bytes) : Option α → Bytes
  | none => flagByte false
  | some a => flagByte true ++ form a

/-- A list's length in 32 bits. -/
def lengthForm {α : Type} (xs : List α) : Bytes := be 4 (min xs.length u32Max)

section Forms

variable (codec : Codec)

def StreamRecord.form (record : StreamRecord) : Bytes :=
  be 16 record.stream ++ be 8 record.length ++ be 4 record.chunks ++ record.digest ++
    be 8 record.writtenUnixNanos

def Audited.form (audited : Audited) : Bytes :=
  codec.counted audited.message ++ lengthForm audited.streams ++ audited.streams.flatMap (be 16)

def AuditFacts.form (facts : AuditFacts) : Bytes :=
  be 8 facts.occurredUnixNanos ++ codec.text facts.action ++ codec.text facts.phase ++
    codec.text facts.severity ++ flagByte facts.failed ++ maybe codec.text facts.text ++
    codec.text facts.program ++ codec.text facts.host ++ be 4 facts.process ++
    maybe codec.text facts.location ++ flagByte facts.hidden ++ maybe (be 16) facts.execution ++
    maybe (be 16) facts.journey ++ maybe (be 16) facts.message ++
    maybe codec.text facts.artifactKind ++ maybe codec.text facts.artifactName ++
    maybe codec.text facts.artifactVersion ++ maybe codec.text facts.node ++
    maybe codec.text facts.cluster ++ codec.text facts.writer ++ be 8 facts.position ++
    facts.previous ++ facts.digest ++ be 8 facts.bodyLength ++ be 4 facts.bodyChunks ++
    facts.bodyDigest ++ be 8 facts.keptUnixNanos

def KeptAudit.form (kept : KeptAudit) : Bytes :=
  be 16 kept.id ++ lengthForm kept.streams ++ kept.streams.flatMap (be 16) ++
    kept.facts.form codec

/-- A record's body as the keeper keeps it in chunks. -/
def AuditEntry.bodyBytes (entry : AuditEntry) : Bytes :=
  codec.counted entry.body ++ maybe (Audited.form codec) entry.audited

/-! ## A link of a chain -/

/-- Without its own digest and the keeper's time. -/
def KeptAudit.unsealed (kept : KeptAudit) : KeptAudit :=
  { kept with facts := { kept.facts with digest := zeroDigest, keptUnixNanos := 0 } }

/-- What a kept record's digest is taken over: its row, and the record of each Stream it
carries. -/
def canonicalForm (kept : KeptAudit) (streams : List StreamRecord) : Bytes :=
  kept.unsealed.form codec ++ lengthForm streams ++ streams.flatMap StreamRecord.form

/-! The digest taken is one function, whatever it is. -/

variable (sha : Bytes → Bytes)

def chainDigest (kept : KeptAudit) (streams : List StreamRecord) : Bytes :=
  sha (canonicalForm codec kept streams)

/-- A record given its place after a chain's head, or at its start. -/
def KeptAudit.after (kept : KeptAudit) (head : Option ChainHead) : KeptAudit :=
  { kept with facts := { kept.facts with
      position := (head.map ChainHead.position).getD 0 + 1
      previous := (head.map ChainHead.digest).getD zeroDigest } }

/-- A record given its place after a chain's head and its digest there. -/
def KeptAudit.linked (kept : KeptAudit) (head : Option ChainHead) (streams : List StreamRecord) :
    KeptAudit :=
  let placed := kept.after head
  { placed with facts := { placed.facts with digest := chainDigest codec sha placed streams } }

/-- The head of a chain whose last record it is. -/
def KeptAudit.head (kept : KeptAudit) : ChainHead := ⟨kept.facts.position, kept.facts.digest⟩

/-- A record linked to its writer's chain in the audit database, and its head moved there. -/
def link (audit : Store) (kept : KeptAudit) (streams : List StreamRecord) :
    Except PersistError (Change × KeptAudit) := do
  let head : Option ChainHead ← audit.get (.chain, .name kept.facts.writer) >>= decoded
  let linked := kept.linked codec sha head streams
  pure (⟨.chain, .name kept.facts.writer, some (Form.bytes linked.head)⟩, linked)

end Forms

/-- The Streams a record carries, in its order, each once. -/
def AuditEntry.carriedStreams (entry : AuditEntry) : List ℕ :=
  ((entry.audited.map Audited.streams).getD []).foldl
    (fun carried stream => if stream ∈ carried then carried else carried ++ [stream]) []

end XmipPersist
