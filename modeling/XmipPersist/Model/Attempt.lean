import XmipPersist.Model.ChunkReader
import XmipPersist.Model.Keeper

/-! # One record kept in several attempts, and what is kept of it read back

The keeper makes its writes of a record one by one; cut short after any of them, it begins with the
record again, whatever size it keeps bodies in chunks of by then.
-/

namespace XmipPersist

/-! ## Attempts -/

/-- An attempt of the keeper to keep a record: the size it keeps the body in chunks of, and when it
makes each of its writes, up to where it is cut short. -/
structure Attempt where
  chunk : ℕ
  times : List ℤ

/-- The audit database once these writes are made, one at each time, up to one that fails; and
whether they all are. -/
def Store.making (audit : Store) : List EngineWrite → List ℤ → Store × Bool
  | [], _ => (audit, true)
  | _ :: _, [] => (audit, false)
  | w :: ws, now :: times =>
      match w.apply audit now with
      | .ok audit => audit.making ws times
      | .error _ => (audit, false)

namespace Keeper

variable (codec : Codec) (sha : Bytes → Bytes) (runtime : Store) (number : ℕ)

/-- The audit database after an attempt at a record, and whether it came through. -/
def attempted (audit : Store) (attempt : Attempt) : Store × Bool :=
  match writes codec sha attempt.chunk runtime audit number with
  | .ok writes => audit.making writes attempt.times
  | .error _ => (audit, false)

/-- The audit database after attempts one after the other. -/
def attemptedAll (audit : Store) (attempts : List Attempt) : Store :=
  attempts.foldl (fun audit attempt => (attempted codec sha runtime number audit attempt).1) audit

end Keeper

/-! ## What is kept of a record, read -/

namespace Store

/-- A kept record's row. -/
def readKeptAudit (audit : Store) (id : ℕ) : Except PersistError (Option KeptAudit) :=
  audit.get (.keptAudit, .id id) >>= decoded

/-- The record of a Stream that a kept record carries. -/
def readKeptAuditStream (audit : Store) (id stream : ℕ) :
    Except PersistError (Option StreamRecord) := do
  let row : Option KeptStream ← audit.get (.keptAuditStreams, .pair id stream) >>= decoded
  pure (row.map KeptStream.stream)

/-- A chunk of a Stream that a kept record carries, or of its body, as the bytes kept. -/
def readKeptAuditChunk (audit : Store) (id : ℕ) :
    Option ℕ → ℕ → Except PersistError (Option Bytes)
  | none, index => do
      match ← audit.get (.keptAuditBody, .pair id index) with
      | none => pure none
      | some (.body bytes) => pure (some bytes)
      | some content => throw content.malformed
  | some stream, index => do
      let chunk : Option StreamChunk ←
        audit.get (.keptAuditStream, .triple id stream index) >>= decoded
      pure (chunk.map StreamChunk.bytes)

end Store

namespace ChunkReader

/-- A reader of a Stream that a kept record carries. -/
def audited (audit : Store) (id stream : ℕ) : Except PersistError (Option ChunkReader) := do
  let kept ← audit.readKeptAuditStream id stream
  pure (kept.map fun kept => { source := .audit id stream kept.digest, length := kept.length })

/-- A reader of a kept record's body. -/
def auditBody (audit : Store) (id : ℕ) : Except PersistError (Option ChunkReader) := do
  let kept ← audit.readKeptAudit id
  pure (kept.map fun kept =>
    { source := .auditBody id kept.facts.bodyDigest, length := kept.facts.bodyLength })

end ChunkReader

end XmipPersist
