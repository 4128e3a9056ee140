import XmipPersist.Model.Record

/-! # A Stream's chunks read back

One reader over the chunks of a Stream, or of what a kept audit record carries of one: a chunk
taken whole or a piece at a time, up to the first there is not, and what was read held to the
length and the digest kept of it.
-/

namespace XmipPersist

/-- Where a reader reads a Stream's chunks from, and the digest an audit record says they have. -/
inductive Chunked
  | ledger (stream : ℕ)
  | audit (audit stream : ℕ) (digest : Bytes)
  | auditBody (audit : ℕ) (digest : Bytes)
  deriving DecidableEq

namespace Chunked

/-- The digest the bytes are held to, where they are. -/
def said : Chunked → Option Bytes
  | ledger _ => none
  | audit _ _ digest => some digest
  | auditBody _ digest => some digest

end Chunked

/-- Whether a failure to read is evidence of the bytes, or none of them. -/
inductive ReadError.Kind
  | invalidData
  | other
  deriving DecidableEq

/-- What a read ends with where it fails: the bytes not of their length, not of their digest, or
not read at all. -/
inductive ReadError
  | short (source : Chunked) (counted chunks length : ℕ)
  | unlike (source : Chunked) (digest said : Bytes)
  | unread (error : PersistError)
  deriving DecidableEq

namespace ReadError

def kind : ReadError → Kind
  | unread (.refused _ _) => .invalidData
  | unread (.record _) => .invalidData
  | unread _ => .other
  | short _ _ _ _ => .invalidData
  | unlike _ _ _ => .invalidData

end ReadError

/-- A Stream's chunks read in order, one held at a time: the chunk asked for next, the one held and
how far it is taken, how many bytes the chunks so far hold, and the bytes taken in by the digest. -/
structure ChunkReader where
  source : Chunked
  length : ℕ
  next : ℕ := 0
  held : Bytes := []
  taken : ℕ := 0
  counted : ℕ := 0
  ended : Bool := false
  digest : Option Bytes := source.said.map fun _ => []
  deriving DecidableEq

namespace ChunkReader

/-- A Ledger's Stream read on from a chunk, the bytes before it already taken. -/
def sharedFrom (stream length chunk before : ℕ) : ChunkReader :=
  { source := .ledger stream, length, next := chunk, counted := before }

variable (sha : Bytes → Bytes)

/-- The first missing chunk come to: what was read before it is the whole Stream, or refused. -/
def ending (r : ChunkReader) : Except ReadError Unit × ChunkReader :=
  if r.counted ≠ r.length then (.error (.short r.source r.counted r.next r.length), r)
  else
    match r.source.said with
    | none => (.ok (), { r with ended := true })
    | some said =>
        -- the digest is taken here, whatever it comes to
        let digest := sha (r.digest.getD [])
        let r := { r with digest := none }
        if digest ≠ said then (.error (.unlike r.source digest said), r)
        else (.ok (), { r with ended := true })

/-- The next chunk whole, or the rest of the one held; none at the end. -/
def nextChunk (ask : ℕ → Except PersistError (Option Bytes)) (r : ChunkReader) :
    Except ReadError (Option Bytes) × ChunkReader :=
  if r.taken < r.held.length then
    (.ok (some (r.held.drop r.taken)), { r with held := [], taken := 0 })
  else if r.ended then (.ok none, r)
  else
    match ask r.next with
    | .error error => (.error (.unread error), r)
    | .ok none =>
        match r.ending sha with
        | (.error error, r) => (.error error, r)
        | (.ok (), r) => (.ok none, r)
    | .ok (some chunk) =>
        (.ok (some chunk),
          { r with
            counted := (r.counted + chunk.length) % 2 ^ 64
            digest := r.digest.map (· ++ chunk)
            next := (r.next + 1) % 2 ^ 32
            held := []
            taken := 0 })

/-- A piece of at most `size` bytes, empty at the end; none where so many turns come to nothing. -/
def read (ask : ℕ → Except PersistError (Option Bytes)) (size : ℕ) :
    ℕ → ChunkReader → Option (Except ReadError Bytes × ChunkReader)
  | 0, _ => none
  | turns + 1, r =>
      if r.taken = r.held.length then
        match r.nextChunk sha ask with
        | (.error error, r) => some (.error error, r)
        | (.ok none, r) => some (.ok [], r)
        | (.ok (some chunk), r) => read ask size turns { r with held := chunk, taken := 0 }
      else
        let taken := min size (r.held.length - r.taken)
        some (.ok ((r.held.drop r.taken).take taken), { r with taken := r.taken + taken })

/-! ## Calls one after the other -/

/-- One call of a reader, and which chunks cannot be read while it is made. -/
inductive Call
  | read (size : ℕ) (room : 0 < size) (failing : ℕ → Option PersistError)
  | nextChunk (failing : ℕ → Option PersistError)

/-- What a call came to. -/
inductive Answer
  | handed (bytes : Bytes)
  | ended
  | failed (error : ReadError)
  | spinning
  deriving DecidableEq

/-- What storage says of a chunk while a call is made. -/
def asked (chunks : ℕ → Option Bytes) (failing : ℕ → Option PersistError) (chunk : ℕ) :
    Except PersistError (Option Bytes) :=
  match failing chunk with
  | some error => .error error
  | none => .ok (chunks chunk)

variable (chunks : ℕ → Option Bytes) (turns : ℕ)

/-- A call made, in at most so many turns. -/
def call (r : ChunkReader) : Call → Answer × ChunkReader
  | .read size _ failing =>
      match r.read sha (asked chunks failing) size turns with
      | none => (.spinning, r)
      | some (.error error, r) => (.failed error, r)
      | some (.ok [], r) => (.ended, r)
      | some (.ok bytes, r) => (.handed bytes, r)
  | .nextChunk failing =>
      match r.nextChunk sha (asked chunks failing) with
      | (.error error, r) => (.failed error, r)
      | (.ok none, r) => (.ended, r)
      | (.ok (some bytes), r) => (.handed bytes, r)

/-- What each call of a run came to, and the reader after them. -/
def calls (r : ChunkReader) : List Call → List Answer × ChunkReader
  | [] => ([], r)
  | call :: rest =>
      let (answer, r) := r.call sha chunks turns call
      let (answers, r) := r.calls rest
      (answer :: answers, r)

end ChunkReader

end XmipPersist
