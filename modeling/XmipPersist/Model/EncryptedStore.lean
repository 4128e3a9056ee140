import XmipPersist.Library.Octets
import XmipPersist.Library.OrderedMap
import XmipPersist.Model.Record

/-! # The one layer that encrypts what Xmip stores of its own

Records sealed before an engine sees them and authenticated when they come back, whatever engine
holds the bytes; and the openers of one engine, which come to one data key.
-/

namespace XmipPersist

/-- Keys sort by their bytes. -/
instance byteOrder : LinearOrder UInt8 where
  le_refl := UInt8.le_refl
  le_trans _ _ _ := UInt8.le_trans
  le_antisymm _ _ := UInt8.le_antisymm
  le_total := UInt8.le_total
  lt_iff_le_not_ge a b := by
    rw [UInt8.not_le]
    exact ⟨fun h => ⟨UInt8.le_of_lt h, h⟩, fun h => h.2⟩
  toDecidableLE := inferInstance

/-! ## Data keys -/

/-- Why a key failed: the reason it refused what it was to open, where it did, and its words. -/
structure SecretError where
  refused : Option String
  words : String
  deriving DecidableEq

/-- Data keys as their library makes them: drawn, wrapped under a key of the key home, derived for
a purpose. What one seals for a place it opens for that place, and no key opens it, or a wrapped
key, for another. -/
structure DataKeys where
  Key : Type
  KekName : Type
  Drawn : Type
  generate : Drawn → Key
  wrap : KekName → Drawn → Key → Except SecretError Bytes
  unwrap : KekName → Bytes → Except SecretError Key
  derive' : Key → Bytes → Except SecretError Key
  keyedHash : Key → Bytes → Bytes
  sealAfter : Key → Drawn → Bytes → Bytes → Bytes → Except SecretError Bytes
  opened : Key → Bytes → Bytes → Except SecretError Bytes
  length_keyedHash : ∀ key place, (keyedHash key place).length = 32
  unwraps : ∀ {kek drawn key wrapped}, wrap kek drawn key = .ok wrapped →
    unwrap kek wrapped = .ok key
  unwrapped : ∀ {kek drawn key wrapped kek' key'}, wrap kek drawn key = .ok wrapped →
    unwrap kek' wrapped = .ok key' → key' = key
  sealed : ∀ {key drawn head place value kept}, sealAfter key drawn head place value = .ok kept →
    ∃ body, kept = head ++ body ∧ opened key place body = .ok value ∧
      ∀ key' place', (key', place') ≠ (key, place) →
        ∃ reason words, opened key' place' body = .error ⟨some reason, words⟩
  foreign : ∀ {kek drawn key head body}, wrap kek drawn key = .ok (head :: body) →
    ∀ key' place', ∃ reason words, opened key' place' body = .error ⟨some reason, words⟩

/-- A key's failure, as the store's. -/
def keyed {α : Type} : Except SecretError α → Except PersistError α
  | .ok a => .ok a
  | .error e => .error (.key e.words)

namespace EncryptedStore

/-! ## The engine beneath -/

/-- What an engine is to persist: bytes under bytes, in their order. -/
structure Engine where
  name : String
  kept : OrderedMap Bytes Bytes

namespace Engine

variable (engine : Engine) (failure : Option String)

/-- What the engine gives, where it does not fail. -/
def barring {α : Type} (a : α) : Except PersistError α :=
  match failure with
  | some reason => .error (.engine engine.name reason)
  | none => .ok a

/-- The engine with `value` under `key`, or nothing. -/
def with' (key : Bytes) (value : Option Bytes) : Engine :=
  { engine with kept := engine.kept.change key value }

def read (key : Bytes) : Except PersistError (Option Bytes) :=
  engine.barring failure (engine.kept.get key)

def write (key value : Bytes) : Except PersistError Engine :=
  engine.barring failure (engine.with' key (some value))

/-- The value under the key only if nothing is there, as one step, and whether it was written. -/
def writeNew (key value : Bytes) : Except PersistError (Bool × Engine) :=
  engine.barring failure (match engine.kept.get key with
    | some _ => (false, engine)
    | none => (true, engine.with' key (some value)))

def remove (key : Bytes) : Except PersistError Engine :=
  engine.barring failure (engine.with' key none)

/-- Every change of a batch as one write, durable on return or not. -/
def apply (batch : List (Bytes × Option Bytes)) : Except PersistError Engine :=
  engine.barring failure { engine with kept := engine.kept.apply batch }

def scan (first last : Bytes) (most : ℕ) (reverse : Bool) :
    Except PersistError (List (Bytes × Bytes)) :=
  engine.barring failure (engine.kept.range first last most reverse)

/-- One consistent view of the engine. -/
def view : Except PersistError Engine := engine.barring failure engine

end Engine

/-! ## The keys of the engine -/

/-- The bytes of words. -/
def utf8 (words : String) : Bytes := words.toUTF8.data.toList

/-- Where the store's own data key is kept, wrapped. -/
def dataKey : Bytes := utf8 "\x00xmip-core-persist/key\x00"

/-- What every engine key of a store's own begins with. -/
def own : Bytes := utf8 "\x00xmip-core-persist/"

def recordPurpose : Bytes := utf8 "xmip-core-persist/record"

def lookupPurpose : Bytes := utf8 "xmip-core-persist/lookup"

/-- What every index entry's engine key opens with. -/
def index : Bytes := utf8 "\x00index\x00"

/-- The first byte of every sealed record. -/
def layout : UInt8 := 1

/-! ## Places -/

/-- The most a place keeps on the stack. -/
def short : ℕ := 64

/-- A record's place, as bytes. -/
inductive Place
  | short (bytes : Bytes) (length : ℕ)
  | long (bytes : Bytes)

def Place.bytes : Place → Bytes
  | short bytes length => bytes.take length
  | long bytes => bytes

/-- Bytes with others copied into them from `start` on. -/
def copied (bytes : Bytes) (start : ℕ) (others : Bytes) : Bytes :=
  bytes.take start ++ others ++ bytes.drop (start + others.length)

/-- The place of the record `key` of `kind`: its kind, a zero byte, its key. -/
def place (kind : String) (key : Bytes) : Place :=
  let length := (utf8 kind).length + 1 + key.length
  if short < length then .long (utf8 kind ++ [0] ++ key)
  else
    .short (copied (copied (List.replicate short 0) 0 (utf8 kind)) ((utf8 kind).length + 1) key)
      length

end EncryptedStore

/-! ## The store -/

/-- Records sealed under one key and found under the hash of another. -/
structure EncryptedStore (k : DataKeys) where
  record : k.Key
  lookup : k.Key

namespace EncryptedStore

/-- One change of a batch: a record's kind, its key and its new value, nothing removing it. -/
structure RecordChange where
  kind : String
  key : Bytes
  value : Option Bytes

/-- One index entry: its key after the index mark, and the record it finds, nothing removing
it. -/
abbrev IndexEntry := Bytes × Option ℕ

variable {k : DataKeys}

/-- The store over an engine, its keys derived from its data key. -/
def derived (data : k.Key) : Except PersistError (EncryptedStore k) := do
  let record ← keyed (k.derive' data recordPurpose)
  let lookup ← keyed (k.derive' data lookupPurpose)
  pure ⟨record, lookup⟩

variable (store : EncryptedStore k) (drawn : ℕ → k.Drawn) (engine : Engine)
  (failure : Option String)

/-- The engine key of the record `key` of `kind`. -/
def lookupKey (kind : String) (key : Bytes) : Bytes :=
  k.keyedHash store.lookup (place kind key).bytes

def seal' (drawn : k.Drawn) (place value : Bytes) : Except PersistError Bytes :=
  keyed (k.sealAfter store.record drawn [layout] place value)

/-- What is stored, opened for a place; `what` names it in the scope of a refusal. -/
def opened (place stored : Bytes) (what : String) : Except PersistError Bytes :=
  let refused reason := PersistError.refused (engine.name ++ " " ++ what) reason
  match stored with
  | [] => .error (refused "not a record this store wrote")
  | first :: sealed =>
      if first ≠ layout then .error (refused "not a record this store wrote")
      else
        match k.opened store.record place sealed with
        | .ok value => .ok value
        | .error ⟨some reason, _⟩ => .error (refused reason)
        | .error other => .error (.key other.words)

/-! ## Writing -/

def put (kind : String) (key value : Bytes) : Except PersistError Engine := do
  let sealed ← store.seal' (drawn 0) (place kind key).bytes value
  engine.write failure (store.lookupKey kind key) sealed

def putNew (kind : String) (key value : Bytes) : Except PersistError (Bool × Engine) := do
  let sealed ← store.seal' (drawn 0) (place kind key).bytes value
  engine.writeNew failure (store.lookupKey kind key) sealed

def remove (kind : String) (key : Bytes) : Except PersistError Engine :=
  engine.remove failure (store.lookupKey kind key)

/-- A value sealed for a place, or none. -/
def sealedFor (drawn : k.Drawn) (place : Bytes) : Option Bytes → Except PersistError (Option Bytes)
  | none => .ok none
  | some value => (store.seal' drawn place value).map some

/-- Changes as the engine keeps them: each place a keyed hash, each value sealed. -/
def sealed : ℕ → List RecordChange → Except PersistError (List (Bytes × Option Bytes))
  | _, [] => .ok []
  | n, change :: changes => do
      let value ← store.sealedFor (drawn n) (place change.kind change.key).bytes change.value
      let rest ← sealed (n + 1) changes
      pure ((store.lookupKey change.kind change.key, value) :: rest)

/-- Index entries as the engine keeps them, each sealed with its whole key. -/
def sealedEntries : ℕ → List IndexEntry → Except PersistError (List (Bytes × Option Bytes))
  | _, [] => .ok []
  | n, entry :: entries => do
      let key := index ++ entry.1
      let value ← store.sealedFor (drawn n) key (entry.2.map (Octets.number 16))
      let rest ← sealedEntries (n + 1) entries
      pure ((key, value) :: rest)

/-- Changes and index entries, one batch for the engine. -/
def indexed (changes : List RecordChange) (entries : List IndexEntry) :
    Except PersistError (List (Bytes × Option Bytes)) := do
  let batch ← store.sealed drawn 0 changes
  let indexed ← store.sealedEntries drawn changes.length entries
  pure (batch ++ indexed)

def apply (changes : List RecordChange) : Except PersistError Engine := do
  let sealed ← store.sealed drawn 0 changes
  engine.apply failure sealed

def applyIndexed (changes : List RecordChange) (entries : List IndexEntry) :
    Except PersistError Engine := do
  let indexed ← store.indexed drawn changes entries
  engine.apply failure indexed

/-! ## Reading, through an engine as it stands or a view of it -/

def getIn (kind : String) (key : Bytes) : Except PersistError (Option Bytes) := do
  match ← engine.read failure (store.lookupKey kind key) with
  | none => pure none
  | some stored => do
      let value ← store.opened engine (place kind key).bytes stored
        ("record of kind '" ++ kind ++ "'")
      pure (some value)

/-- One entry that a range finds: its key after the index mark, and the record it finds. -/
def entryIn (entry : Bytes × Bytes) : Except PersistError (Bytes × ℕ) := do
  let record ← store.opened engine entry.1 entry.2 "index entry"
  if record.length = 16 then
    pure (entry.1.drop index.length, ofBigEndian (record.map UInt8.toNat))
  else throw (.refused (engine.name ++ " index entry") "not a record's identifier")

def scanIndexIn (first last : Bytes) (most : ℕ) (reverse : Bool) :
    Except PersistError (List (Bytes × ℕ)) := do
  let entries ← engine.scan failure (index ++ first) (index ++ last) most reverse
  entries.mapM (store.entryIn engine)

/-! ## Openers of one engine -/

/-- How far an opener has come: it reads the data key kept, creates one where there is none, reads
again the one of another that got there first, and holds the store or has failed. -/
inductive Opening (k : DataKeys)
  | begun (kek : k.KekName)
  | creates (kek : k.KekName)
  | again (kek : k.KekName)
  | holds (store : EncryptedStore k)
  | failed (error : PersistError)

namespace Opening

/-- The opener with a data key, or what failed. -/
def keyedBy (data : Except PersistError k.Key) : Opening k :=
  match data >>= derived with
  | .ok store => holds store
  | .error e => failed e

/-- The next of an opener's steps, each of them one step of the engine. -/
def step (drawn : ℕ → k.Drawn) (failure : Option String) (engine : Engine) :
    Opening k → Opening k × Engine
  | begun kek =>
      match engine.read failure dataKey with
      | .error e => (failed e, engine)
      | .ok (some wrapped) => (keyedBy (keyed (k.unwrap kek wrapped)), engine)
      | .ok none => (creates kek, engine)
  | creates kek =>
      let fresh := k.generate (drawn 0)
      match k.wrap kek (drawn 1) fresh with
      | .error e => (failed (.key e.words), engine)
      | .ok wrapped =>
          match engine.writeNew failure dataKey wrapped with
          | .error e => (failed e, engine)
          | .ok (true, engine) => (keyedBy (.ok fresh), engine)
          | .ok (false, engine) => (again kek, engine)
  | again kek =>
      match engine.read failure dataKey with
      | .error e => (failed e, engine)
      | .ok (some kept) => (keyedBy (keyed (k.unwrap kek kept)), engine)
      | .ok none => (failed (.engine engine.name "the data key vanished"), engine)
  | holds store => (holds store, engine)
  | failed e => (failed e, engine)

end Opening

/-! ## An engine that several share -/

/-- An operation of a store, a view of it among them, and what is read through one taken before. -/
inductive Operation
  | put (kind : String) (key value : Bytes)
  | putNew (kind : String) (key value : Bytes)
  | remove (kind : String) (key : Bytes)
  | apply (changes : List RecordChange)
  | applyIndexed (changes : List RecordChange) (entries : List IndexEntry)
  | get (kind : String) (key : Bytes)
  | scanIndexKeyed (first last : Bytes) (most : ℕ) (reverse : Bool)
  | view
  | getIn (view : ℕ) (kind : String) (key : Bytes)
  | scanIndexIn (view : ℕ) (first last : Bytes) (most : ℕ) (reverse : Bool)

inductive Answer
  | done
  | new (written : Bool)
  | got (value : Option Bytes)
  | found (entries : List (Bytes × ℕ))
  deriving DecidableEq

/-- An engine, its openers, and the views taken of it. -/
structure Shared (k : DataKeys) where
  engine : Engine
  openings : ℕ → Option (Opening k)
  views : List Engine

/-- What happens to an engine that several share: an opener begins, or takes its next step; one
that holds the store asks an operation of it; a Storage node keeps something of its own there; or
something reaches past the store to the engine's bytes. -/
inductive Event (k : DataKeys)
  | opens (opener : ℕ) (kek : k.KekName)
  | steps (opener : ℕ) (drawn : ℕ → k.Drawn) (failure : Option String)
  | asks (opener : ℕ) (operation : Operation) (drawn : ℕ → k.Drawn) (failure : Option String)
  | keeps (key : Bytes) (value : Option Bytes)
  | tampers (key : Bytes) (value : Option Bytes)

namespace Shared

/-- An engine with nothing in it, that no one opened. -/
def fresh (name : String) : Shared k :=
  ⟨⟨name, .empty⟩, fun _ => none, []⟩

/-- The view read through, of those taken. -/
def viewed (s : Shared k) (view : ℕ) : Engine := s.views.getD view s.engine

/-- The operation asked through a store: its answer, and the engine and the views after it. -/
def perform (s : Shared k) (store : EncryptedStore k) (drawn : ℕ → k.Drawn)
    (failure : Option String) : Operation → Except PersistError (Answer × Shared k)
  | .put kind key value => do
      let engine ← store.put drawn s.engine failure kind key value
      pure (.done, { s with engine })
  | .putNew kind key value => do
      let (written, engine) ← store.putNew drawn s.engine failure kind key value
      pure (.new written, { s with engine })
  | .remove kind key => do
      let engine ← store.remove s.engine failure kind key
      pure (.done, { s with engine })
  | .apply changes => do
      let engine ← store.apply drawn s.engine failure changes
      pure (.done, { s with engine })
  | .applyIndexed changes entries => do
      let engine ← store.applyIndexed drawn s.engine failure changes entries
      pure (.done, { s with engine })
  | .get kind key => do
      let value ← store.getIn s.engine failure kind key
      pure (.got value, s)
  | .scanIndexKeyed first last most reverse => do
      let entries ← store.scanIndexIn s.engine failure first last most reverse
      pure (.found entries, s)
  | .view => do
      let view ← s.engine.view failure
      pure (.done, { s with views := s.views ++ [view] })
  | .getIn view kind key => do
      let value ← store.getIn (s.viewed view) failure kind key
      pure (.got value, s)
  | .scanIndexIn view first last most reverse => do
      let entries ← store.scanIndexIn (s.viewed view) failure first last most reverse
      pure (.found entries, s)

/-- The state after an event; what an operation fails at leaves it as it was. -/
def after (s : Shared k) : Event k → Shared k
  | .opens opener kek =>
      { s with openings := Function.update s.openings opener (some (.begun kek)) }
  | .steps opener drawn failure =>
      match s.openings opener with
      | some opening =>
          let (next, engine) := opening.step drawn failure s.engine
          { s with engine, openings := Function.update s.openings opener (some next) }
      | none => s
  | .asks opener operation drawn failure =>
      match s.openings opener with
      | some (.holds store) =>
          match s.perform store drawn failure operation with
          | .ok (_, s') => s'
          | .error _ => s
      | _ => s
  | .keeps key value => { s with engine := s.engine.with' key value }
  | .tampers key value => { s with engine := s.engine.with' key value }

def run (s : Shared k) (events : List (Event k)) : Shared k := events.foldl after s

/-- What an event answers, where it is an operation asked of a store held. -/
def answers (s : Shared k) : Event k → Option (Operation × Except PersistError Answer)
  | .asks opener operation drawn failure =>
      match s.openings opener with
      | some (.holds store) =>
          some (operation, (s.perform store drawn failure operation).map Prod.fst)
      | _ => none
  | _ => none

/-- The operations asked in a run and what each was answered, in order. -/
def history (s : Shared k) : List (Event k) → List (Operation × Except PersistError Answer)
  | [] => []
  | event :: events => (s.answers event).toList ++ history (s.after event) events

end Shared

end EncryptedStore

end XmipPersist
