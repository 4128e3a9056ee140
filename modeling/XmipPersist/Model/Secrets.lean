import XmipPersist.Model.Keeper
import XmipPersist.Model.Wire

/-! # The secrets of the administration database

Each secret is a row of its own, its value sealed under its name and kind, and found by its name's
index entry.
-/

namespace XmipPersist

open Wire (Secrets SecretRecord SecretEntry)

/-! ## A value sealed -/

/-- Sealing as its library does it under a key derived for one purpose, with what it draws for
itself: what is sealed opens under what it was bound to, and under nothing else. -/
structure Sealing where
  Key : Type
  Drawn : Type
  derived : String → Except PersistError Key
  sealed : Key → Drawn → Bytes → Bytes → Except PersistError Bytes
  opened : Key → Bytes → Bytes → Except String Bytes
  opens : ∀ {key drawn bound value kept},
    sealed key drawn bound value = .ok kept → opened key bound kept = .ok value
  refuses : ∀ {key drawn bound value kept bound'},
    sealed key drawn bound value = .ok kept → bound' ≠ bound →
      ∃ reason, opened key bound' kept = .error reason

/-- What a secret's value is sealed under. -/
def sealing : String := "xmip-core-persist/secret-value"

/-- What a value is bound to: its name and kind. -/
def bound (name kind : String) : Bytes :=
  "xmip.secret\x00".toUTF8.data.toList ++ name.toUTF8.data.toList ++
    0 :: kind.toUTF8.data.toList

/-- A secret as its table's row keeps it: everything in the clear but its value. -/
structure SealedSecret (x : Secrets) where
  id : ℕ
  name : x.Name
  secretKind : x.SecretKind
  sealed : Bytes
  setUnixNanos : ℕ
  setBy : String

variable {x : Secrets} (k : Sealing)

namespace SealedSecret

/-- What its bytes hold. -/
def kept (row : SealedSecret x) : KeptSecret :=
  ⟨row.id, x.asStr row.name, x.word row.secretKind, row.sealed, row.setUnixNanos, row.setBy⟩

/-- What a surface is told of it. -/
def entry (row : SealedSecret x) : SecretEntry x :=
  ⟨row.name, row.secretKind, row.setUnixNanos, row.setBy⟩

def refused (row : SealedSecret x) (reason : String) : PersistError :=
  .refused ("the secret '" ++ x.asStr row.name ++ "'") reason

/-- The secret, its value opened. -/
def opened (key : k.Key) (row : SealedSecret x) : Except PersistError (SecretRecord x) :=
  match k.opened key (bound (x.asStr row.name) (x.word row.secretKind)) row.sealed with
  | .error reason => .error (row.refused reason)
  | .ok value =>
      match x.newSecret row.name row.secretKind value with
      | .error reason => .error (row.refused reason)
      | .ok secret => .ok ⟨row.id, secret, row.setUnixNanos, row.setBy⟩

end SealedSecret

/-- What a surface is told of a secret. -/
def secretEntry (record : SecretRecord x) : SecretEntry x :=
  ⟨x.name record.secret, x.secretKind record.secret, record.setUnixNanos, record.setBy⟩

/-- A row read from its bytes: its name and its kind as their library makes them. -/
def KeptSecret.read (x : Secrets) (kept : KeptSecret) : Except PersistError (SealedSecret x) :=
  match x.newName kept.name with
  | .error reason => .error (.record reason)
  | .ok name =>
      match x.named kept.kind with
      | none => .error (.record ("no secret kind is '" ++ kept.kind ++ "'"))
      | some kind =>
          .ok ⟨kept.id, name, kind, kept.sealed, kept.setUnixNanos, kept.setBy⟩

/-- A secret as its row keeps it, its value sealed. -/
def sealedSecret (key : k.Key) (drawn : k.Drawn) (record : SecretRecord x) :
    Except PersistError (SealedSecret x) := do
  let name := x.name record.secret
  let kind := x.secretKind record.secret
  let sealed ← k.sealed key drawn (bound (x.asStr name) (x.word kind)) (x.value record.secret)
  pure ⟨record.id, name, kind, sealed, record.setUnixNanos, record.setBy⟩

/-! ## The table -/

namespace Secret

/-- The index a secret is found by. -/
def byName : Index := ⟨24, "secret_name", [.name], none⟩

def secretId (name : String) (s : Store) : Option ℕ :=
  (byName.find s [.text name] none 1 false).head?

def secretById (x : Secrets) (id : ℕ) (s : Store) :
    Except PersistError (Option (SealedSecret x)) := do
  match ← s.get (.secret, .id id) >>= decoded (α := KeptSecret) with
  | none => pure none
  | some kept => do
      let row ← kept.read x
      pure (some row)

/-- A secret written, keeping the identifier of the one of its name it replaces. -/
def secretSet (now : ℤ) (drawn : k.Drawn) (refused : Option PersistError)
    (record : SecretRecord x) (s : Store) : Except PersistError Store := do
  let key ← k.derived sealing
  let row ← sealedSecret k key drawn record
  let id := (secretId (x.asStr (x.name record.secret)) s).getD row.id
  let change := ⟨.secret, .id id, some (Form.bytes { row with id }.kept)⟩
  let written ← (EngineWrite.indexed [change]).apply s now
  match refused with
  | some e => throw e
  | none => pure written

/-- The secret of a name, or none. -/
def secretRead (name : x.Name) (s : Store) : Except PersistError (Option (SecretRecord x)) :=
  match secretId (x.asStr name) s with
  | none => pure none
  | some id => do
      let key ← k.derived sealing
      match ← secretById x id s with
      | none => pure none
      | some row => do
          let record ← row.opened k key
          pure (some record)

/-- Every secret, without its value. -/
def secretList (x : Secrets) (s : Store) : Except PersistError (List (SecretEntry x)) := do
  let found ← (byName.find s [] none u32Max false).mapM fun id => secretById x id s
  pure ((found.filterMap fun row => row).map SealedSecret.entry)

end Secret

/-! ## Runs of writes -/

/-- One write of a secret, with Xmip Storage's clock as it read, what its sealing drew and the
engine's refusal of it, where it refuses. -/
structure SecretWrite (x : Secrets) (k : Sealing) where
  record : SecretRecord x
  now : ℤ
  drawn : k.Drawn
  refused : Option PersistError := none

namespace SecretWrite

variable {k}

/-- The text of its secret's name. -/
def name (w : SecretWrite x k) : String := x.asStr (x.name w.record.secret)

def set (w : SecretWrite x k) (s : Store) : Except PersistError Store :=
  Secret.secretSet k w.now w.drawn w.refused w.record s

end SecretWrite

namespace Store

variable {k}

/-- The store once some writes were asked; one that fails leaves it as it was. -/
def afterSecrets (s : Store) : List (SecretWrite x k) → Store
  | [] => s
  | w :: ws =>
      match w.set s with
      | .ok s' => s'.afterSecrets ws
      | .error _ => s.afterSecrets ws

/-- Of some writes asked, those that came out. -/
def secretsWritten (s : Store) : List (SecretWrite x k) → List (SecretWrite x k)
  | [] => []
  | w :: ws =>
      match w.set s with
      | .ok s' => w :: s'.secretsWritten ws
      | .error _ => s.secretsWritten ws

end Store

end XmipPersist
