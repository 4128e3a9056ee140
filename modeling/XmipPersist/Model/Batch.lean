import XmipPersist.Library.Decision
import XmipPersist.Library.OrderedMap
import XmipPersist.Model.Record

/-! # A database and one batch over it

A place is a record's kind and key. What is kept there is the bytes of one record, and every
record has one such form; bytes that are no record, and bytes whose seal does not open, are
contents too.
-/

namespace XmipPersist

/-! ## Places -/

/-- The record kinds of the runtime database, and after them those of the audit database and of
the administration database. -/
inductive Kind
  | chunk
  | stream
  | message
  | journey
  | claim
  | audit
  | held
  | heldJourney
  | places
  | duePlaces
  | dead
  | deadMessage
  | deadPlaces
  | failed
  | failedByJourney
  | failedPlaces
  | publication
  | sequence
  | origin
  | processInstance
  | instanceKey
  | keptAudit
  | keptAuditStreams
  | keptAuditStream
  | keptAuditBody
  | chain
  | administration (kind : AdministrationKind)
  | secret
  deriving DecidableEq

/-- A record's key: an identifier, two or three of them one after the other, a name, or one of
the audit sequence's two places. -/
inductive Key
  | id (id : ℕ)
  | pair (first second : ℕ)
  | triple (first second third : ℕ)
  | name (name : String)
  | next
  | kept
  deriving DecidableEq

abbrev Place := Kind × Key

/-! ## Contents -/

/-- What is kept at a place. `number` is eight bytes and `nothing` none at all; `torn` are
bytes that decode to no record, with the codec's words for why, and `broken` bytes that the
store itself cannot give back. -/
inductive Content
  | chunk (chunk : StreamChunk)
  | stream (stream : StreamRecord)
  | message (message : MessageRecord)
  | journey (journey : JourneyRecord)
  | claim (stored : Stored)
  | audit (entry : AuditEntry)
  | held (held : Held)
  | dead (dead : Dead)
  | failed (failed : Failed)
  | places (places : Places)
  | duePlaces (places : DuePlaces)
  | origin (origin : Origin)
  | processInstance (record : InstanceRecord)
  | instanceKey (key : InstanceKey)
  | keptAudit (record : KeptAudit)
  | keptStream (row : KeptStream)
  | chainHead (head : ChainHead)
  | body (bytes : Bytes)
  | administration (record : AdministrationRecord)
  | secret (record : KeptSecret)
  | digest (digest : Bytes)
  | number (number : ℕ)
  | nothing
  | torn (reason : String)
  | broken (error : PersistError)
  deriving DecidableEq

/-- The failure to read bytes as a record they are not. -/
def Content.malformed : Content → PersistError
  | torn reason => .record reason
  | _ => .record "not a record of its kind"

/-- A record's one binary form. -/
class Form (α : Type) where
  bytes : α → Content
  fromBytes : Content → Except PersistError α
  fromBytes_bytes : ∀ a, fromBytes (bytes a) = .ok a
  bytes_of_fromBytes : ∀ c a, fromBytes c = .ok a → c = bytes a

attribute [simp] Form.fromBytes_bytes

instance : Form StreamChunk where
  bytes := .chunk
  fromBytes | .chunk a => .ok a | c => .error c.malformed
  fromBytes_bytes _ := rfl
  bytes_of_fromBytes c a h := by cases c <;> simp_all

instance : Form StreamRecord where
  bytes := .stream
  fromBytes | .stream a => .ok a | c => .error c.malformed
  fromBytes_bytes _ := rfl
  bytes_of_fromBytes c a h := by cases c <;> simp_all

instance : Form MessageRecord where
  bytes := .message
  fromBytes | .message a => .ok a | c => .error c.malformed
  fromBytes_bytes _ := rfl
  bytes_of_fromBytes c a h := by cases c <;> simp_all

instance : Form JourneyRecord where
  bytes := .journey
  fromBytes | .journey a => .ok a | c => .error c.malformed
  fromBytes_bytes _ := rfl
  bytes_of_fromBytes c a h := by cases c <;> simp_all

instance : Form Stored where
  bytes := .claim
  fromBytes | .claim a => .ok a | c => .error c.malformed
  fromBytes_bytes _ := rfl
  bytes_of_fromBytes c a h := by cases c <;> simp_all

instance : Form AuditEntry where
  bytes := .audit
  fromBytes | .audit a => .ok a | c => .error c.malformed
  fromBytes_bytes _ := rfl
  bytes_of_fromBytes c a h := by cases c <;> simp_all

instance : Form Held where
  bytes := .held
  fromBytes | .held a => .ok a | c => .error c.malformed
  fromBytes_bytes _ := rfl
  bytes_of_fromBytes c a h := by cases c <;> simp_all

instance : Form Dead where
  bytes := .dead
  fromBytes | .dead a => .ok a | c => .error c.malformed
  fromBytes_bytes _ := rfl
  bytes_of_fromBytes c a h := by cases c <;> simp_all

instance : Form Failed where
  bytes := .failed
  fromBytes | .failed a => .ok a | c => .error c.malformed
  fromBytes_bytes _ := rfl
  bytes_of_fromBytes c a h := by cases c <;> simp_all

instance : Form Places where
  bytes := .places
  fromBytes | .places a => .ok a | c => .error c.malformed
  fromBytes_bytes _ := rfl
  bytes_of_fromBytes c a h := by cases c <;> simp_all

instance : Form DuePlaces where
  bytes := .duePlaces
  fromBytes | .duePlaces a => .ok a | c => .error c.malformed
  fromBytes_bytes _ := rfl
  bytes_of_fromBytes c a h := by cases c <;> simp_all

instance : Form Origin where
  bytes := .origin
  fromBytes | .origin a => .ok a | c => .error c.malformed
  fromBytes_bytes _ := rfl
  bytes_of_fromBytes c a h := by cases c <;> simp_all

instance : Form InstanceRecord where
  bytes := .processInstance
  fromBytes | .processInstance a => .ok a | c => .error c.malformed
  fromBytes_bytes _ := rfl
  bytes_of_fromBytes c a h := by cases c <;> simp_all

instance : Form InstanceKey where
  bytes := .instanceKey
  fromBytes | .instanceKey a => .ok a | c => .error c.malformed
  fromBytes_bytes _ := rfl
  bytes_of_fromBytes c a h := by cases c <;> simp_all

instance : Form KeptAudit where
  bytes := .keptAudit
  fromBytes | .keptAudit a => .ok a | c => .error c.malformed
  fromBytes_bytes _ := rfl
  bytes_of_fromBytes c a h := by cases c <;> simp_all

instance : Form KeptStream where
  bytes := .keptStream
  fromBytes | .keptStream a => .ok a | c => .error c.malformed
  fromBytes_bytes _ := rfl
  bytes_of_fromBytes c a h := by cases c <;> simp_all

instance : Form ChainHead where
  bytes := .chainHead
  fromBytes | .chainHead a => .ok a | c => .error c.malformed
  fromBytes_bytes _ := rfl
  bytes_of_fromBytes c a h := by cases c <;> simp_all

instance : Form AdministrationRecord where
  bytes := .administration
  fromBytes | .administration a => .ok a | c => .error c.malformed
  fromBytes_bytes _ := rfl
  bytes_of_fromBytes c a h := by cases c <;> simp_all

instance : Form KeptSecret where
  bytes := .secret
  fromBytes | .secret a => .ok a | c => .error c.malformed
  fromBytes_bytes _ := rfl
  bytes_of_fromBytes c a h := by cases c <;> simp_all

/-- What a read found, as a record where it found one. -/
def decoded {α : Type} [Form α] : Option Content → Except PersistError (Option α)
  | none => .ok none
  | some content => (Form.fromBytes content).map some

@[simp] theorem decoded_none {α : Type} [Form α] :
    decoded (α := α) none = .ok none := rfl

@[simp] theorem decoded_bytes {α : Type} [Form α] (a : α) :
    decoded (some (Form.bytes a)) = .ok (some a) := by
  simp [decoded, Except.map]

/-! ## The store -/

/-- The bytes of an index entry's key: its index's number, its columns' values in order, the
record's identifier. -/
abbrev IndexKey := List ℕ

/-- A database's records, and the index entries kept with them, each with the identifier of the
record it finds. -/
structure Store where
  records : Place → Option Content
  entries : OrderedMap IndexKey ℕ

namespace Store

def empty : Store := ⟨fun _ => none, .empty⟩

/-- The record at a place, where its seal opens. -/
def get (s : Store) (p : Place) : Except PersistError (Option Content) :=
  match s.records p with
  | some (.broken error) => .error error
  | found => .ok found

end Store

/-! ## A batch -/

/-- One write of a batch: a place and what it leaves there, or that it takes it out. -/
structure Change where
  kind : Kind
  key : Key
  value : Option Content
  deriving DecidableEq

namespace Change

def place (c : Change) : Place := (c.kind, c.key)

end Change

/-- What `changes` leave at a place, where they write it: the last of them there. -/
def written : List Change → Place → Option (Option Content)
  | [], _ => none
  | c :: cs, p => (written cs p).or (if c.place = p then some c.value else none)

@[simp] theorem written_nil (p : Place) : written [] p = none := rfl

theorem written_cons (c : Change) (cs : List Change) (p : Place) :
    written (c :: cs) p =
      (written cs p).or (if c.place = p then some c.value else none) := rfl

theorem written_append (cs ds : List Change) (p : Place) :
    written (cs ++ ds) p = (written ds p).or (written cs p) := by
  induction cs with
  | nil => simp
  | cons c cs ih => rw [List.cons_append, written_cons, written_cons, ih, Option.or_assoc]

theorem written_eq_none {cs : List Change} {p : Place} :
    written cs p = none ↔ ∀ c ∈ cs, c.place ≠ p := by
  induction cs with
  | nil => simp
  | cons c cs ih =>
      rw [written_cons, Option.or_eq_none_iff, ih]
      simp only [List.mem_cons, forall_eq_or_imp]
      constructor
      · rintro ⟨h, hc⟩
        exact ⟨by simpa using hc, h⟩
      · rintro ⟨hc, h⟩
        exact ⟨h, by simp [hc]⟩

theorem exists_of_written {cs : List Change} {p : Place} {value : Option Content}
    (h : written cs p = some value) : ∃ c ∈ cs, c.place = p ∧ c.value = value := by
  induction cs with
  | nil => simp at h
  | cons c cs ih =>
      rw [written_cons] at h
      cases hw : written cs p with
      | some found =>
          obtain ⟨d, hd, hplace, hvalue⟩ := ih (by simpa [hw] using h)
          exact ⟨d, by simp [hd], hplace, hvalue⟩
      | none =>
          simp only [hw, Option.none_or, Option.ite_none_right_eq_some, Option.some.injEq] at h
          exact ⟨c, by simp, h.1, h.2⟩

/-- One batch being decided: what it rests on, what it has written so far, in order, and the
next audit number as its operations leave it. An operation's stage rests on the batch below;
the batch itself on the store. -/
structure Batch where
  below : Place → Except PersistError (Option Content)
  changes : List Change
  next : ℕ

namespace Batch

/-- A batch with nothing in it yet, over what is written. -/
def over' (s : Store) (next : ℕ) : Batch := ⟨s.get, [], next⟩

/-- What a place holds as this batch, and every batch below it, has left it. -/
def read (b : Batch) (p : Place) : Except PersistError (Option Content) :=
  match written b.changes p with
  | some value => .ok value
  | none => b.below p

/-- One operation's stage over this batch. -/
def staged (b : Batch) : Batch := ⟨b.read, [], b.next⟩

/-- The batch with all a stage over it wrote. -/
def taking (b stage : Batch) : Batch :=
  { b with changes := b.changes ++ stage.changes, next := stage.next }

def put (b : Batch) (kind : Kind) (key : Key) (value : Option Content) : Batch :=
  { b with changes := b.changes ++ [⟨kind, key, value⟩] }

@[simp] theorem put_below (b : Batch) (kind : Kind) (key : Key) (value : Option Content) :
    (b.put kind key value).below = b.below := rfl

@[simp] theorem put_next (b : Batch) (kind : Kind) (key : Key) (value : Option Content) :
    (b.put kind key value).next = b.next := rfl

@[simp] theorem put_changes (b : Batch) (kind : Kind) (key : Key) (value : Option Content) :
    (b.put kind key value).changes = b.changes ++ [⟨kind, key, value⟩] := rfl

theorem read_put (b : Batch) (kind : Kind) (key : Key) (value : Option Content) (p : Place) :
    (b.put kind key value).read p = if (kind, key) = p then .ok value else b.read p := by
  simp only [read, put_changes, put_below, written_append, written_cons, written_nil,
    Option.none_or, Change.place]
  by_cases h : (kind, key) = p
  · simp [h]
  · simp [h]

@[simp] theorem read_put_self (b : Batch) (kind : Kind) (key : Key) (value : Option Content) :
    (b.put kind key value).read (kind, key) = .ok value := by
  simp [read_put]

theorem read_put_of_ne (b : Batch) {kind : Kind} {key : Key} (value : Option Content)
    {p : Place} (h : (kind, key) ≠ p) : (b.put kind key value).read p = b.read p := by
  rw [read_put, if_neg h]

@[simp] theorem read_over (s : Store) (next : ℕ) : (over' s next).read = s.get := rfl

@[simp] theorem read_staged (b : Batch) : b.staged.read = b.read := rfl

/-- A batch that took a stage over it reads as the stage did. -/
theorem read_taking {b stage : Batch} (h : stage.below = b.read) :
    (b.taking stage).read = stage.read := by
  funext p
  simp only [read, taking, written_append, h]
  cases written stage.changes p <;> rfl

end Batch

/-! ## Deciding in a batch -/

/-- A step of an operation, decided in a batch. -/
abbrev Deciding (α : Type) := Decision PersistError Batch α

/-- A step that only reads the batch. -/
def reading {α : Type} (g : Batch → Except PersistError α) : Deciding α :=
  fun b => (g b).map (·, b)

/-- What a place holds as the batch has left it. -/
def read (kind : Kind) (key : Key) : Deciding (Option Content) :=
  reading fun b => b.read (kind, key)

/-- The record a place holds as the batch has left it. -/
def readAs (α : Type) [Form α] (kind : Kind) (key : Key) : Deciding (Option α) :=
  reading fun b => b.read (kind, key) >>= decoded

def put (kind : Kind) (key : Key) (value : Option Content) : Deciding Unit :=
  modify fun b => b.put kind key value

/-- A record under its identifier, replacing the last. -/
def putRecord {α : Type} [Form α] (kind : Kind) (id : ℕ) (a : α) : Deciding Unit :=
  put kind (.id id) (some (Form.bytes a))

end XmipPersist
