import XmipPersist.Model.Standby

/-! # Engines whose writes are kept, and their writes handed on one at a time

What the writes a `Copied` engine takes keep, each under its database's lock, while a follower is
looked at, copied whole or handed copies: one lock, or one frame, a step.
-/

namespace XmipPersist.Standby

/-! ## Engines whose writes are kept -/

/-- What the store's own keys open with. -/
def own : Bytes := "\x00xmip-core-persist/".toUTF8.data.toList

/-- The bytes of a change, and the most of them a database's writes keep. -/
def sizes (most : ℕ) : Bounds Bytes Bytes where
  bytes change := change.1.length + (change.2.map List.length).getD 0
  kept := most

namespace Copied

/-- A write asked of an engine. -/
inductive Write
  | write (key value : Bytes)
  | writeNew (key value : Bytes)
  | remove (key : Bytes)
  | apply (batch : List (Change Bytes Bytes))
  | applyDeferred (batch : List (Change Bytes Bytes))

/-- The changes a write makes. -/
def Write.changes : Write → List (Change Bytes Bytes)
  | write key value => [(key, some value)]
  | writeNew key value => [(key, some value)]
  | remove key => [(key, none)]
  | apply batch => batch
  | applyDeferred batch => batch

/-- Whether a write wrote: only that of a new key may find one there. -/
def Write.done : Write → Except PersistError Bool → Except PersistError Bool
  | writeNew _ _, answer => answer
  | _, answer => answer.map fun _ => true

/-- The changes of a write that are copied: not those of the store's own keys. -/
def Write.copied (write : Write) : List (Change Bytes Bytes) :=
  write.changes.filter fun change => !own.isPrefixOf change.1

end Copied

namespace Copies

variable {κ ν : Type}

/-- A write of `database` and what its engine answered: kept where it wrote. -/
def wrote (most : ℕ) (copies : Copies Bytes Bytes) (database : Database) (write : Copied.Write)
    (answer : Except PersistError Bool) : Copies Bytes Bytes :=
  match write.done answer with
  | .error _ => copies
  | .ok false => copies
  | .ok true => copies.written (sizes most) database write.copied

/-- Whether a standby can take the writes of `database` on from the number `from'`. -/
def followsIn (copies : Copies κ ν) (database : Database) (from' : ℕ) : Except Behind Unit :=
  let kept := copies.kept database
  if kept.next < from' then .error .another
  else if from' < kept.first then .error .past
  else .ok ()

/-- A standby follows where it can in each database, one after the other. -/
theorem follows_eq (copies : Copies κ ν) (history : ℕ) (next : Database → ℕ) :
    copies.follows history next =
      if history ≠ copies.history then .error .another
      else ([0, 1, 2] : List Database).forM fun database =>
        copies.followsIn database (next database) := rfl

end Copies

/-! ## Shipping, one lock or one frame at a time -/

/-- Where a follower's shipping is: a database looked at, copied whole or read for copies next,
or copies of one being handed on. -/
inductive Stage
  | asks (database : Database)
  | copies (database : Database)
  | takes (database : Database)
  | hands (database : Database) (copies : List (Copy Bytes Bytes))
  | ended

/-- A primary's writes, and a follower's shipping: the number it was accepted from and its next in
each database, and what it was handed since. -/
structure Handing where
  copies : Copies Bytes Bytes
  stage : Stage
  accepted : Database → ℕ
  next : Database → ℕ
  handed : List (Database × Copy Bytes Bytes)

namespace Handing

/-- What happens of a primary's writes and of a follower's shipping. -/
inductive Event
  | write (database : Database) (write : Copied.Write) (answer : Except PersistError Bool)
  | follow (history : ℕ) (next : Database → ℕ)
  | ship
  | stop

def begun (copies : Copies Bytes Bytes) : Handing := ⟨copies, .ended, fun _ => 1, fun _ => 1, []⟩

/-- The shipping's next step: `turn` bounds the bytes of the copies taken at once. -/
def ship (most turn : ℕ) (s : Handing) : Handing :=
  match s.stage with
  | .asks database =>
      match s.copies.followsIn database (s.next database) with
      | .ok _ => { s with stage := following database .asks (.takes 0) }
      | .error _ => { s with stage := .copies 0 }
  | .copies database =>
      let from' := s.copies.next database
      { s with
        accepted := Function.update s.accepted database from'
        next := Function.update s.next database from'
        stage := following database .copies (.takes 0) }
  | .takes database =>
      match s.copies.since (sizes most) database (s.next database) turn with
      | .ok copies => { s with stage := .hands database copies }
      | .error _ => { s with stage := .ended }
  | .hands database [] => { s with stage := following database .takes (.takes 0) }
  | .hands database (copy :: rest) =>
      { s with
        handed := s.handed ++ [(database, copy)]
        next := Function.update s.next database (copy.1 + 1)
        stage := .hands database rest }
  | .ended => s

def after (most turn : ℕ) (s : Handing) : Event → Handing
  | .write database write answer => { s with copies := s.copies.wrote most database write answer }
  | .follow history next =>
      { s with
        stage := if history = s.copies.history then .asks 0 else .copies 0
        accepted := next
        next := next
        handed := [] }
  | .ship => s.ship most turn
  | .stop => { s with stage := .ended }

def run (most turn : ℕ) (s : Handing) (events : List Event) : Handing :=
  events.foldl (after most turn) s

/-- The copies of `database` handed on, in the order they were. -/
def handedIn (s : Handing) (database : Database) : List (Copy Bytes Bytes) :=
  (s.handed.filter fun frame => frame.1 = database).map Prod.snd

end Handing

end XmipPersist.Standby
