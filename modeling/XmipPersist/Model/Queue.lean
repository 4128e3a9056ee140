import XmipPersist.Model.Columns

/-! # Queues in the runtime database

A queue numbers its entries as they are written and keeps an index from what each is about
to its place. Three kinds of queue are kept so: what is held, what failed of it, and a node's
dead Messages.
-/

namespace XmipPersist

/-! ## A queue -/

/-- Where one kind of queue keeps its entries, its index by what each is about and its places,
and the index its entries are found in order by. -/
structure Kinds where
  entry : Kind
  by' : Kind
  places : Kind
  index : Index
  deriving DecidableEq

namespace Queue

/-- A queue's places as the batch has left them. -/
def places (kinds : Kinds) (queue : ℕ) : Deciding Places := do
  let found ← readAs Places kinds.places (.id queue)
  pure (found.getD {})

/-- An entry about `about` placed at the end of `queue`; nothing where the index has it
there already. -/
def place (kinds : Kinds) (queue about : ℕ) (entry : ℕ → Content) : Deciding Bool := do
  let found ← read kinds.by' (.pair queue about)
  if found.isSome then
    pure false
  else do
    let kept ← places kinds queue
    let sequence := kept.next
    put kinds.entry (.pair queue sequence) (some (entry sequence))
    put kinds.by' (.pair queue about) (some (.number sequence))
    put kinds.places (.id queue)
      (some (Form.bytes { kept with next := kept.next + 1, count := kept.count + 1 }))
    pure true

/-- What the index keeps for something in a queue. -/
inductive Placed
  | never
  | takenOut
  | at (sequence : ℕ)
  deriving DecidableEq

def Placed.of : Option Content → Except PersistError Placed
  | none => .ok .never
  | some .nothing => .ok .takenOut
  | some (.number sequence) => .ok (.at sequence)
  | some _ => .error (.record "a place that is not eight bytes")

def placed (kinds : Kinds) (queue about : ℕ) : Deciding Placed :=
  reading fun b => b.read (kinds.by', .pair queue about) >>= Placed.of

/-- A queue's places once one of its entries is taken out. -/
def less (kept : Places) : Places :=
  let count := kept.count - 1
  if count = 0 then { kept with count, first := kept.next } else { kept with count }

/-- The entry at `sequence` taken out: what was kept there, or nothing. Its index is the
caller's. -/
def takeOut (kinds : Kinds) (queue sequence : ℕ) : Deciding (Option Content) := do
  let found ← read kinds.entry (.pair queue sequence)
  match found with
  | none => pure none
  | some bytes => do
      put kinds.entry (.pair queue sequence) none
      let kept ← places kinds queue
      put kinds.places (.id queue) (some (Form.bytes (less kept)))
      pure (some bytes)

def forget (kinds : Kinds) (queue about : ℕ) : Deciding Unit :=
  put kinds.by' (.pair queue about) none

def remember (kinds : Kinds) (queue about : ℕ) : Deciding Unit :=
  put kinds.by' (.pair queue about) (some .nothing)

end Queue

/-! ## What is held -/

namespace Hold

def kinds : Kinds :=
  ⟨.held, .heldJourney, .places, ⟨20, "held_place", [.queue, .sequence], none⟩⟩

/-- The record bytes hold, or its failure to be one. -/
def decode (bytes : Content) : Deciding Held :=
  reading fun _ => Form.fromBytes bytes

def keep (kept : Hold) : Deciding Unit := do
  let _ ← Queue.place kinds kept.queue kept.journey fun sequence =>
    Form.bytes (Held.mk sequence kept 0 false none)
  pure ()

/-- The Message of `journey`, held in `queue`, due again at `due`. -/
def wait (queue journey : ℕ) (due : ℤ) : Deciding Unit := do
  match ← Queue.placed kinds queue journey with
  | .at sequence =>
      match ← read kinds.entry (.pair queue sequence) with
      | none => pure ()
      | some bytes => do
          let held ← decode bytes
          put kinds.entry (.pair queue sequence)
            (some (Form.bytes { held with dueUnixNanos := some due }))
  | _ => pure ()

/-- The Message held at `sequence` marked failed, or not; a due time is gone with the mark. -/
def mark (queue sequence : ℕ) (failed : Bool) : Deciding Unit := do
  match ← read kinds.entry (.pair queue sequence) with
  | none => pure ()
  | some bytes => do
      let held ← decode bytes
      if held.failed ≠ failed then
        put kinds.entry (.pair queue sequence)
          (some (Form.bytes { held with
            failed, dueUnixNanos := if failed then none else held.dueUnixNanos }))
      else pure ()

def letGo (queue sequence : ℕ) : Deciding Unit := do
  match ← Queue.takeOut kinds queue sequence with
  | none => pure ()
  | some bytes => do
      let held ← decode bytes
      Queue.forget kinds queue held.hold.journey

def letGoOf (queue journey : ℕ) : Deciding Unit := do
  match ← Queue.placed kinds queue journey with
  | .at sequence => letGo queue sequence
  | _ => pure ()

/-- The place `journey` holds let go of and a new one taken at the queue's end. -/
def toTheEnd (queue journey : ℕ) : Deciding Unit := do
  match ← Queue.placed kinds queue journey with
  | .at sequence =>
      match ← Queue.takeOut kinds queue sequence with
      | none => pure ()
      | some bytes => do
          let held ← decode bytes
          Queue.forget kinds queue journey
          keep held.hold
  | _ => pure ()

end Hold

/-! ## What failed -/

namespace Failed

def kinds : Kinds :=
  ⟨.failed, .failedByJourney, .failedPlaces,
    ⟨22, "failed_message_place", [.queue, .sequence], none⟩⟩

def enter (journey : ℕ) (failure : Failure) (now : ℤ) : Deciding Unit := do
  match ← Queue.placed Hold.kinds failure.queue journey with
  | .at place => do
      Hold.mark failure.queue place true
      let _ ← Queue.place kinds failure.queue journey fun sequence =>
        Form.bytes (Failed.mk failure.queue sequence journey place failure.reason now)
      pure ()
  | _ => pure ()

/-- The Message of `journey` out of `queue`'s index of what failed. -/
def leave (queue journey : ℕ) : Deciding Unit := do
  match ← Queue.placed kinds queue journey with
  | .at sequence => do
      let _ ← Queue.takeOut kinds queue sequence
      Queue.forget kinds queue journey
  | _ => pure ()

/-- Its place in the queue, where it still holds one, no longer marked failed. -/
def unmark (queue journey : ℕ) : Deciding Unit := do
  match ← Queue.placed Hold.kinds queue journey with
  | .at place => Hold.mark queue place false
  | _ => pure ()

def clear (queue journey : ℕ) : Deciding Unit := do
  leave queue journey
  unmark queue journey

end Failed

/-! ## A node's dead Messages -/

namespace Dead

def kinds : Kinds :=
  ⟨.dead, .deadMessage, .deadPlaces,
    ⟨21, "dead_message_place", [.queue, .sequence], none⟩⟩

def keep (dead : DeadMessage) : Deciding Unit := do
  let _ ← Queue.place kinds dead.queue dead.message fun sequence =>
    Form.bytes (Dead.mk sequence dead)
  pure ()

end Dead

end XmipPersist
