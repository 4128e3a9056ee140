import XmipPersist.Model.Queue
import XmipPersist.Model.Columns

/-! # Where each queue's first entries by when they are due are -/

namespace XmipPersist

namespace Due

/-- The index a queue is read by when each is due. -/
def index : Index := ⟨23, "held_due", [.queue, .failed, .dueAt, .sequence], none⟩

/-- No retry is held: where a queue's first retry is then. -/
def noRetry : ℕ ×ₗ ℕ := toLex (u64Max, u64Max)

/-- An entry of the index as the due time and the place its key holds. -/
def dueAndPlace : List ℕ × ℕ → Except PersistError (ℕ ×ₗ ℕ)
  | ([due, place], _) => .ok (toLex (due, place))
  | _ => .error (.record "a held_due entry that is not a due time and a place")

/-- The due times and places of up to `most` entries of `queue`, failed or not, from `first`
on, due at `last` at the latest. -/
def region (s : Store) (queue : ℕ) (failed : Bool) (first : ℕ ×ₗ ℕ) (last most : ℕ) :
    Except PersistError (List (ℕ ×ₗ ℕ)) := do
  let found ← index.findOrdered s [.id queue, .flag failed]
    [(ofLex first).1, (ofLex first).2] last most
  found.mapM dueAndPlace

/-- The first entry of `queue` not failed that the engine holds and is not `touched`. -/
def untouched (s : Store) (queue : ℕ) (first : ℕ ×ₗ ℕ) (last most : ℕ) (touched : List ℕ) :
    Except PersistError (Option (ℕ ×ₗ ℕ)) := do
  let found ← region s queue false first last most
  pure (found.find? fun at' => (ofLex at').2 ∉ touched)

/-- One where it keeps a retry's due time and did not fail. -/
def retries (held : Option Held) : ℕ :=
  (held.any fun held => held.dueUnixNanos.isSome && !held.failed).toNat

/-- The least of two places where there are two. -/
def least {α : Type} [LinearOrder α] : Option α → Option α → Option α
  | some a, some b => some (min a b)
  | some a, none => some a
  | none, found => found

/-! ## The places a batch wrote -/

/-- The order in which the entries a batch wrote come out of its hash map. -/
structure Arrangement where
  arrange : List (ℕ × ℕ) → List (ℕ × ℕ)
  perm : ∀ places, (arrange places).Perm places

def Arrangement.asWritten : Arrangement := ⟨id, fun _ => .refl _⟩

def heldPlace (c : Change) : Option (ℕ × ℕ) :=
  match c.kind, c.key with
  | .held, .pair queue place => some (queue, place)
  | _, _ => none

/-- The held places `changes` write, each once. -/
def heldPlaces (changes : List Change) : List (ℕ × ℕ) :=
  (changes.filterMap heldPlace).dedup

/-- The queues of some places, ascending, each once. -/
def queuesOf (places : List (ℕ × ℕ)) : List ℕ :=
  (places.map Prod.fst).foldr OrderedSet.insertInto []

/-- The places of `queue` among some places, in their order. -/
def placesOf (queue : ℕ) (places : List (ℕ × ℕ)) : List ℕ :=
  (places.filter fun at' => at'.1 = queue).map Prod.snd

/-! ## Settling -/

/-- What the places a batch wrote of one queue come to: how many keep a retry's due time, and
the first of each part the batch wrote. -/
structure Tally where
  retrying : ℕ
  fresh : Option ℕ := none
  retry : Option (ℕ ×ₗ ℕ) := none
  deriving DecidableEq

/-- One place the batch wrote, from what was there to what it leaves there. -/
def Tally.over' (tally : Tally) (place : ℕ) (old new : Option Held) : Tally :=
  let retrying := tally.retrying + retries new - retries old
  match (new.filter fun held => !held.failed).map Held.dueAt with
  | some 0 => { tally with retrying, fresh := least tally.fresh (some place) }
  | some due => { tally with retrying, retry := least tally.retry (some (toLex (due, place))) }
  | none => { tally with retrying }

def tallied (b : Batch) (queue : ℕ) : Tally → List ℕ → Except PersistError Tally
  | tally, [] => .ok tally
  | tally, place :: places => do
      let old ← b.below (.held, .pair queue place) >>= decoded (α := Held)
      let new ← decoded (α := Held) ((written b.changes (.held, .pair queue place)).getD none)
      tallied b queue (tally.over' place old new) places

/-- A queue's due places as the batch leaves them, or as the store keeps them. -/
def kept (b : Batch) (queue : ℕ) : Except PersistError DuePlaces := do
  let found ← b.read (.duePlaces, .id queue) >>= decoded (α := DuePlaces)
  pure (found.getD {})

/-- A queue's places as the batch leaves them. -/
def nextPlace (b : Batch) (queue : ℕ) : Except PersistError ℕ := do
  let found ← b.read (.places, .id queue) >>= decoded (α := Places)
  pure (found.getD {}).next

/-- The first entry due since it was held that the batch did not write. A first the batch wrote
at or before where it was is the first: nothing is read then. -/
def keptFresh (s : Store) (queue : ℕ) (touched : List ℕ) (before : DuePlaces) (tally : Tally) :
    Except PersistError (Option (ℕ ×ₗ ℕ)) :=
  if tally.fresh.any (· ≤ before.fresh) then .ok none
  else untouched s queue (toLex (0, before.fresh)) 0 (touched.length + 1) touched

/-- The first retry that the batch did not write. -/
def keptRetry (s : Store) (queue : ℕ) (touched : List ℕ) (before : DuePlaces) (tally : Tally) :
    Except PersistError (Option (ℕ ×ₗ ℕ)) :=
  if before.retry = noRetry ∨ tally.retry.any (· ≤ before.retry) then .ok none
  else untouched s queue before.retry u64Max (touched.length + 1) touched

/-- The first entry due since it was held, or the queue's next place where there is none. -/
def freshAt (b : Batch) (queue : ℕ) : Option ℕ → Except PersistError ℕ
  | some first => .ok first
  | none => nextPlace b queue

/-- A queue's due places found again as the batch leaves them. -/
def foundAgain (s : Store) (b : Batch) (queue : ℕ) (touched : List ℕ) (before : DuePlaces) :
    Except PersistError DuePlaces := do
  let tally ← tallied b queue { retrying := before.retrying } touched
  let freshKept ← keptFresh s queue touched before tally
  let fresh ← freshAt b queue (least (freshKept.map fun at' => (ofLex at').2) tally.fresh)
  let retryKept ← keptRetry s queue touched before tally
  pure { fresh, retry := (least retryKept tally.retry).getD noRetry, retrying := tally.retrying }

/-- One queue the batch wrote an entry of: its due places found again and kept. -/
def settleQueue (s : Store) (b : Batch) (queue : ℕ) (touched : List ℕ) :
    Except PersistError Batch := do
  let before ← kept b queue
  let places ← foundAgain s b queue touched before
  pure (if places ≠ before then b.put .duePlaces (.id queue) (some (Form.bytes places)) else b)

/-- Each of `queues` settled, in order. -/
def settleEach (s : Store) (places : List (ℕ × ℕ)) :
    Batch → List ℕ → Except PersistError Batch
  | b, [] => .ok b
  | b, queue :: queues => do
      let b ← settleQueue s b queue (placesOf queue places)
      settleEach s places b queues

/-- Every queue the batch writes a held Message of, its due places kept as the batch leaves
it. -/
def settle (s : Store) (order : Arrangement) (b : Batch) : Except PersistError Batch :=
  let places := order.arrange (heldPlaces b.changes)
  settleEach s places b (queuesOf places)

end Due

end XmipPersist
