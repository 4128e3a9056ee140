import XmipPersist.Model.Due

/-! # The reads of a queue

A read operation makes several reads of its engine, and the one writer may write between any two
of them: each sees the store as it stands at that moment. A read through a view makes one, and
what it reads through it stood at that moment.
-/

namespace XmipPersist

/-! ## Reads of the engine -/

/-- A step of a read operation, from the stores its engine reads find, each at its moment. -/
abbrev Reads (α : Type) := Decision PersistError (ℕ → Store) α

/-- One read of the engine, of one record or of one range, or all of those through one view. -/
def reads {α : Type} (g : Store → Except PersistError α) : Reads α := fun moments =>
  (g (moments 0)).map (·, fun n => moments (n + 1))

/-- What a read operation answers where its engine reads find one store throughout. -/
def Reads.on {α : Type} (m : Reads α) (s : Store) : Except PersistError α :=
  (m.run fun _ => s).map Prod.fst

/-! ## A page of a queue -/

namespace Queue

/-- The places held in a queue from `start` on, up to `most`, in order, each with what its entry
is about. -/
def placedFrom (kinds : Kinds) (queue start most : ℕ) (s : Store) :
    Except PersistError (List (ℕ × ℕ)) := do
  let found ← kinds.index.findOrdered s [.id queue] [start] u64Max most
  pure (found.map fun entry => (entry.1.headD 0, entry.2))

/-- The first place held in a queue whose kept first is `first`, `at'` being where a read that
came to `found` started. -/
def firstHeld (kinds : Kinds) (queue first at' : ℕ) (found : List (ℕ × ℕ)) (s : Store) :
    Except PersistError (Option ℕ) :=
  match found.head? with
  | some (sequence, _) =>
      if at' = first then .ok (some sequence)
      else (placedFrom kinds queue first 1 s).map fun one => one.head?.map Prod.fst
  | none => (placedFrom kinds queue first 1 s).map fun one => one.head?.map Prod.fst

/-- The entries at some places, where there are any. -/
def entriesAt (kinds : Kinds) (queue : ℕ) (found : List (ℕ × ℕ)) (s : Store) :
    Except PersistError (List Content) := do
  let entries ← found.mapM fun at' => s.get (kinds.entry, .pair queue at'.1)
  pure (entries.filterMap id)

/-- A queue in one view: its places, its first as it is found, and up to `most` of its entries
from the place `start` on, oldest first. -/
def page (kinds : Kinds) (queue start most : ℕ) (s : Store) :
    Except PersistError (Places × List Content) := do
  let kept ← s.get (kinds.places, .id queue) >>= decoded (α := Places)
  let places := kept.getD {}
  if places.count = 0 then pure (places, [])
  else do
    let at' := max start places.first
    let found ← if most = 0 then pure [] else placedFrom kinds queue at' most s
    let first ← firstHeld kinds queue places.first at' found s
    let entries ← entriesAt kinds queue found s
    pure ({ places with first := first.getD places.next }, entries)

end Queue

/-- A queue of one kind as it is read: the place of the oldest it still holds, the next place,
how many it holds, and what was read, oldest first. -/
structure Paged (α : Type) where
  first : ℕ
  next : ℕ
  count : ℕ
  entries : List α
  deriving DecidableEq

/-- A page, its entries as the records they are. -/
def paged (α : Type) [Form α] (page : Places × List Content) : Except PersistError (Paged α) := do
  let entries ← page.2.mapM Form.fromBytes
  pure ⟨page.1.first, page.1.next, page.1.count, entries⟩

/-- What is held in a queue, with Xmip Storage's clock as it read. -/
structure HeldQueue extends Paged Held where
  readUnixNanos : ℤ
  deriving DecidableEq

def Hold.read (queue start most : ℕ) (now : ℤ) : Reads HeldQueue := do
  let page ← reads fun s => Queue.page Hold.kinds queue start most s >>= paged Held
  pure ⟨page, now⟩

def Failed.read (queue start most : ℕ) : Reads (Paged Failed) :=
  reads fun s => Queue.page Failed.kinds queue start most s >>= paged Failed

def Dead.read (queue start most : ℕ) : Reads (Paged Dead) :=
  reads fun s => Queue.page Dead.kinds queue start most s >>= paged Dead

/-! ## One dead Message -/

/-- What a Dead Message Queue keeps for one Message: its entry, that it was replayed, or that
the queue never kept one for it. -/
inductive DeadEntry
  | kept (entry : Dead)
  | replayed
  | never
  deriving DecidableEq

def Dead.readOne (queue message : ℕ) : Reads DeadEntry := do
  let place ← reads fun s => s.get (.deadMessage, .pair queue message)
  match place with
  | none => pure .never
  | some (.number sequence) => do
      let found ← reads fun s => s.get (.dead, .pair queue sequence) >>= decoded (α := Dead)
      match found with
      | some entry => pure (.kept entry)
      | none => pure .never
  | some _ => pure .replayed

/-! ## A queue by when each is due -/

/-- Which part of a queue a read by when each is due finds. -/
inductive DuePart
  | due
  | waiting
  | failed
  deriving DecidableEq

/-- A part of a queue as read by when each is due: what was read, how many keep a retry's due
time, the earliest of those not yet due, and Xmip Storage's clock as it read. -/
structure DueQueue where
  held : List Held
  retrying : ℕ
  nextDueUnixNanos : Option ℕ
  readUnixNanos : ℤ
  deriving DecidableEq

namespace Due

/-- A queue's due places as the store keeps them. -/
def keptIn (queue : ℕ) (s : Store) : Except PersistError DuePlaces := do
  let found ← s.get (.duePlaces, .id queue) >>= decoded (α := DuePlaces)
  pure (found.getD {})

/-- Where the first retry not yet due at `at'` is looked for. -/
def later (places : DuePlaces) (at' : ℕ) : ℕ ×ₗ ℕ :=
  max (toLex (min (at' + 1) u64Max, 0)) places.retry

/-- The entries of a part, up to `most` from the due time and place `start` on: one range of the
index, or two where what is due since it was held comes first. -/
def found (queue : ℕ) (part : DuePart) (start : ℕ ×ₗ ℕ) (most at' : ℕ) (places : DuePlaces) :
    Reads (List (ℕ ×ₗ ℕ)) :=
  match part with
  | .due => do
      let fresh ←
        if (ofLex start).1 = 0 then
          reads fun s =>
            region s queue false (toLex (0, max (ofLex start).2 places.fresh)) 0 most
        else pure []
      let start := max start places.retry
      if fresh.length < most ∧ (ofLex start).1 ≤ at' then do
        let retries ← reads fun s => region s queue false start at' (most - fresh.length)
        pure (fresh ++ retries)
      else pure fresh
  | .waiting => reads fun s => region s queue false (max start (later places at')) u64Max most
  | .failed => reads fun s => region s queue true start u64Max most

/-- The entry at a place, where there is one. -/
def entry (queue place : ℕ) : Reads (Option Held) :=
  reads fun s => s.get (.held, .pair queue place) >>= decoded

def read (queue : ℕ) (part : DuePart) (start : ℕ ×ₗ ℕ) (most : ℕ) (now : ℤ) : Reads DueQueue := do
  let places ← reads (keptIn queue)
  let at' := nanos now
  let found ← found queue part start most at' places
  let next ← reads fun s => region s queue false (later places at') u64Max 1
  let held ← found.mapM fun at' => entry queue (ofLex at').2
  pure ⟨held.filterMap id, places.retrying, next.head?.map fun at' => (ofLex at').1, now⟩

end Due

end XmipPersist
