import XmipPersist.Model.Standby

/-! # One standby following one primary

The primary's writes, its shipping to the standby over one connection at a time, the frames on
their way, and the standby that takes them in the order they were sent, with the connection cut,
the standby started again and the primary lost at any point.
-/

namespace XmipPersist.Standby

open StorageNode

variable {κ ν : Type} [LinearOrder κ]

/-- A frame as it was sent and, for the record, the primary's next writes then. -/
structure Sent (κ ν : Type) where
  frame : Shipped κ ν
  next : Database → ℕ

/-- A connection a standby follows over: the primary's shipping while it goes on, the frames
sent and not taken yet, the whole copy the standby has under way on it, and, for the record, the
number the primary's next write had when its scan of each database copied so far ended. -/
structure Connection (κ ν : Type) where
  shipping : Option (Shipping κ)
  frames : List (Sent κ ν)
  whole : Option Whole
  ended : Database → ℕ

/-- What became of the last whole copy into a standby, for the record: there was none, it was
begun and not taken whole, or it was taken, the primary's next writes having had these numbers
when its scans ended. -/
inductive WholeCopy
  | never
  | begun
  | taken (ended : Database → ℕ)

namespace Connection

/-- Opened by a standby that asks to follow. -/
def opened (primary : StorageNode κ ν) (asked : Follow) : Connection κ ν :=
  match primary.accepts asked with
  | .ok (shipping, frames) =>
      ⟨some shipping, frames.map fun frame => ⟨frame, primary.copies.next⟩, none, fun _ => 0⟩
  | .error refusal => ⟨none, [⟨.declined refusal, primary.copies.next⟩], none, fun _ => 0⟩

/-- The primary's next step on it: the frames it sends, or the refusal it ends with. -/
def ship (bounds : Bounds κ ν) (primary : StorageNode κ ν) (c : Connection κ ν)
    (idle : Bool) : Connection κ ν :=
  match c.shipping with
  | none => c
  | some shipping =>
      match primary.ships bounds shipping idle with
      | .ok (next, sent) =>
          { c with
            shipping := some next
            frames := c.frames ++ sent.map fun frame => ⟨frame, primary.copies.next⟩ }
      | .error refusal =>
          { c with
            shipping := none
            frames := c.frames ++ [⟨.declined refusal, primary.copies.next⟩] }

end Connection

/-- A standby taking frames: what it is, the whole copy it has under way on its connection, when
its scans ended, and what became of the last whole copy. -/
structure Receiver (κ ν : Type) [LinearOrder κ] where
  standby : StorageNode κ ν
  whole : Option Whole
  ended : Database → ℕ
  copy : WholeCopy

namespace Receiver

def endedAfter (r : Receiver κ ν) (sent : Sent κ ν) : Database → ℕ :=
  match sent.frame with
  | .copied database _ => Function.update r.ended database (sent.next database)
  | _ => r.ended

/-- What a frame makes of the last whole copy, `whole` being the one under way after it. -/
def copyAfter (r : Receiver κ ν) (whole : Option Whole) (sent : Sent κ ν) : WholeCopy :=
  match sent.frame with
  | .whole _ _ _ => .begun
  | .copied _ _ =>
      if r.whole.isSome ∧ whole.isNone then .taken (r.endedAfter sent) else r.copy
  | _ => r.copy

/-- A frame taken, and whether the standby goes on following after it. -/
def take (bounds : Bounds κ ν) (r : Receiver κ ν) (sent : Sent κ ν) : Receiver κ ν × Bool :=
  let taking := r.standby.taking r.whole sent.frame
  let standby := r.standby.performAll bounds taking.1
  match taking.2 with
  | .ok whole => (⟨standby, whole, r.endedAfter sent, r.copyAfter whole sent⟩, true)
  | .error _ => (⟨standby, r.whole, r.ended, r.copyAfter r.whole sent⟩, false)

end Receiver

/-- One primary and one standby, and for the record every write the primary made since and what
became of the last whole copy. -/
structure Pair (κ ν : Type) [LinearOrder κ] where
  primary : StorageNode κ ν
  lost : Bool
  standby : StorageNode κ ν
  connection : Option (Connection κ ν)
  log : Database → List (List (Change κ ν))
  copy : WholeCopy

/-- What happens: the primary writes, the standby asks to follow, the primary ships, the standby
takes a frame, the connection is cut, the standby is started again, the primary is lost. -/
inductive PairEvent (κ ν : Type)
  | write (database : Database) (changes : List (Change κ ν))
  | follow
  | ship (idle : Bool)
  | take
  | cut
  | restart (process : ℕ)
  | lost

namespace Pair

variable (bounds : Bounds κ ν)

def begun (primary standby : StorageNode κ ν) : Pair κ ν :=
  ⟨primary, false, standby, none, fun _ => [], .never⟩

def write (pair : Pair κ ν) (database : Database) (changes : List (Change κ ν)) : Pair κ ν :=
  { pair with
    primary := pair.primary.perform bounds (.write database changes)
    log := if changes = [] then pair.log
      else Function.update pair.log database (pair.log database ++ [changes]) }

/-- The standby follows a primary it finds of no epoch before its own, and asks it for its
writes. -/
def follow (pair : Pair κ ν) : Pair κ ν :=
  let standing := pair.primary.standing
  if standing.primary ∧ pair.standby.epoch ≤ standing.epoch then
    let standby := pair.standby.performAll bounds
      (pair.standby.takeUp (.standby 0) standing.epoch)
    { pair with standby, connection := some (.opened pair.primary standby.asks) }
  else pair

/-- The standby no longer following: its primary lost, declining or silent. -/
def stopped (pair : Pair κ ν) : Pair κ ν :=
  { pair with
    standby := pair.standby.performAll bounds (pair.standby.takeUp .finding 0)
    connection := none }

/-- What the standby takes its frames with. -/
def receiver (pair : Pair κ ν) (c : Connection κ ν) : Receiver κ ν :=
  ⟨pair.standby, c.whole, c.ended, pair.copy⟩

def take (pair : Pair κ ν) (c : Connection κ ν) : Pair κ ν :=
  match c.frames with
  | [] => pair
  | sent :: frames =>
      let (taken, goesOn) := (pair.receiver c).take bounds sent
      let after : Pair κ ν :=
        { pair with
          standby := taken.standby
          connection := some { c with frames, whole := taken.whole, ended := taken.ended }
          copy := taken.copy }
      if goesOn then after else after.stopped bounds

def after (pair : Pair κ ν) : PairEvent κ ν → Pair κ ν
  | .write database changes => if pair.lost then pair else pair.write bounds database changes
  | .follow =>
      if pair.lost ∨ pair.connection.isSome then pair else pair.follow bounds
  | .ship idle =>
      if pair.lost then pair
      else { pair with
        connection := pair.connection.map fun c => c.ship bounds pair.primary idle }
  | .take =>
      match pair.connection with
      | none => pair
      | some c => pair.take bounds c
  | .cut => if pair.connection.isSome then pair.stopped bounds else pair
  | .restart process =>
      { pair with standby := .new process pair.standby.engines, connection := none }
  | .lost => { pair with lost := true }

def run (pair : Pair κ ν) (events : List (PairEvent κ ν)) : Pair κ ν :=
  events.foldl (after bounds) pair

end Pair

end XmipPersist.Standby
