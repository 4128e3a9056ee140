import XmipPersist.Model.Copied

/-! # A Storage node stopped

A stop waits for every operation the databases are lent to and says so to the shipping to each
follower, which ends once a turn that began after it handed nothing on. Operations, statements, the
stop and the shipping to each follower take their steps in any order.
-/

namespace XmipPersist.Standby

/-! ## Lending -/

/-- How many operations are about to be lent the databases, and how many have them: counted and
about to look whether the node stops, allowed and about to look whether it is the primary, under
way, or refused and about to be counted no more; and how many statements have them pinned. -/
structure Operations where
  counted : ℕ
  allowed : ℕ
  held : ℕ
  leaving : ℕ
  pinned : ℕ

/-- How many operations, or statements, may write. -/
def Operations.writing (o : Operations) (pinned : Bool) : ℕ := if pinned then o.pinned else o.held

/-- The next step of an operation, or of a statement. -/
inductive Lends
  | counts
  | looks
  | takes
  | pins
  | drops
  | leaves
  | unpins

/-! ## Shipping to one follower -/

/-- Where the shipping to a follower is: not begun, about to look in a turn whether the node stops,
about to look whether it is the primary, at a database of the turn, or ended, declined or not. -/
inductive ShippingAt
  | away
  | turns
  | stands
  | goes (stage : Stage)
  | ended (declined : Bool)

/-- Whether a follower is still shipped to. -/
def ShippingAt.connected : ShippingAt → Bool
  | .away => false
  | .ended _ => false
  | _ => true

/-- A follower's shipping: what it looked at said of the stop in this turn, whether the turn handed
anything on, the number it was accepted from and its next in each database, and what it was handed
since. -/
structure Follower where
  at' : ShippingAt
  last : Bool
  handed : Bool
  accepted : Database → ℕ
  next : Database → ℕ
  copies : List (Database × Copy Bytes Bytes)

/-! ## Its stop -/

/-- A Storage node: its writes, whether it is the primary, how many operations it counts its
databases lent to, whether it is stopping, whether its stop waited for them, whether its server
stops, its followers and, for the record, which of them were connected at the stop and what was asked
of its engines. -/
structure Stopping where
  copies : Copies Bytes Bytes
  primary : Bool
  lent : ℕ
  operations : Operations
  stopping : Bool
  drained : Bool
  server : Bool
  followers : ℕ → Follower
  atStop : ℕ → Bool
  log : List Handing.Event

/-- What happens: an operation's or a statement's next step, a write of one of either, the stop and
its end, a step down, the server's stop, a follower that asks to follow, the next step of its
shipping and its connection cut. -/
inductive StoppingEvent
  | lends (step : Lends)
  | write (pinned : Bool) (database : Database) (write : Copied.Write)
      (answer : Except PersistError Bool)
  | stop
  | drain
  | stepDown
  | halt
  | follow (i : ℕ) (history : ℕ) (next : Database → ℕ)
  | ship (i : ℕ)
  | cut (i : ℕ)

namespace Follower

def away : Follower := ⟨.away, false, false, fun _ => 1, fun _ => 1, []⟩

/-- Its shipping's stage, and what it was handed, over its primary's writes. -/
def handing (f : Follower) (copies : Copies Bytes Bytes) : Handing :=
  let stage : Stage := match f.at' with
    | .goes stage => stage
    | .turns => .takes 0
    | .stands => .takes 0
    | .away => .ended
    | .ended _ => .ended
  ⟨copies, stage, f.accepted, f.next, f.copies⟩

/-- What it was handed of a database, in the order it was. -/
def handedIn (f : Follower) (database : Database) : List (Copy Bytes Bytes) :=
  (f.copies.filter fun frame => frame.1 = database).map Prod.snd

/-- Whether a stage is a copy handed on. -/
def hands : Stage → Bool
  | .hands _ (_ :: _) => true
  | _ => false

/-- The next step of a turn, or of what comes before the first: a turn that began as the node was
stopping and handed nothing on is the last. -/
def step (most turn : ℕ) (f : Follower) (copies : Copies Bytes Bytes) (stage : Stage) : Follower :=
  let shipped := (f.handing copies).ship most turn
  let handed := f.handed || hands stage
  let at' : ShippingAt := match shipped.stage with
    | .takes 0 => if f.last && !handed then .ended false else .turns
    | .ended => .ended true
    | stage => .goes stage
  ⟨at', f.last, handed, shipped.accepted, shipped.next, shipped.handed⟩

end Follower

namespace Stopping

variable (most turn : ℕ)

def begun (copies : Copies Bytes Bytes) : Stopping :=
  ⟨copies, true, 0, ⟨0, 0, 0, 0, 0⟩, false, false, false, fun _ => .away, fun _ => false, []⟩

/-- The next step of an operation: counted before it looks whether the node stops, and until it
ends; a statement keeps the databases and is counted no more. -/
def lends (s : Stopping) : Lends → Stopping
  | .counts =>
      { s with
        lent := s.lent + 1
        operations := { s.operations with counted := s.operations.counted + 1 } }
  | .looks =>
      let o := s.operations
      if o.counted = 0 then s
      else if s.stopping then
        { s with operations := { o with counted := o.counted - 1, leaving := o.leaving + 1 } }
      else { s with operations := { o with counted := o.counted - 1, allowed := o.allowed + 1 } }
  | .takes =>
      let o := s.operations
      if o.allowed = 0 then s
      else if s.primary then
        { s with operations := { o with allowed := o.allowed - 1, held := o.held + 1 } }
      else { s with operations := { o with allowed := o.allowed - 1, leaving := o.leaving + 1 } }
  | .pins =>
      let o := s.operations
      if o.held = 0 then s
      else { s with
        lent := s.lent - 1
        operations := { o with held := o.held - 1, pinned := o.pinned + 1 } }
  | .drops =>
      let o := s.operations
      if o.held = 0 then s
      else { s with lent := s.lent - 1, operations := { o with held := o.held - 1 } }
  | .leaves =>
      let o := s.operations
      if o.leaving = 0 then s
      else { s with lent := s.lent - 1, operations := { o with leaving := o.leaving - 1 } }
  | .unpins =>
      let o := s.operations
      { s with operations := { o with pinned := o.pinned - 1 } }

def set (s : Stopping) (i : ℕ) (f : Follower) : Stopping :=
  { s with followers := Function.update s.followers i f }

/-- The next step of the shipping to a follower. -/
def ship (s : Stopping) (i : ℕ) : Stopping :=
  let f := s.followers i
  match f.at' with
  | .away => s
  | .turns => s.set i { f with at' := .stands, last := s.drained || s.server, handed := false }
  | .stands => s.set i { f with at' := if s.primary then .goes (.takes 0) else .ended true }
  | .goes stage => s.set i (f.step most turn s.copies stage)
  | .ended _ => s

def after (s : Stopping) : StoppingEvent → Stopping
  | .lends step => s.lends step
  | .write pinned database write answer =>
      if s.operations.writing pinned = 0 then s
      else { s with
        copies := s.copies.wrote most database write answer
        log := s.log ++ [.write database write answer] }
  | .stop =>
      if s.stopping then s
      else { s with stopping := true, atStop := fun i => (s.followers i).at'.connected }
  -- its wait is over once nothing is lent
  | .drain => if s.stopping && s.lent = 0 then { s with drained := true } else s
  | .stepDown => { s with primary := false }
  | .halt => { s with server := true }
  | .follow i history next =>
      match (s.followers i).at' with
      | .away =>
          if s.primary then
            s.set i ⟨.goes (if history = s.copies.history then .asks 0 else .copies 0), false, false,
              next, next, []⟩
          else s
      | _ => s
  | .ship i => s.ship most turn i
  | .cut i =>
      match (s.followers i).at' with
      | .away => s
      | .ended _ => s
      | _ => s.set i { s.followers i with at' := .ended true }

def run (s : Stopping) (events : List StoppingEvent) : Stopping :=
  events.foldl (after most turn) s

end Stopping

end XmipPersist.Standby
