import XmipPersist.Model.Finding

/-! # The Storage nodes of one cluster

Every Storage node listed, each asking the others in turn, settling what it is, following a
primary over a connection of its own and writing while it is one; with any of them unreached by
another, stopped, killed and started again in any order.
-/

namespace XmipPersist.Standby

variable {κ ν : Type} [LinearOrder κ]

/-- A Storage node, by its place in the list, promoted in an epoch. -/
structure Promotion where
  place : ℕ
  epoch : ℕ
  deriving DecidableEq

/-- An answer and, for the record, the promotions known to the one that gave it. -/
structure Told where
  answered : Answered
  known : List Promotion

/-- A standby following the primary at a place of the list, over a connection once that took it
up and, for the record, the promotions known to it then. -/
structure Followed (κ ν : Type) where
  primary : ℕ
  connection : Option (Connection κ ν)
  known : List Promotion

/-- One Storage node listed, its process up or not: how many it asked in the round under way,
what they answered, whom it follows and, for the record, the promotions it knows of. -/
structure Member (κ ν : Type) [LinearOrder κ] where
  node : StorageNode κ ν
  up : Bool
  asked : ℕ
  told : List Told
  following : Option (Followed κ ν)
  known : List Promotion

/-- The Storage nodes listed, the next process started among them and, for the record, each
promotion with the ones known where it was decided. -/
structure Cluster (κ ν : Type) [LinearOrder κ] where
  listed : ℕ
  members : ℕ → Member κ ν
  processes : ℕ
  promotions : List (Promotion × List Promotion)

/-- What a promotion opens the databases with, and how many of its steps come before it fails,
where it does. -/
structure Opening (κ ν : Type) where
  fresh : ℕ
  keys : Database → ℕ
  upgrades : List (Database × List (Change κ ν))
  fails : Option ℕ

/-- What happens in a cluster: a Storage node is started, killed or told to stop; asks the next
one listed, which answers or not; settles what it is after asking all, silent where it heard no
primary for the silence allowed; its request to follow is taken up, the primary's shipping to it
goes on, it takes a frame, failing after some steps perhaps, or its following is cut; and a
Storage node that is or was the primary writes. -/
inductive ClusterEvent (κ ν : Type)
  | start (place : ℕ)
  | kill (place : ℕ)
  | stop (place : ℕ)
  | ask (place : ℕ) (answers : Bool)
  | settle (place : ℕ) (silent : Bool) (opening : Opening κ ν)
  | accept (place : ℕ)
  | ship (place : ℕ) (idle : Bool)
  | take (place : ℕ) (fails : Option ℕ)
  | cut (place : ℕ)
  | write (place : ℕ) (database : Database) (changes : List (Change κ ν))

namespace Member

variable (bounds : Bounds κ ν)

def listed (engines : Database → Engine κ ν) : Member κ ν :=
  ⟨.new 0 engines, false, 0, [], none, []⟩

/-- Started over its engines: it knows of the promotions of the epochs it kept. -/
def start (m : Member κ ν) (process : ℕ) : Member κ ν :=
  let node : StorageNode κ ν := .new process m.node.engines
  ⟨node, true, 0, [], none, m.known.filter fun p => p.epoch ≤ node.epoch⟩

/-- Its primary's process gone, nothing more is shipped to it. -/
def unshipped (m : Member κ ν) (place : ℕ) : Member κ ν :=
  { m with following := m.following.map fun f =>
      if f.primary = place then
        { f with connection := f.connection.map fun c => { c with shipping := none } }
      else f }

/-- Whether its settling asks, following none. -/
def asking (m : Member κ ν) : Bool :=
  m.up && m.following.isNone && !(m.asked = 0 && m.node.stopping)

/-- The next one listed asked, with what it told where it did. -/
def ask (m : Member κ ν) (told : Option Told) : Member κ ν :=
  { m with asked := m.asked + 1, told := m.told ++ told.toList }

/-- A round come to its end with the node left as `node`. -/
def settled (m : Member κ ν) (node : StorageNode κ ν) : Member κ ν :=
  { m with node, asked := 0, told := [] }

/-- What it knows with what a round told it. -/
def informed (m : Member κ ν) : List Promotion := m.told.flatMap Told.known ++ m.known

/-- Following no one any more, unless it stops. -/
def unfollowed (m : Member κ ν) (node : StorageNode κ ν) : Member κ ν :=
  { m with
    node := if node.stopping then node else node.performAll bounds (node.takeUp .finding 0)
    following := none }

/-- Whether a frame says the epoch of its primary. -/
def saysEpoch : Shipped κ ν → Bool
  | .beat _ => true
  | .whole _ _ _ => true
  | _ => false

/-- A frame taken from the connection `c` to the primary it follows, or some of its steps, its
following ended with them. -/
def take (m : Member κ ν) (f : Followed κ ν) (c : Connection κ ν) (fails : Option ℕ) :
    Member κ ν :=
  match c.frames, fails with
  | [], _ => m
  | sent :: _, some steps =>
      m.unfollowed bounds (m.node.performAll bounds
        ((m.node.taking c.whole sent.frame).1.take steps))
  | sent :: frames, none =>
      let (taken, goesOn) := (⟨m.node, c.whole, c.ended, .never⟩ : Receiver κ ν).take bounds sent
      if goesOn then
        { m with
          node := taken.standby
          following := some { f with
            connection := some { c with frames, whole := taken.whole, ended := taken.ended } }
          known := if saysEpoch sent.frame then f.known ++ m.known else m.known }
      else m.unfollowed bounds taken.standby

end Member

namespace Cluster

variable (bounds : Bounds κ ν)

/-- Every Storage node listed down, its engines as they are. -/
def opened (listed : ℕ) (engines : ℕ → Database → Engine κ ν) : Cluster κ ν :=
  ⟨listed, fun place => .listed (engines place), 1, []⟩

def set (c : Cluster κ ν) (place : ℕ) (m : Member κ ν) : Cluster κ ν :=
  { c with members := Function.update c.members place m }

/-- What the one asked at `place` tells, where it is up. -/
def told (c : Cluster κ ν) (place : ℕ) : Option Told :=
  let m := c.members place
  if m.up then some ⟨⟨place, m.node.standing⟩, m.known⟩ else none

/-- A round that asked all settled. -/
def settle (c : Cluster κ ν) (place : ℕ) (silent : Bool) (opening : Opening κ ν) :
    Cluster κ ν :=
  let m := c.members place
  let answered := m.told.map Told.answered
  if m.node.role = .primary then
    c.set place (m.settled (if m.node.stepsDown answered then
      m.node.performAll bounds (m.node.takeUp .finding 0) else m.node))
  else match m.node.finds answered silent with
    | .rest => c.set place (m.settled m.node)
    | .follow primary =>
        let known := (m.told.filter fun t => t.answered = primary).flatMap Told.known
        let node := m.node.performAll bounds
          (m.node.takeUp (.standby primary.place) primary.standing.epoch)
        c.set place { m.settled node with
          following := some ⟨primary.place, none, []⟩
          known := known ++ m.known }
    | .promote epoch =>
        let steps := m.node.opening opening.fresh opening.keys opening.upgrades
        match m.node.isCopying, opening.fails with
        | true, _ => c.set place (m.settled m.node)
        | false, some fails =>
            c.set place (m.settled (m.node.performAll bounds (steps.take fails)))
        | false, none =>
            let node := m.node.performAll bounds (steps ++ m.node.takeUp .primary epoch)
            let promotion : Promotion := ⟨place, epoch⟩
            { c.set place { m.settled node with known := promotion :: m.informed } with
              promotions := c.promotions ++ [(promotion, m.informed)] }

def after (c : Cluster κ ν) : ClusterEvent κ ν → Cluster κ ν
  | .start place =>
      if place < c.listed ∧ (c.members place).up = false then
        { c.set place ((c.members place).start c.processes) with processes := c.processes + 1 }
      else c
  | .kill place =>
      { c with members := fun i =>
          let m := (c.members i).unshipped place
          if i = place then { m with up := false } else m }
  | .stop place =>
      let m := c.members place
      c.set place { m with node := { m.node with stopping := true } }
  | .ask place answers =>
      let m := c.members place
      if m.asking = true ∧ m.asked < c.listed then
        c.set place (m.ask (if answers then c.told m.asked else none))
      else c
  | .settle place silent opening =>
      let m := c.members place
      if m.up = true ∧ m.following.isNone ∧ m.asked = c.listed then
        c.settle bounds place silent opening
      else c
  | .accept place =>
      let m := c.members place
      match m.up, m.following with
      | true, some ⟨primary, none, _⟩ =>
          let p := c.members primary
          if p.up then
            c.set place { m with
              following := some ⟨primary, some (.opened p.node m.node.asks), p.known⟩ }
          else c
      | _, _ => c
  | .ship place idle =>
      let m := c.members place
      match m.following with
      | some ⟨primary, some connection, known⟩ =>
          let connection := connection.ship bounds (c.members primary).node idle
          c.set place { m with following := some ⟨primary, some connection, known⟩ }
      | _ => c
  | .take place fails =>
      let m := c.members place
      match m.up && !m.node.stopping, m.following with
      | true, some ⟨primary, some connection, known⟩ =>
          c.set place (m.take bounds ⟨primary, some connection, known⟩ connection fails)
      | _, _ => c
  | .cut place =>
      let m := c.members place
      if m.up = true ∧ m.following.isSome then c.set place (m.unfollowed bounds m.node) else c
  | .write place database changes =>
      let m := c.members place
      if m.up = true ∧ m.node.lent = true then
        c.set place { m with node := m.node.perform bounds (.write database changes) }
      else c

def run (c : Cluster κ ν) (events : List (ClusterEvent κ ν)) : Cluster κ ν :=
  events.foldl (after bounds) c

end Cluster

end XmipPersist.Standby
