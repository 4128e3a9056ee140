import XmipPersist.Model.Copies

/-! # A Storage node among several

What a Storage node holds, what it does to its engines and to what it holds, one step after
another, as it finds its primary, follows it, is copied whole and is promoted; and what a
primary hands to a standby that follows it.
-/

namespace XmipPersist.Standby

variable {κ ν : Type} [LinearOrder κ]

/-! ## What it holds -/

/-- What a Storage node is now: asking the others, the primary, or a standby of the primary at
this place of the list. -/
inductive Role
  | finding
  | primary
  | standby (place : ℕ)
  deriving DecidableEq

/-- A Storage node: its process, new each time it starts, its engines, its writes, the epoch it
holds, what it is, whether it is stopping, and whether it was the primary since it started: an
operation lent its databases then may still be writing. -/
structure StorageNode (κ ν : Type) [LinearOrder κ] where
  process : ℕ
  engines : Database → Engine κ ν
  copies : Copies κ ν
  epoch : ℕ
  role : Role
  stopping : Bool
  lent : Bool

/-- What a Storage node answers another that asks what it is. -/
structure Standing where
  process : ℕ
  primary : Bool
  epoch : ℕ
  history : ℕ
  next : Database → ℕ
  copying : Bool
  deriving DecidableEq

/-- How many writes it holds of its history, all databases together. -/
def Standing.held (standing : Standing) : ℕ :=
  standing.next 0 + standing.next 1 + standing.next 2

/-- Where a standby asks to be followed from. -/
structure Follow where
  epoch : ℕ
  history : ℕ
  next : Database → ℕ

/-- Why a primary hands a standby nothing more: it is none, it is one of an epoch before the
standby's, it is one no more, the standby is behind what it keeps, or a database of its own has
no data key. -/
inductive Refusal
  | standing
  | before (epoch met : ℕ)
  | steppedDown
  | behind
  | keyless
  deriving DecidableEq

/-- Why a standby stops following: a copy is not the one it takes next, a whole copy hands
another number of data keys than it has databases, or ends with no start, or its primary
declined. -/
inductive Stopped
  | lost (number next : ℕ)
  | keys (count : ℕ)
  | noStart
  | declined (reason : Refusal)
  deriving DecidableEq

/-- One frame from a primary to a standby following it. -/
inductive Shipped (κ ν : Type)
  | beat (epoch : ℕ)
  | copy (database : Database) (number : ℕ) (changes : List (Change κ ν))
  | whole (history epoch : ℕ) (keys : List ℕ)
  | entries (database : Database) (entries : List (κ × ν))
  | copied (database : Database) (next : ℕ)
  | declined (reason : Refusal)

namespace StorageNode

def isCopying (node : StorageNode κ ν) : Bool := (node.engines runtime).copying

/-- A primary that is stopping is the primary no more. -/
def standing (node : StorageNode κ ν) : Standing where
  process := node.process
  primary := node.role = .primary ∧ node.stopping = false
  epoch := node.epoch
  history := node.copies.history
  next := node.copies.next
  copying := node.isCopying

/-- The history and the next writes its engines' positions say, where they all say one. -/
def positioned (engines : Database → Engine κ ν) : Copies κ ν :=
  match (engines 0).position with
  | none => .restart 0 fun _ => 1
  | some (history, _) =>
      if ∀ database, ((engines database).position.map Prod.fst) = some history then
        .restart history fun database => ((engines database).position.map Prod.snd).getD 1
      else .restart 0 fun _ => 1

/-- A Storage node started over its engines. -/
def new (process : ℕ) (engines : Database → Engine κ ν) : StorageNode κ ν where
  process
  engines
  copies := positioned engines
  epoch := (engines runtime).epoch.getD 0
  role := .finding
  stopping := false
  lent := false

end StorageNode

/-! ## What it does -/

/-- One step of a Storage node: a role held and an epoch met, an epoch heard, the epoch kept, a
whole copy marked under way and no longer so, its writes restarted, a database emptied, given a
data key, entries of a whole copy or a copy of a write, its position kept or given up, a
database opened, and one written as the primary writes it. -/
inductive Effect (κ ν : Type)
  | hold (role : Role) (epoch : ℕ)
  | hear (epoch : ℕ)
  | keepEpoch (epoch : ℕ)
  | mark
  | unmark
  | restart (history : ℕ) (next : Database → ℕ)
  | wipe (database : Database)
  | key (database : Database) (dataKey : ℕ)
  | entries (database : Database) (entries : List (κ × ν))
  | copy (database : Database) (number : ℕ) (changes : List (Change κ ν))
  | position (database : Database) (history next : ℕ)
  | giveUp (database : Database)
  | opens (database : Database) (dataKey : ℕ)
  | write (database : Database) (changes : List (Change κ ν))

namespace StorageNode

def onEngine (node : StorageNode κ ν) (database : Database)
    (f : Engine κ ν → Engine κ ν) : StorageNode κ ν :=
  { node with engines := Function.update node.engines database (f (node.engines database)) }

def perform (bounds : Bounds κ ν) (node : StorageNode κ ν) : Effect κ ν → StorageNode κ ν
  | .hold role epoch =>
      { node with
        role, epoch := max node.epoch epoch, lent := node.lent || decide (role = .primary) }
  | .hear epoch => { node with epoch := max node.epoch epoch }
  | .keepEpoch epoch => node.onEngine runtime fun engine => { engine with epoch := some epoch }
  | .mark => node.onEngine runtime fun engine => { engine with copying := true }
  | .unmark => node.onEngine runtime fun engine => { engine with copying := false }
  | .restart history next => { node with copies := .restart history next }
  -- page after page, until nothing is left but the mark of the copy under way
  | .wipe database =>
      node.onEngine database fun engine => { Engine.empty with copying := engine.copying }
  | .key database dataKey =>
      node.onEngine database fun engine => { engine with dataKey := some dataKey }
  | .entries database entries =>
      node.onEngine database fun engine => engine.apply (Replay.puts entries)
  | .copy database number changes =>
      { node.onEngine database fun engine =>
          { engine.apply changes with position := some (node.copies.history, number + 1) } with
        copies := node.copies.keep bounds database changes }
  | .position database history next =>
      node.onEngine database fun engine => { engine with position := some (history, next) }
  | .giveUp database => node.onEngine database fun engine => { engine with position := none }
  | .opens database dataKey =>
      node.onEngine database fun engine => { engine with dataKey := engine.dataKey <|> dataKey }
  | .write database changes =>
      { node.onEngine database fun engine => engine.apply changes with
        copies := node.copies.written bounds database changes }

def performAll (bounds : Bounds κ ν) (node : StorageNode κ ν) (effects : List (Effect κ ν)) :
    StorageNode κ ν :=
  effects.foldl (perform bounds) node

/-- `role` held from now, in `epoch`, the epoch kept where it is later than the one held. -/
def takeUp (node : StorageNode κ ν) (role : Role) (epoch : ℕ) : List (Effect κ ν) :=
  .hold role epoch :: if node.epoch < epoch then [.keepEpoch epoch] else []

/-- The primary heard, in `epoch` where it says one. -/
def heard (node : StorageNode κ ν) (epoch : ℕ) : List (Effect κ ν) :=
  .hear epoch :: if node.epoch < epoch then [.keepEpoch epoch] else []

/-! ## Following -/

/-- A whole copy under way: the history it brings, and where each database's copies follow
from, once said. -/
structure Whole where
  history : ℕ
  next : Database → Option ℕ

/-- Every database emptied and given its primary's data key. -/
def wiped (keys : Database → ℕ) : List (Effect κ ν) :=
  ([0, 1, 2] : List Database).flatMap fun database =>
    [.wipe database, .key database (keys database)]

/-- A whole copy taken: each database's position kept, then the copy no longer under way, and
its writes numbered on from where its copies follow. -/
def copiedWhole (whole : Whole) : List (Effect κ ν) :=
  let next := fun database => (whole.next database).getD 1
  (([0, 1, 2] : List Database).map fun database =>
    .position database whole.history (next database)) ++ [.unmark, .restart whole.history next]

/-- What a standby does with a frame, and the whole copy under way after it; what ends its
following where the frame does. -/
def taking (node : StorageNode κ ν) (whole : Option Whole) :
    Shipped κ ν → List (Effect κ ν) × Except Stopped (Option Whole)
  | .beat epoch => (node.heard epoch, .ok whole)
  | .copy database number changes =>
      if number = node.copies.next database then
        (.copy database number changes :: node.heard 0, .ok whole)
      else ([], .error (.lost number (node.copies.next database)))
  -- nothing held is any history's until the copy is whole
  | .whole history epoch keys =>
      let begun : List (Effect κ ν) := [.mark, .restart 0 fun _ => 1]
      match keys with
      | [k₀, k₁, k₂] =>
          (begun ++ (wiped ![k₀, k₁, k₂] ++ node.heard epoch),
            .ok (some ⟨history, fun _ => none⟩))
      | _ => (begun, .error (.keys keys.length))
  | .entries database entries => ([.entries database entries], .ok whole)
  | .copied database next =>
      match whole with
      | none => ([], .error .noStart)
      | some whole =>
          let taken : Whole :=
            { whole with next := Function.update whole.next database (some next) }
          if ∀ database, (taken.next database).isSome then (copiedWhole taken, .ok none)
          else ([], .ok (some taken))
  | .declined reason => ([], .error (.declined reason))

/-- Where it asks to be followed from. -/
def asks (node : StorageNode κ ν) : Follow := ⟨node.epoch, node.copies.history, node.copies.next⟩

/-! ## Being promoted -/

/-- A promotion before it is the primary: its writes numbered on in the history it followed, or
in `fresh` where it followed none, its positions given up, its databases opened over what it
copied, with a data key where one has none, and brought to this build's schema version by the
writes `upgrades`. -/
def opening (node : StorageNode κ ν) (fresh : ℕ) (keys : Database → ℕ)
    (upgrades : List (Database × List (Change κ ν))) : List (Effect κ ν) :=
  (if node.copies.history = 0 then [.restart fresh fun _ => 1] else []) ++
    (([0, 1, 2] : List Database).map .giveUp ++
      ((([0, 1, 2] : List Database).map fun database => .opens database (keys database)) ++
        upgrades.map fun write => .write write.1 write.2))

/-- Promoted in `epoch`, unless its whole copy was cut short. -/
def promote (node : StorageNode κ ν) (epoch fresh : ℕ) (keys : Database → ℕ)
    (upgrades : List (Database × List (Change κ ν))) : List (Effect κ ν) :=
  if node.isCopying then [] else node.opening fresh keys upgrades ++ node.takeUp .primary epoch

end StorageNode

/-! ## Shipping -/

/-- The most entries a page of a whole copy carries. -/
def pageMost : ℕ := 256

/-- The most bytes of copies one turn hands on of a database. -/
def turnMost : ℕ := 4 * 1024 * 1024

/-- What a primary does next for a standby: copy a database whole from its start, or from past a
key, take a turn, or hand on a database's writes in one, with whether it handed any on. -/
inductive Phase (κ : Type)
  | begins (database : Database)
  | scans (database : Database) (passed : Option κ)
  | turns
  | hands (database : Database) (handed : Bool)
  deriving DecidableEq

/-- A primary handing its writes to a standby: the epoch it does so in, and the next write of
each database. -/
structure Shipping (κ : Type) where
  epoch : ℕ
  phase : Phase κ
  next : Database → ℕ

/-- What follows a database in the order they are copied and handed on. -/
def following {α : Type} (database : Database) (next : Database → α) (last : α) : α :=
  if database = 0 then next 1 else if database = 1 then next 2 else last

namespace StorageNode

/-- A standby that asks to follow: refused, followed from where it is, or copied whole. -/
def accepts (node : StorageNode κ ν) (asked : Follow) :
    Except Refusal (Shipping κ × List (Shipped κ ν)) :=
  if node.role ≠ .primary then .error .standing
  else if node.epoch < asked.epoch then .error (.before node.epoch asked.epoch)
  else match node.copies.follows asked.history asked.next with
    | .ok _ => .ok (⟨node.epoch, .turns, asked.next⟩, [])
    | .error _ =>
        match (node.engines 0).dataKey, (node.engines 1).dataKey, (node.engines 2).dataKey with
        | some k₀, some k₁, some k₂ =>
            .ok (⟨node.epoch, .begins 0, fun _ => 1⟩,
              [.whole node.copies.history node.epoch [k₀, k₁, k₂]])
        | _, _, _ => .error .keyless

/-- The next step of its shipping, and the frames it sends; `idle` where a turn that handed
nothing on waited a beat out. -/
def ships (bounds : Bounds κ ν) (node : StorageNode κ ν) (shipping : Shipping κ) (idle : Bool) :
    Except Refusal (Shipping κ × List (Shipped κ ν)) :=
  match shipping.phase with
  | .begins database =>
      .ok ({ shipping with
        phase := .scans database none
        next := Function.update shipping.next database (node.copies.next database) }, [])
  | .scans database passed =>
      let page := (node.engines database).entries.page passed pageMost
      match OrderedMap.lastOf page with
      | none =>
          .ok ({ shipping with phase := following database .begins .turns },
            [.copied database (shipping.next database)])
      | some last =>
          .ok ({ shipping with phase := .scans database (some last) }, [.entries database page])
  | .turns =>
      if node.role ≠ .primary then .error .steppedDown
      else .ok ({ shipping with phase := .hands 0 false }, [])
  | .hands database handed =>
      match node.copies.since bounds database (shipping.next database) turnMost with
      | .error _ => .error .behind
      | .ok copies =>
          let handed := handed || !copies.isEmpty
          let beat : List (Shipped κ ν) :=
            if database = 2 ∧ handed = false ∧ idle = true then [.beat shipping.epoch] else []
          .ok ({ shipping with
            phase := following database (fun d => .hands d handed) .turns
            next := Function.update shipping.next database
              ((copies.getLast?.map fun copy => copy.1 + 1).getD (shipping.next database)) },
            (copies.map fun copy => .copy database copy.1 copy.2) ++ beat)

end StorageNode

end XmipPersist.Standby
