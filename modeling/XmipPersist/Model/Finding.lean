import XmipPersist.Model.Following

/-! # Settling which Storage node is the primary

Each Storage node asks every one listed what it is now, follows a primary that answers and is
promoted where none does and it is the one to be; a primary steps down for one of a later epoch.
-/

namespace XmipPersist.Standby

variable {κ ν : Type} [LinearOrder κ]

/-- What one Storage node listed answered, at its place in the list. -/
structure Answered where
  place : ℕ
  standing : Standing
  deriving DecidableEq

namespace Answered

/-- Whether another answered holds more: a later epoch, or more writes in the same, or as much
and is listed before. -/
def below (one other : Answered) : Prop :=
  one.standing.epoch < other.standing.epoch ∨
    one.standing.epoch = other.standing.epoch ∧
      (one.standing.held < other.standing.held ∨
        one.standing.held = other.standing.held ∧ other.place < one.place)

instance (one other : Answered) : Decidable (one.below other) :=
  inferInstanceAs (Decidable (_ ∨ _ ∧ (_ ∨ _ ∧ _)))

/-- The one that holds most, of those whose whole copy is not under way. -/
def best (answered : List Answered) : Option Answered :=
  (answered.filter fun a => !a.standing.copying).foldl (fun best a =>
    match best with
    | none => some a
    | some b => if b.below a then some a else some b) none

/-- The latest epoch answered. -/
def latest (answered : List Answered) : ℕ :=
  answered.foldl (fun epoch a => max epoch a.standing.epoch) 0

end Answered

/-- What a Storage node does after a round of asking. -/
inductive Found
  | follow (primary : Answered)
  | promote (epoch : ℕ)
  | rest

namespace StorageNode

/-- Whether, where no primary answered, this node is the one promoted; `silent` where no primary
was heard for the silence allowed. -/
def promotes (node : StorageNode κ ν) (answered : List Answered) (silent : Bool) : Bool :=
  match answered.find? fun a => a.standing.process = node.process with
  | none => false
  | some me =>
      if me.standing.copying then false
      else if (Answered.best answered).map Answered.place ≠ some me.place then false
      else (List.range me.place).all (fun place => answered.any fun a => a.place = place) || silent

def finds (node : StorageNode κ ν) (answered : List Answered) (silent : Bool) : Found :=
  let primary := answered.find? fun a =>
    a.standing.primary && decide (a.standing.process ≠ node.process) &&
      decide (node.epoch ≤ a.standing.epoch)
  match primary with
  | some primary => .follow primary
  | none =>
      if node.promotes answered silent then
        .promote (max (Answered.latest answered) node.epoch + 1)
      else .rest

/-- Whether a primary finds one of a later epoch. -/
def stepsDown (node : StorageNode κ ν) (answered : List Answered) : Bool :=
  answered.any fun a => a.standing.primary && decide (a.standing.process ≠ node.process) &&
    decide (node.epoch < a.standing.epoch)

end StorageNode

/-! ## The life of one Storage node -/

/-- What a Storage node's settling does: it takes up following a primary that says it is one in
`epoch`, takes a frame, follows none any more, or is promoted over what answered it, wholly or
but for its being the primary at last. -/
inductive Act (κ ν : Type)
  | meet (place epoch : ℕ)
  | frame (frame : Shipped κ ν)
  | lose
  | promote (answered : List Answered) (fresh : ℕ) (keys : Database → ℕ)
      (upgrades : List (Database × List (Change κ ν)))

/-- A Storage node over all its starts: the whole copy it has under way and, for the record, the
latest epoch it met or was the primary in, and whether since the epoch it holds was last kept a
later one was met or its runtime database emptied. -/
structure Life (κ ν : Type) [LinearOrder κ] where
  node : StorageNode κ ν
  whole : Option StorageNode.Whole
  met : ℕ
  behind : Bool

/-- What happens to a Storage node: it does something, its engine's writes kept, or it is
started again after some of its steps. -/
inductive LifeEvent (κ ν : Type)
  | act (act : Act κ ν)
  | restart (during : Act κ ν) (steps process : ℕ)

namespace Life

variable (bounds : Bounds κ ν)

def started (process : ℕ) (engines : Database → Engine κ ν) : Life κ ν :=
  let node : StorageNode κ ν := .new process engines
  ⟨node, none, node.epoch, false⟩

/-- The epoch a promotion over what answered is in. -/
def promotedIn (life : Life κ ν) (answered : List Answered) : ℕ :=
  max (Answered.latest answered) life.node.epoch + 1

/-- The steps of what it does. A primary of an epoch before the one it holds is not followed,
and a primary is promoted no more. -/
def steps (life : Life κ ν) : Act κ ν → List (Effect κ ν)
  | .meet place epoch =>
      if life.node.epoch ≤ epoch then life.node.takeUp (.standby place) epoch else []
  | .frame frame => (life.node.taking life.whole frame).1
  | .lose => life.node.takeUp .finding 0
  | .promote answered fresh keys upgrades =>
      life.node.promote (life.promotedIn answered) fresh keys upgrades

def wholeAfter (life : Life κ ν) : Act κ ν → Option StorageNode.Whole
  | .frame frame =>
      match (life.node.taking life.whole frame).2 with
      | .ok whole => whole
      | .error _ => none
  | _ => none

/-- Whether a step leaves the epoch kept behind the one held. -/
def behindAfter (life : Life κ ν) : Effect κ ν → Bool
  | .hold _ epoch => life.behind || decide (life.node.epoch < epoch)
  | .hear epoch => life.behind || decide (life.node.epoch < epoch)
  | .keepEpoch _ => false
  | .wipe database => life.behind || decide (database = runtime)
  | _ => life.behind

def step (life : Life κ ν) (effect : Effect κ ν) : Life κ ν :=
  let node := life.node.perform bounds effect
  ⟨node, life.whole, max life.met node.epoch, life.behindAfter effect⟩

def does (life : Life κ ν) (effects : List (Effect κ ν)) : Life κ ν :=
  effects.foldl (step bounds) life

/-- Where a start again finds it. -/
def cut (life : Life κ ν) (during : Act κ ν) (steps : ℕ) : Life κ ν :=
  life.does bounds ((life.steps during).take steps)

def after (life : Life κ ν) : LifeEvent κ ν → Life κ ν
  | .act act => { life.does bounds (life.steps act) with whole := life.wholeAfter act }
  | .restart during steps process =>
      let last := life.cut bounds during steps
      let next := started process last.node.engines
      { next with met := max last.met next.met }

end Life

end XmipPersist.Standby
