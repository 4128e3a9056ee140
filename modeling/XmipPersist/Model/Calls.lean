import XmipPersist.Model.Cluster

/-! # The callers of one client

The callers that share one client of the Storage nodes of a cluster, each asking its request of
one Storage node after another, over connections they keep and take from one another, while the
Storage nodes settle which is the primary.
-/

namespace XmipPersist.Standby

variable {κ ν : Type} [LinearOrder κ]

namespace Client

/-- A connection to a Storage node's process and, for the record, the latest epoch the client had
met once it was opened. -/
structure Connection where
  process : ℕ
  met : ℕ
  deriving DecidableEq

/-- What a Storage node that was asked was then, and the latest epoch the client had met. -/
structure Asked where
  primary : Bool
  epoch : ℕ
  met : ℕ
  deriving DecidableEq

/-- Where a caller's request stands: no request, about to be asked of the next of the Storage
nodes left, going over a connection, over one to be opened, over one whose Storage node is asked
what it is, over one whose Storage node answered that, or on its way back. -/
inductive Progress
  | done
  | turn (rest : List ℕ)
  | through (place : ℕ) (connection : Connection) (kept : Bool) (rest : List ℕ)
  | connect (place : ℕ) (rest : List ℕ)
  | asks (place process : ℕ) (rest : List ℕ)
  | told (place process : ℕ) (standing : Standing) (rest : List ℕ)
  | answered (place : ℕ) (connection : Connection) (kept : Bool) (asked : Asked) (rest : List ℕ)

end Client

open Client (Asked Progress)

/-- The Storage nodes of a cluster and a client of them: which is asked next, the connections to
each that no request is using, which said they are standbys, the latest epoch met, where each
caller's request stands and, for the record, what each Storage node asked and each one that
answered was as it was asked. -/
structure Calls (κ ν : Type) [LinearOrder κ] where
  cluster : Cluster κ ν
  next : ℕ
  idle : ℕ → List Client.Connection
  standby : ℕ → Bool
  epoch : ℕ
  callers : ℕ → Progress
  asked : List Asked
  answered : List Asked

/-- What happens: something among the Storage nodes, a statement begun, a caller's request begun,
of the Storage node of its statement alone where it is one of a statement, or its next step, with
what was sent arriving or not. -/
inductive CallEvent (κ ν : Type)
  | cluster (event : ClusterEvent κ ν)
  | pin
  | ask (caller : ℕ) (pinned : Option ℕ) (passedOver : ℕ → Bool)
  | step (caller : ℕ) (arrives : Bool)

namespace Calls

/-- A client made of the Storage nodes listed. -/
def opened (cluster : Cluster κ ν) : Calls κ ν :=
  ⟨cluster, 0, fun _ => [], fun _ => false, 0, fun _ => .done, [], []⟩

/-- The Storage nodes in the order a request asks them: from the next round robin, one that said
it is a standby after those that did not, and one that did not answer lately last. -/
def turn (s : Calls κ ν) (passedOver : ℕ → Bool) : List ℕ :=
  let order := (List.range s.cluster.listed).map fun step => (s.next + step) % s.cluster.listed
  (order.filter fun place => !passedOver place && !s.standby place) ++
    ((order.filter fun place => !passedOver place && s.standby place) ++
      order.filter fun place => passedOver place)

def set (s : Calls κ ν) (caller : ℕ) (progress : Progress) : Calls κ ν :=
  { s with callers := Function.update s.callers caller progress }

/-- A request asked of the next Storage node: over a connection kept from before, or a fresh
one. -/
def take (s : Calls κ ν) (caller place : ℕ) (rest : List ℕ) : Calls κ ν :=
  match (s.idle place).getLast? with
  | some connection =>
      { s.set caller (.through place connection true rest) with
        idle := Function.update s.idle place (s.idle place).dropLast }
  | none => s.set caller (.connect place rest)

/-- Whether what is sent to a process at a place arrives. -/
def reaches (s : Calls κ ν) (place process : ℕ) (arrives : Bool) : Bool :=
  arrives && (s.cluster.members place).up &&
    decide ((s.cluster.members place).node.process = process)

/-- What a Storage node asked now is. -/
def asks (s : Calls κ ν) (place : ℕ) : Asked :=
  let standing := (s.cluster.members place).node.standing
  ⟨standing.primary, standing.epoch, s.epoch⟩

/-- A connection whose Storage node did not answer: one kept from before is opened once afresh,
before the next Storage node is asked. -/
def failed (s : Calls κ ν) (caller place : ℕ) (kept : Bool) (rest : List ℕ) : Calls κ ν :=
  s.set caller (if kept then .connect place rest else .turn rest)

/-- A new connection's Storage node held to what it said it is: a standby is not asked, nor a
primary of an epoch before the latest one met. -/
def hold (s : Calls κ ν) (caller place process : ℕ) (standing : Standing) (rest : List ℕ) :
    Calls κ ν :=
  if standing.primary = false then
    { s.set caller (.turn rest) with standby := Function.update s.standby place true }
  else
    { s.set caller (if standing.epoch < s.epoch then .turn rest
        else .through place ⟨process, max s.epoch standing.epoch⟩ false rest) with
      epoch := max s.epoch standing.epoch }

/-- What came back: the connection is kept, and an answer that says its Storage node is a standby
is no answer. -/
def receive (s : Calls κ ν) (caller place : ℕ) (connection : Client.Connection) (asked : Asked)
    (rest : List ℕ) : Calls κ ν :=
  let kept := { s with
    idle := Function.update s.idle place (s.idle place ++ [connection])
    standby := Function.update s.standby place !asked.primary }
  if asked.primary then
    { kept.set caller .done with answered := s.answered ++ [{ asked with met := s.epoch }] }
  else kept.set caller (.turn rest)

/-- A request's next step. -/
def step (s : Calls κ ν) (caller : ℕ) (arrives : Bool) : Calls κ ν :=
  match s.callers caller with
  | .done => s
  | .turn [] => s.set caller .done
  | .turn (place :: rest) => s.take caller place rest
  | .through place connection kept rest =>
      if s.reaches place connection.process arrives then
        { s.set caller (.answered place connection kept (s.asks place) rest) with
          asked := s.asked ++ [s.asks place] }
      else s.failed caller place kept rest
  | .connect place rest =>
      if arrives && (s.cluster.members place).up then
        s.set caller (.asks place (s.cluster.members place).node.process rest)
      else s.set caller (.turn rest)
  | .asks place process rest =>
      if s.reaches place process arrives then
        s.set caller (.told place process (s.cluster.members place).node.standing rest)
      else s.set caller (.turn rest)
  | .told place process standing rest =>
      if arrives then s.hold caller place process standing rest else s.set caller (.turn rest)
  | .answered place connection kept asked rest =>
      if arrives then s.receive caller place connection asked rest
      else s.failed caller place kept rest

variable (bounds : Bounds κ ν)

def after (s : Calls κ ν) : CallEvent κ ν → Calls κ ν
  | .cluster event => { s with cluster := s.cluster.after bounds event }
  | .pin => { s with next := s.next + 1 }
  | .ask caller pinned passedOver =>
      match s.callers caller, pinned with
      | .done, some place => s.set caller (.turn [place])
      | .done, none => { s.set caller (.turn (s.turn passedOver)) with next := s.next + 1 }
      | _, _ => s
  | .step caller arrives => s.step caller arrives

def run (s : Calls κ ν) (events : List (CallEvent κ ν)) : Calls κ ν :=
  events.foldl (after bounds) s

end Calls

end XmipPersist.Standby
