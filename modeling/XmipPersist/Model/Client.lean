import XmipPersist.Model.Syncer

/-! # A statement asked of one Storage node

A statement's requests all go to the Storage node it is pinned to, over a connection kept from
before where there is one, else over a fresh one whose Storage node first says what it is. The
Storage node may stop and start again meanwhile, and every connection it had ends with it.
-/

namespace XmipPersist

/-! ## What is asked -/

inductive Request
  | chunk (chunk : StreamChunk)
  | stream (last : StreamChunk) (stream : StreamRecord)
  | publish (asked : Publication)
  deriving DecidableEq

/-- A receive cycle's chunks, the last with the Stream's record, and its Publication. -/
structure Statement where
  chunks : List StreamChunk
  last : StreamChunk
  stream : StreamRecord
  publication : Publication
  deriving DecidableEq

namespace Statement

/-- The requests that write the Stream. -/
def writes (s : Statement) : List Request := s.chunks.map .chunk ++ [.stream s.last s.stream]

def requests (s : Statement) : List Request := s.writes ++ [.publish s.publication]

end Statement

/-! ## Where it stands -/

/-- Whether a Storage node that runs is the primary, and its epoch. -/
structure NodeStanding where
  primary : Bool
  epoch : ℕ
  deriving DecidableEq

/-- Where a statement stands: asking, waiting for the Publication's sync over a connection kept
from before or a fresh one, about to ask it again over a fresh one, answered, or failed. -/
inductive Progress
  | asking
  | waiting (position : ℕ) (kept : Bool) (claims : List Claim)
  | again
  | answered (claims : List Claim)
  | failed
  deriving DecidableEq

/-- A statement under way at its Storage node: how often that was started, what it is where it
runs, the connections to it that no request is using, each with the start it was opened in, the
latest epoch met, the requests left, and the ones that wrote, each with how many writes there
were then, where no crash took it back. -/
structure Asking where
  node : Node
  starts : ℕ
  standing : Option NodeStanding
  idle : List ℕ
  epoch : ℕ
  rest : List Request
  wrote : List (Request × Option ℕ)
  progress : Progress

/-- What happens while a statement is under way: anything at its Storage node, a crash aside, of
itself or for other requests; the Storage node stopped, with what it did not sync, and started
again; other requests taking and leaving connections; and the statement's next request. -/
inductive Happening
  | node (e : Event)
  | stop
  | start (standing : NodeStanding)
  | pool (idle : List ℕ)
  | ask (now : ℤ) (m : Moment) (pre post : List Op)

namespace Asking

variable (digest : Publication → Bytes)

/-- A statement begun. -/
def begun (s : Statement) (n : Node) (standing : NodeStanding) (idle : List ℕ)
    (starts epoch : ℕ) : Asking :=
  ⟨n, starts, some standing, idle, epoch, s.requests, [], .asking⟩

/-! ## Reaching the Storage node -/

/-- A fresh connection, where its Storage node says it is a primary of no epoch before the
latest met. -/
def fresh (a : Asking) : Option Asking :=
  match a.standing with
  | none => none
  | some standing =>
      if standing.primary ∧ a.epoch ≤ standing.epoch then
        some { a with epoch := standing.epoch }
      else none

/-- The connection a request goes over, taken out of the pool, and whether it was kept from
before; a kept one that fails is opened afresh. -/
def askNode (a : Asking) : Option (Bool × Asking) :=
  let left : Asking := { a with idle := a.idle.dropLast }
  match a.idle.getLast?, a.standing with
  | some opened, some standing =>
      if opened = a.starts then
        if standing.primary then some (true, left) else none
      else left.fresh.map fun a => (false, a)
  | _, _ => left.fresh.map fun a => (false, a)

/-- A connection put back into the pool. -/
def give (a : Asking) : Asking := { a with idle := a.idle ++ [a.starts] }

/-! ## One request -/

/-- A request that writes straight to the engine, done. -/
def writes (a : Asking) (request : Request) (e : Event) (rest : List Request) : Asking :=
  { a with
    node := a.node.after digest e
    rest
    wrote := a.wrote ++ [(request, some (a.node.disk.size + 1))] }.give

/-- The Publication decided in a group with others, over a connection kept from before or not:
answered where its group left nothing to write, else once its sync tells it. -/
def publishes (a : Asking) (kept : Bool) (asked : Publication) (m : Moment)
    (pre post : List Op) : Asking :=
  let ops := pre ++ Op.publish asked :: post
  let committed := a.node.writer.committed digest m ops
  let decided : Asking := { a with node := a.node.group digest m ops }
  match committed.answers[pre.length]?, committed.durable with
  | some (.ok (.claims held)), .kept => { decided.give with progress := .answered held }
  | some (.ok (.claims held)), .pending =>
      { decided with progress := .waiting (a.node.disk.size + 1) kept held }
  | _, _ => { decided.give with progress := .failed }

/-- The statement's next request asked. The Publication waits for the one writer to be done
with its last group. -/
def ask (a : Asking) (now : ℤ) (m : Moment) (pre post : List Op) : Asking :=
  match a.progress, a.rest, a.node.unhanded with
  | .asking, .chunk chunk :: rest, _ =>
      match a.askNode with
      | some (_, a') => a'.writes digest (.chunk chunk) (.chunk chunk) rest
      | none => { a with progress := .failed }
  | .asking, .stream last stream :: rest, _ =>
      match a.askNode with
      | some (_, a') => a'.writes digest (.stream last stream) (.stream last stream now) rest
      | none => { a with progress := .failed }
  | .asking, [.publish asked], none =>
      match a.askNode with
      | some (kept, a') => a'.publishes digest kept asked m pre post
      | none => { a with progress := .failed }
  | .again, [.publish asked], none =>
      match a.fresh with
      | some a' => a'.publishes digest false asked m pre post
      | none => { a with progress := .failed }
  | _, _, _ => a

/-! ## What happens around it -/

/-- What a sync come to its end tells a Publication that waits for it. -/
def told (a : Asking) : Event → Progress
  | .ends synced =>
      match a.progress with
      | .waiting position _ claims =>
          if a.node.began.isSome ∧ position ∈ a.node.taken.map Pending.position then
            if synced then .answered claims else .failed
          else a.progress
      | progress => progress
  | _ => a.progress

def nodeAfter (a : Asking) (e : Event) : Asking :=
  { a with node := a.node.after digest e, progress := a.told e }

/-- Something at the Storage node while it runs; it is stopped by `stop` alone. -/
def atNode (a : Asking) (e : Event) : Asking :=
  match a.standing, e with
  | none, _ => a
  | some _, .crash => a
  | some _, e => a.nodeAfter digest e

/-- A request the Storage node stopped on: one over a kept connection is asked again over a
fresh one. -/
def cut : Progress → Progress
  | .waiting _ kept _ => if kept then .again else .failed
  | progress => progress

/-- The Storage node stopped, what it did not sync lost with it. -/
def stop (a : Asking) : Asking :=
  { a with
    node := a.node.crash
    standing := none
    wrote := a.wrote.map fun e => (e.1, e.2.filter (· ≤ a.node.disk.kept))
    progress := cut a.progress }

def after (a : Asking) : Happening → Asking
  | .node e => a.atNode digest e
  | .stop => if a.standing.isSome then a.stop else a
  | .start standing =>
      if a.standing.isSome then a
      else { a with standing := some standing, starts := a.starts + 1 }
  | .pool idle => if ∀ opened ∈ idle, opened ≤ a.starts then { a with idle } else a
  | .ask now m pre post => a.ask digest now m pre post

def run (a : Asking) (happenings : List Happening) : Asking := happenings.foldl (after digest) a

end Asking

end XmipPersist
