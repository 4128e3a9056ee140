import XmipPersist.Model.Record

/-! # The writes waiting for a Storage node's next batch, and who decides it

The caller that finds no batch being decided leads: it decides every write waiting then as one batch,
until its own is answered, and hands the lead to the first write still waiting. Each step is one lock,
one message on a caller's channel, or one answer of a batch; a batch may panic at any point of it.
-/

namespace XmipPersist.Waiting

variable {ω ρ : Type}

/-- The most writes one batch takes. -/
def groupMost : ℕ := 1024

/-- What a write's caller is told: what its write decided, or to lead. -/
inductive Answer (ρ : Type)
  | decided (decided : Except PersistError ρ)
  | lead

/-- The answer of a write whose batch failed before it was answered. -/
def failed : PersistError :=
  .engine "xmip-storage" "the writer failed deciding the batch this write was in"

/-- Where a caller of `decided` is: it waits on its channel, takes the writer's lock, takes the
writes waiting, decides a batch with so many of its writes to answer, looks for its own answer or
hands the lead on. -/
inductive Caller (ω ρ : Type)
  | idle
  | waits
  | locks
  | takes
  | commits (left : List (ω × ℕ))
  | looks
  | hands (own : Except PersistError ρ)
  | done (own : Except PersistError ρ)

end Waiting

/-- The writes waiting, each with its caller, and whether one leads; who holds the writer; each
caller's channel, one message at most, and whether its reply is dropped; where each caller is; and
what was submitted, taken as groups and answered so far, a write left unanswered by a panic with
none. A caller's number is its place among the writes submitted. -/
structure Waiting (ω ρ : Type) where
  writes : List (ω × ℕ)
  leading : Bool
  writer : Option ℕ
  slot : ℕ → Option (Waiting.Answer ρ)
  closed : ℕ → Bool
  caller : ℕ → Waiting.Caller ω ρ
  submitted : List ω
  groups : List (List (ω × ℕ))
  answers : List ((ω × ℕ) × Option (Except PersistError ρ))

namespace Waiting

/-- What happens: a write submitted, a caller going on, or of a batch being decided the next write
answered, or a panic. -/
inductive Event (ω ρ : Type)
  | decided (op : ω)
  | goes (i : ℕ)
  | answers (i : ℕ) (decided : Except PersistError ρ)
  | panics (i : ℕ)

def new : Waiting ω ρ where
  writes := []
  leading := false
  writer := none
  slot _ := none
  closed _ := false
  caller _ := .idle
  submitted := []
  groups := []
  answers := []

/-- Where a caller is next. -/
def placed (s : Waiting ω ρ) (i : ℕ) (caller : Caller ω ρ) : Waiting ω ρ :=
  { s with caller := Function.update s.caller i caller }

/-- What a caller's channel holds is received. -/
def received (s : Waiting ω ρ) (i : ℕ) : Waiting ω ρ :=
  { s with slot := Function.update s.slot i none }

def returned : Caller ω ρ → Bool
  | .done _ => true
  | _ => false

/-- The lead to the first write waiting whose caller has room for it; none leads where none
waits. -/
def handOn (s : Waiting ω ρ) : List (ω × ℕ) → Waiting ω ρ
  | [] => { s with writes := [], leading := false }
  | (op, i) :: rest =>
      if (s.slot i).isNone && !returned (s.caller i) then
        { s with writes := (op, i) :: rest, slot := Function.update s.slot i (some .lead) }
      else handOn { s with closed := Function.update s.closed i true } rest

/-- A caller's next step, where it can take one. -/
def goes (s : Waiting ω ρ) (i : ℕ) : Option (Waiting ω ρ) :=
  match s.caller i with
  | .idle => none
  | .waits =>
      match s.slot i with
      | some (.decided decided) => some ((s.received i).placed i (.done decided))
      | some .lead => some ((s.received i).placed i .locks)
      | none => if s.closed i then some (s.placed i (.done (.error failed))) else none
  | .locks => if s.writer.isNone then some ({ s with writer := some i }.placed i .takes) else none
  | .takes =>
      if s.writes.isEmpty then some ({ s with leading := false, writer := none }.placed i .waits)
      else
        let group := s.writes.take groupMost
        some ({ s with
          writes := s.writes.drop groupMost
          groups := s.groups ++ [group] }.placed i (.commits group))
  | .commits [] => some (s.placed i .looks)
  | .commits (_ :: _) => none
  | .looks =>
      match s.slot i with
      | some (.decided decided) =>
          some ({ s.received i with writer := none }.placed i (.hands decided))
      | some .lead => some ((s.received i).placed i .takes)
      | none =>
          if s.closed i then some ({ s with writer := none }.placed i (.hands (.error failed)))
          else some (s.placed i .takes)
  | .hands own => some ((s.handOn s.writes).placed i (.done own))
  | .done _ => none

/-- The next step, where it can be taken: an answer finds room in its caller's channel, and a panic
drops the replies not yet answered. -/
def after (s : Waiting ω ρ) : Event ω ρ → Option (Waiting ω ρ)
  | .decided op =>
      let i := s.submitted.length
      some ({ s with
        writes := s.writes ++ [(op, i)]
        leading := true
        submitted := s.submitted ++ [op] }.placed i (if s.leading then .waits else .locks))
  | .goes i => s.goes i
  | .answers i decided =>
      match s.caller i with
      | .commits ((op, j) :: rest) =>
          if (s.slot j).isNone then
            some ({ s with
              slot := Function.update s.slot j (some (.decided decided))
              closed := Function.update s.closed j true
              answers := s.answers ++ [((op, j), some decided)] }.placed i (.commits rest))
          else none
      | _ => none
  | .panics i =>
      match s.caller i with
      | .commits left =>
          some ({ s with
            closed := fun j => s.closed j || left.any fun write => write.2 == j
            answers := s.answers ++ left.map fun write => (write, none) }.placed i .looks)
      | _ => none

def run (s : Waiting ω ρ) (events : List (Event ω ρ)) : Option (Waiting ω ρ) :=
  events.foldlM after s

/-! ## Who leads -/

/-- Whether a caller leads, or has been told to. -/
def leads (s : Waiting ω ρ) (i : ℕ) : Bool :=
  match s.caller i, s.slot i with
  | .idle, _ => false
  | .waits, some .lead => true
  | .waits, _ => false
  | .done _, _ => false
  | _, _ => true

/-- Whether a caller decides a batch. -/
def commits (s : Waiting ω ρ) (i : ℕ) : Bool :=
  match s.caller i with
  | .commits _ => true
  | _ => false

/-- The caller an event is a step of. -/
def Event.caller : Event ω ρ → Option ℕ
  | .decided _ => none
  | .goes i => some i
  | .answers i _ => some i
  | .panics i => some i

/-- How many steps of a run the caller that leads takes. -/
def led (s : Waiting ω ρ) : List (Event ω ρ) → ℕ
  | [] => 0
  | event :: events =>
      (if event.caller.any s.leads then 1 else 0) +
        match s.after event with
        | none => 0
        | some s' => led s' events

end Waiting

end XmipPersist
