import XmipPersist.Model.Cluster

/-! # The databases of a primary, lent

An operation is lent the databases of a primary as it begins, and a statement takes them for all of
its operations; both keep what they were lent until they end, whatever the Storage node becomes
meanwhile.
-/

namespace XmipPersist.Standby

variable {κ ν : Type} [LinearOrder κ]

/-- The databases of a process lent: for one operation, which a stop waits for, or pinned by a
statement, which it does not. -/
structure Loan where
  place : ℕ
  process : ℕ
  pinned : Bool
  deriving DecidableEq

/-- The Storage nodes of a cluster, and what is lent of them: one loan for each operation under
way and each statement. -/
structure Lending (κ ν : Type) [LinearOrder κ] where
  cluster : Cluster κ ν
  loans : List Loan

/-- What happens: something among the Storage nodes, a write aside; the databases of one lent to
an operation or pinned by a statement, written as one that was lent them writes them, and given
back. -/
inductive LendingEvent (κ ν : Type)
  | cluster (event : ClusterEvent κ ν)
  | lend (place : ℕ) (pinned : Bool)
  | write (loan : Loan) (database : Database) (changes : List (Change κ ν))
  | giveBack (loan : Loan)

namespace Loan

/-- Whether the process it was lent by still runs. -/
def live (loan : Loan) (c : Cluster κ ν) : Bool :=
  (c.members loan.place).up && decide ((c.members loan.place).node.process = loan.process)

end Loan

namespace Lending

variable (bounds : Bounds κ ν)

def opened (cluster : Cluster κ ν) : Lending κ ν := ⟨cluster, []⟩

/-- The databases of the Storage node at a place, while it is the primary and not stopping. -/
def lent (s : Lending κ ν) (place : ℕ) (pinned : Bool) : Option Loan :=
  let m := s.cluster.members place
  if m.up = true ∧ m.node.standing.primary = true then
    some ⟨place, m.node.process, pinned⟩
  else none

def after (s : Lending κ ν) : LendingEvent κ ν → Lending κ ν
  | .cluster (.write _ _ _) => s
  | .cluster event => { s with cluster := s.cluster.after bounds event }
  | .lend place pinned => { s with loans := s.loans ++ (s.lent place pinned).toList }
  | .write loan database changes =>
      if loan ∈ s.loans ∧ loan.live s.cluster = true then
        { s with cluster := s.cluster.after bounds (.write loan.place database changes) }
      else s
  | .giveBack loan => { s with loans := s.loans.erase loan }

def run (s : Lending κ ν) (events : List (LendingEvent κ ν)) : Lending κ ν :=
  events.foldl (after bounds) s

end Lending

end XmipPersist.Standby
