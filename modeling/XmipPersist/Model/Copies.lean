import XmipPersist.Library.Replay
import XmipPersist.Model.Record

/-! # A Storage node's writes, numbered and kept for its standbys

Each database's writes in the order its engine took them, and what each engine holds: the
entries of its store, in the order of their keys, and the store's own keys, which are never
copied.
-/

namespace XmipPersist.Standby

variable {κ ν : Type}

/-- The databases a Storage node keeps: the runtime, the administration and the audit database. -/
abbrev Database := Fin 3

instance Database.neZero : NeZero 3 := ⟨by decide⟩

theorem Database.each (d : Database) : d = 0 ∨ d = 1 ∨ d = 2 := by
  fin_cases d <;> simp

def runtime : Database := 0

/-- A key, and its value or that it is removed. -/
abbrev Change (κ ν : Type) := κ × Option ν

/-! ## Writes as kept -/

/-- What bounds the writes a Storage node keeps: how many bytes a change has, and the most of
them each database's writes keep. -/
structure Bounds (κ ν : Type) where
  bytes : Change κ ν → ℕ
  kept : ℕ

/-- One write as kept: its number, and its changes. -/
abbrev Copy (κ ν : Type) := ℕ × List (Change κ ν)

/-- `size` of a write's changes. -/
def Bounds.size (bounds : Bounds κ ν) (changes : List (Change κ ν)) : ℕ :=
  (changes.map bounds.bytes).sum

/-- One database's writes as kept, oldest first: each numbered one after the one before, up to
the number the next write takes. -/
structure Kept (κ ν : Type) where
  next : ℕ
  writes : List (Copy κ ν)
  le_next : writes.length ≤ next
  numbered : writes.map Prod.fst = List.range' (next - writes.length) writes.length

namespace Kept

def fresh (next : ℕ) : Kept κ ν := ⟨next, [], by simp, by simp⟩

/-- How many of the oldest writes are dropped: while they have more bytes than are kept, but
for the last of them. -/
def dropped (bounds : Bounds κ ν) : List (Copy κ ν) → ℕ
  | w :: w' :: rest =>
      if bounds.kept < ((w :: w' :: rest).map fun w => bounds.size w.2).sum then
        dropped bounds (w' :: rest) + 1
      else 0
  | _ => 0

theorem dropped_le (bounds : Bounds κ ν) (writes : List (Copy κ ν)) :
    dropped bounds writes ≤ writes.length := by
  fun_induction dropped bounds writes <;> simp_all

/-- `changes` kept under the next number. -/
def keep (bounds : Bounds κ ν) (kept : Kept κ ν) (changes : List (Change κ ν)) : Kept κ ν where
  next := kept.next + 1
  writes := (kept.writes ++ [(kept.next, changes)]).drop
    (dropped bounds (kept.writes ++ [(kept.next, changes)]))
  le_next := by
    have := kept.le_next
    simp only [List.length_drop, List.length_append, List.length_singleton]
    omega
  numbered := by
    have hle := kept.le_next
    have hall : (kept.writes ++ [(kept.next, changes)]).map Prod.fst =
        List.range' (kept.next - kept.writes.length) (kept.writes.length + 1) := by
      rw [List.map_append, kept.numbered, ← List.range'_append_1]
      simp only [List.map_cons, List.map_nil, List.range'_one]
      congr 2
      omega
    have hdrop := dropped_le bounds (kept.writes ++ [(kept.next, changes)])
    rw [List.length_append, List.length_singleton] at hdrop
    rw [List.map_drop, hall, List.drop_range']
    simp only [List.length_drop, List.length_append, List.length_singleton]
    congr 1
    omega

/-- The number of the oldest write kept. -/
def first (kept : Kept κ ν) : ℕ := (kept.writes.head?.map Prod.fst).getD kept.next

end Kept

/-- Why a standby cannot take its primary's writes on from where it is. -/
inductive Behind
  | another
  | past
  deriving DecidableEq

/-- A Storage node's writes: the history their numbers count, and each database's. -/
structure Copies (κ ν : Type) where
  history : ℕ
  kept : Database → Kept κ ν

namespace Copies

/-- The number the next write of each database takes. -/
def next (copies : Copies κ ν) (database : Database) : ℕ := (copies.kept database).next

/-- `history` started afresh at `next`, keeping nothing. -/
def restart (history : ℕ) (next : Database → ℕ) : Copies κ ν :=
  ⟨history, fun database => .fresh (next database)⟩

/-- `changes` of `database` kept under the next number. -/
def keep (bounds : Bounds κ ν) (copies : Copies κ ν) (database : Database)
    (changes : List (Change κ ν)) : Copies κ ν :=
  { copies with
    kept := Function.update copies.kept database ((copies.kept database).keep bounds changes) }

/-- The changes a write made kept, the store's own left out; one that changed nothing else is
not numbered. -/
def written (bounds : Bounds κ ν) (copies : Copies κ ν) (database : Database)
    (changes : List (Change κ ν)) : Copies κ ν :=
  if changes = [] then copies else copies.keep bounds database changes

/-- The writes handed on after ones of `bytes` bytes, up to `most` bytes. -/
def more (bounds : Bounds κ ν) (most : ℕ) : ℕ → List (Copy κ ν) → List (Copy κ ν)
  | _, [] => []
  | bytes, w :: rest =>
      if most ≤ bytes then [] else w :: more bounds most (bytes + bounds.size w.2) rest

/-- The writes of `database` from the number `from'` on, up to `most` bytes but at least one
where there is one. -/
def since (bounds : Bounds κ ν) (copies : Copies κ ν) (database : Database) (from' most : ℕ) :
    Except Behind (List (Copy κ ν)) :=
  let kept := copies.kept database
  if kept.next ≤ from' then .ok []
  else if from' < kept.first then .error .past
  else match kept.writes.dropWhile fun w => w.1 < from' with
    | [] => .ok []
    | w :: rest => .ok (w :: more bounds most (bounds.size w.2) rest)

/-- Whether a standby of `history` whose next writes are `next` can take these writes on from
there. -/
def follows (copies : Copies κ ν) (history : ℕ) (next : Database → ℕ) : Except Behind Unit :=
  if history ≠ copies.history then .error .another
  else ([0, 1, 2] : List Database).forM fun database =>
    let kept := copies.kept database
    if kept.next < next database then .error .another
    else if next database < kept.first then .error .past
    else .ok ()

end Copies

/-! ## Engines -/

/-- One database's engine: its store's entries, and the store's own keys, each with its value
where it is kept: its data key, how far it copied as a standby, the latest epoch its Storage
node met and that a whole copy is under way. -/
structure Engine (κ ν : Type) [LinearOrder κ] where
  entries : OrderedMap κ ν
  dataKey : Option ℕ
  position : Option (ℕ × ℕ)
  epoch : Option ℕ
  copying : Bool

namespace Engine

variable [LinearOrder κ]

def empty : Engine κ ν := ⟨.empty, none, none, none, false⟩

/-- A batch of the store's changes. -/
def apply (engine : Engine κ ν) (changes : List (Change κ ν)) : Engine κ ν :=
  { engine with entries := engine.entries.apply changes }

end Engine

end XmipPersist.Standby
