import XmipPersist.Model.Schema

/-! # The schema version a database holds

Each version a database reached is a row of its own. The version it holds is searched for from
the build's own: upward while the rows follow one another, or downward to the first there is.
-/

namespace XmipPersist.Schema

/-- A build's schema version. -/
structure Build where
  version : ℕ
  one_le : 1 ≤ version
  le_max : version ≤ u32Max

/-- Why a database is not opened: refused in words, or no number follows the last. -/
inductive Unopened
  | refused (error : PersistError)
  | overflowed

section Found

variable {ε : Type} (recorded : ℕ → Except ε Bool)

/-- The last of the versions recorded one after another from `held` on, `left` of them to ask. -/
def upward : ℕ → ℕ → Except ε ℕ
  | 0, held => .ok held
  | left + 1, held => do
      if ← recorded (held + 1) then upward left (held + 1) else pure held

/-- The highest version recorded below `version`. -/
def downward : ℕ → Except ε (Option ℕ)
  | 0 => .ok none
  | 1 => .ok none
  | version + 1 => do
      if ← recorded version then pure (some version) else downward version

/-- The version a database holds, asked of it one at a time. -/
def found (built : ℕ) : Except ε (Option ℕ) := do
  if ← recorded built then some <$> upward recorded (u32Max - built) built
  else downward recorded built

end Found

/-- The versions recorded to reach `built`: the first and how many of them. -/
def steps (database : Database) (held : Option ℕ) (built : ℕ) : Except Unopened (ℕ × ℕ) :=
  match held with
  | none => .ok (built, 1)
  | some held =>
      if built < held then
        .error (.refused (.schema ("the " ++ database.word ++ " database holds schema version " ++
          toString held ++ ", newer than this build's " ++ toString built ++
          ": start it with a build of version " ++ toString held ++
          " or later; a database is never stepped down")))
      else if held = u32Max then .error .overflowed
      else .ok (held + 1, built - held)

/-- The rows of `schema_version`: when each version was recorded. -/
abbrev Rows := ℕ → Option ℕ

def Rows.recorded (rows : Rows) (version : ℕ) : Except Unopened Bool := .ok (rows version).isSome

/-- The rows with a row for each version of a range. -/
def Rows.write (rows : Rows) (range : ℕ × ℕ) (now : ℕ) : Rows :=
  fun version => if range.1 ≤ version ∧ version < range.1 + range.2 then some now else rows version

/-- A database opened by a build: its version now, and its rows. -/
def reached (rows : Rows) (database : Database) (built now : ℕ) : Except Unopened (ℕ × Rows) := do
  let held ← found rows.recorded built
  let range ← steps database held built
  pure (built, rows.write range now)

/-- The rows once a build has opened the database, or been refused. -/
def opened (database : Database) (rows : Rows) (opens : Build × ℕ) : Rows :=
  match reached rows database opens.1.version opens.2 with
  | .ok (_, rows') => rows'
  | .error _ => rows

end XmipPersist.Schema
