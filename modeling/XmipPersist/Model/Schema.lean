import XmipPersist.Model.Record

/-! # The schema of each database, and its upgrades

Every table, column and index says the version that added it. The schema at a version is what
was added at it or before, and an upgrade makes what was added between two versions.
-/

namespace XmipPersist

/-- The kinds of database server. -/
inductive Server
  | postgreSql
  | sqlServer
  | mariaDb
  deriving DecidableEq

def Server.port : Server → ℕ
  | postgreSql => 5432
  | sqlServer => 1433
  | mariaDb => 3306

def Server.word : Server → String
  | postgreSql => "postgresql"
  | sqlServer => "mssql"
  | mariaDb => "mariadb"

namespace Schema

/-- Which of the three databases a table is in. -/
inductive Database
  | runtime
  | administration
  | audit
  deriving DecidableEq

def Database.word : Database → String
  | runtime => "runtime"
  | administration => "administration"
  | audit => "audit"

/-- What a column holds. -/
inductive Kind
  | identifier
  | bytes
  | text
  | number
  | count
  | flag
  | sequence
  | longText
  | time
  | word
  deriving DecidableEq

/-- A kind's own name. -/
def Kind.name : Kind → String
  | identifier => "Identifier"
  | bytes => "Bytes"
  | text => "Text"
  | number => "Number"
  | count => "Count"
  | flag => "Flag"
  | sequence => "Sequence"
  | longText => "LongText"
  | time => "Time"
  | word => "Word"

structure Column where
  name : String
  kind : Kind
  null : Bool
  since : ℕ
  deriving DecidableEq

/-- An index: its number, its columns in order and, where it has one, the flag a row must have
for the index to hold it. -/
structure Index where
  number : ℕ
  name : String
  columns : List String
  only : Option String
  since : ℕ
  deriving DecidableEq

structure Table where
  database : Database
  name : String
  since : ℕ
  columns : List Column
  key : List String
  unique : List String
  indexes : List Index
  deriving DecidableEq

/-! ## What a definition may not say -/

/-- What is wrong with the versions of one column of a table. -/
def columnProblems (table : Table) (column : Column) : List String :=
  (if column.since < table.since then
    [table.name ++ ": " ++ column.name ++ " is older than its table"] else []) ++
  (if table.since < column.since ∧ column.null = false then
    [table.name ++ ": " ++ column.name ++
      " is added to a table already made, so it may hold nothing"] else []) ++
  (if table.since < column.since ∧ column.name ∈ table.key ++ table.unique then
    [table.name ++ ": " ++ column.name ++
      " is a key, and a key is the table's from the first"] else [])

/-- What is wrong with the version of one index of a table. -/
def indexProblems (table : Table) (index : Index) : List String :=
  if table.since < index.since then
    [table.name ++ ": " ++ index.name ++
      " is an index added to a table already made, which an embedded Storage node cannot fill " ++
      "yet for the records it keeps"] else []

/-- The versions a table, its columns and its indexes were added at. -/
def Table.versions (table : Table) : List ℕ :=
  table.since :: table.columns.map Column.since ++ table.indexes.map Index.since

/-- What a schema at most at version `built` says that a schema may not. -/
def problems (tables : List Table) (built : ℕ) : List String :=
  tables.flatMap fun table =>
    (if ∃ since ∈ table.versions, since = 0 ∨ built < since then
      [table.name ++ ": a version is from 1 to " ++ toString built] else []) ++
    table.columns.flatMap (columnProblems table) ++ table.indexes.flatMap (indexProblems table)

/-! ## The scripts -/

/-- A column as a script says it. -/
structure ColumnSaid where
  name : String
  kind : Kind
  null : Bool
  deriving DecidableEq

def Column.said (column : Column) : ColumnSaid := ⟨column.name, column.kind, column.null⟩

/-- An index as a script says it. -/
structure IndexSaid where
  name : String
  columns : List String
  only : Option String
  deriving DecidableEq

/-- The statements of a script that make something or record a version. Each server writes them
in words of its own. -/
inductive Statement
  | createTable (table : String) (columns : List ColumnSaid) (key unique : List String)
  | addColumn (table : String) (column : ColumnSaid)
  | createIndex (table : String) (index : IndexSaid)
  | insertVersion (version : ℕ)
  deriving DecidableEq

/-- An index made: nothing where it is the table's key, and on MariaDB of every row. -/
def indexed (server : Server) (table : Table) (index : Index) : List Statement :=
  if index.columns = table.key then []
  else
    let only := match server with
      | .mariaDb => none
      | .postgreSql => index.only
      | .sqlServer => index.only
    [.createIndex table.name ⟨index.name, index.columns, only⟩]

/-- A table made as the schema holds it at version `at'`. -/
def made (server : Server) (table : Table) (at' : ℕ) : List Statement :=
  .createTable table.name ((table.columns.filter fun column => column.since ≤ at').map Column.said)
      table.key table.unique ::
    (table.indexes.filter fun index => index.since ≤ at').flatMap (indexed server table)

/-- Each of the versions after `from'` up to `upto` recorded. -/
def recorded (from' upto : ℕ) : List Statement :=
  (List.range' (from' + 1) (upto - from')).map .insertVersion

/-- The schema of a database at a version made: every table of it, and the version recorded. -/
def tablesAt (tables : List Table) (server : Server) (database : Database) (at' : ℕ) :
    List Statement :=
  (tables.filter fun table => table.database = database ∧ table.since ≤ at').flatMap
      (made server · at') ++
    recorded (at' - 1) at'

/-- What an upgrade makes of one table: the table, or its columns and indexes added between. -/
def upgraded (server : Server) (from' upto : ℕ) (table : Table) : List Statement :=
  if from' < table.since ∧ table.since ≤ upto then made server table upto
  else if upto < table.since then []
  else
    ((table.columns.filter fun column => from' < column.since ∧ column.since ≤ upto).map
      fun column => .addColumn table.name column.said) ++
    (table.indexes.filter fun index => from' < index.since ∧ index.since ≤ upto).flatMap
      (indexed server table)

/-- The upgrade of a database from one version to a later. -/
def script (tables : List Table) (server : Server) (database : Database) (from' upto : ℕ) :
    List Statement :=
  (tables.filter fun table => table.database = database).flatMap (upgraded server from' upto) ++
    recorded from' upto

/-- The upgrade scripts of every database, refused where the versions are none or the definition
says what it may not. -/
def upgradeOf (tables : List Table) (built : ℕ) (server : Server) (from' upto : ℕ) :
    Except String (List (Database × List Statement)) :=
  if from' = 0 ∨ upto ≤ from' ∨ built < upto then
    .error ("an upgrade is from one schema version to a later one, from 1 to this build's " ++
      toString built ++ "; " ++ toString from' ++ " to " ++ toString upto ++ " is none")
  else if problems tables built ≠ [] then
    .error (String.intercalate "; " (problems tables built))
  else
    .ok ([Database.runtime, .administration, .audit].map fun database =>
      (database, script tables server database from' upto))

/-! ## The fingerprint -/

section Fingerprint

/-! How the language says words in quotes, and the digest, are whatever they are. -/

variable (debug : String → String) (sha : String → List UInt8)

/-- Words as the language says a list of them. -/
def debugs (words : List String) : String := "[" ++ String.intercalate ", " (words.map debug) ++ "]"

def Column.fingerprinted (column : Column) : String :=
  column.name ++ " " ++ column.kind.name ++ " " ++ toString column.null ++ ","

def Index.fingerprinted (index : Index) : String :=
  " index " ++ toString index.number ++ " " ++ index.name ++ " " ++ debugs debug index.columns ++
    " " ++ match index.only with
      | some flag => "Some(" ++ debug flag ++ ")"
      | none => "None"

/-- What a table says of itself at a version. -/
def Table.fingerprinted (table : Table) (version : ℕ) : String :=
  table.database.word ++ "." ++ table.name ++ "(" ++
    String.join ((table.columns.filter fun column => column.since ≤ version).map
      Column.fingerprinted) ++
    ") key " ++ debugs debug table.key ++ " unique " ++ debugs debug table.unique ++
    String.join ((table.indexes.filter fun index => index.since ≤ version).map
      (Index.fingerprinted debug)) ++ "\n"

/-- A byte in two digits of lowercase hexadecimal. -/
def hexOf (byte : UInt8) : String :=
  String.ofList [Nat.digitChar (byte.toNat / 16), Nat.digitChar (byte.toNat % 16)]

/-- The fingerprint of the schema at a version. -/
def fingerprint (tables : List Table) (version : ℕ) : String :=
  let text := String.join ((tables.filter fun table => table.since ≤ version).map
    (Table.fingerprinted debug · version))
  String.join ((sha text).map hexOf)

end Fingerprint

end Schema

end XmipPersist
