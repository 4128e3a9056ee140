import XmipPersist.Model.Schema

/-! # What each data domain's database is kept on

The one reading of a connection to a database server, in each server's own form, and the check of
the data domains' tables a configuration holds.
-/

namespace XmipPersist

/-- Words, letter by letter. -/
abbrev Words := List Char

namespace Words

/-- Whether a letter is white space. -/
def isWhitespace (c : Char) : Bool :=
  let n := c.toNat
  (9 ≤ n && n ≤ 13) || n = 0x20 || n = 0x85 || n = 0xA0 || n = 0x1680 ||
    (0x2000 ≤ n && n ≤ 0x200A) || n = 0x2028 || n = 0x2029 || n = 0x202F || n = 0x205F || n = 0x3000

def trim (words : Words) : Words := (words.dropWhile isWhitespace).rdropWhile isWhitespace

/-- What is before the first of a letter, and what is after it. -/
def splitOnce (c : Char) (words : Words) : Option (Words × Words) :=
  if c ∈ words then some (words.takeWhile (· ≠ c), (words.dropWhile (· ≠ c)).tail) else none

def lowercase (words : Words) : Words := words.map Char.toLower

/-- The number of 16 bits that words say. -/
def toU16 (words : Words) : Option ℕ :=
  let digits := match words with
    | '+' :: digits => digits
    | digits => digits
  if digits ≠ [] ∧ digits.all Char.isDigit ∧ Nat.ofDigitChars 10 digits 0 ≤ 65535 then
    some (Nat.ofDigitChars 10 digits 0)
  else none

/-- The words a number is said in. -/
def ofNat (n : ℕ) : Words := Nat.toDigits 10 n

end Words

open Words

/-- What a data domain's database is kept on. -/
inductive Technology
  | rocksDb
  | sqlite
  | server (server : Server)
  deriving DecidableEq

namespace Technology

def all : List Technology :=
  [rocksDb, sqlite, server .postgreSql, server .sqlServer, server .mariaDb]

def word : Technology → String
  | rocksDb => "rocksdb"
  | sqlite => "sqlite"
  | server kind => kind.word

/-- The technology a word names. -/
def named (word : String) : Option Technology := all.find? fun technology => technology.word = word

/-- The embedded engine a database is kept on. -/
def embedded : Schema.Database → Technology
  | .runtime => rocksDb
  | .administration => sqlite
  | .audit => sqlite

end Technology

/-- One connection to a database on a server. -/
structure Connection where
  server : Server
  login : Option Words
  host : Words
  port : ℕ
  database : Words
  deriving DecidableEq

namespace Connection

/-- The form a server's connection takes. -/
def form : Server → String
  | .postgreSql => "host=<host> [port=<port>] dbname=<database> [user=<login>]"
  | .sqlServer => "Server=<host>[,<port>];Database=<database>[;User Id=<login>]"
  | .mariaDb => "Server=<host>[;Port=<port>];Database=<database>[;User=<login>]"

def refused (server : Server) (text : Words) (why : String) : String :=
  "'" ++ String.ofList text ++ "' " ++ why ++ "; write " ++ form server

/-- The pairs a text holds. -/
def pairs (server : Server) (text : Words) : List Words :=
  (match server with
    | .postgreSql => (text.splitOnP isWhitespace).filter (· ≠ [])
    | .sqlServer => (text.splitOn ';').map trim
    | .mariaDb => (text.splitOn ';').map trim).filter (· ≠ [])

/-- A pair's key and value. -/
def keyed (pair : Words) : Option (Words × Words) :=
  (splitOnce '=' pair).map fun (key, value) => (lowercase (trim key), trim value)

/-- The host SQL Server's `Server` says, and the port after it. -/
def hostAndPort (value : Words) : Words × Option Words :=
  let value := if "tcp:".toList <+: value then value.drop 4 else value
  match splitOnce ',' value with
  | some (host, port) => (host, some port)
  | none => (value, none)

/-- What the pairs read so far say. -/
structure Said where
  host : Option Words := none
  port : Option Words := none
  database : Option Words := none
  login : Option Words := none

/-- What a key and its value say. -/
def saidBy (server : Server) (said : Said) (key value : Words) : Option Said :=
  match server, String.ofList key with
  | .postgreSql, "host" => some { said with host := some value }
  | .mariaDb, "server" => some { said with host := some value }
  | .postgreSql, "port" => some { said with port := some value }
  | .mariaDb, "port" => some { said with port := some value }
  | .postgreSql, "dbname" => some { said with database := some value }
  | .sqlServer, "database" => some { said with database := some value }
  | .mariaDb, "database" => some { said with database := some value }
  | .postgreSql, "user" => some { said with login := some value }
  | .mariaDb, "user" => some { said with login := some value }
  | .sqlServer, "user id" => some { said with login := some value }
  | .sqlServer, "server" =>
      let (named, numbered) := hostAndPort value
      some { said with host := some named, port := numbered }
  | _, _ => none

/-- One pair read. -/
def readPair (server : Server) (text : Words) (said : Said) (pair : Words) : Except String Said :=
  match keyed pair with
  | none => .error (refused server text ("holds '" ++ String.ofList pair ++
      "', which is no key and value"))
  | some (key, value) =>
      if value = [] ∨ value.any isWhitespace then
        .error (refused server text ("leaves '" ++ String.ofList key ++ "' empty or spaced"))
      else
        match saidBy server said key value with
        | some said => .ok said
        | none => .error (refused server text ("carries '" ++ String.ofList key ++
            "', which is not read"))

/-- The connection a text says, in a server's own form. -/
def read (server : Server) (text : Words) : Except String Connection := do
  let said ← (pairs server text).foldlM (readPair server text) {}
  let port ← match said.port with
    | none => pure server.port
    | some port =>
        match (toU16 port).filter (0 < ·) with
        | some port => pure port
        | none => throw (refused server text "names no port from 1 to 65535")
  match said.host, said.database with
  | some host, some database => pure ⟨server, said.login, host, port, database⟩
  | _, _ => throw (refused server text "names no host or no database")

/-- A connection's own words. -/
def toWords (c : Connection) : Words :=
  match c.server with
  | .postgreSql =>
      "host=".toList ++ c.host ++ " port=".toList ++ ofNat c.port ++ " dbname=".toList ++
        c.database ++ (c.login.map (" user=".toList ++ ·)).getD []
  | .sqlServer =>
      "Server=tcp:".toList ++ c.host ++ ",".toList ++ ofNat c.port ++ ";Database=".toList ++
        c.database ++ (c.login.map (";User Id=".toList ++ ·)).getD []
  | .mariaDb =>
      "Server=".toList ++ c.host ++ ";Port=".toList ++ ofNat c.port ++ ";Database=".toList ++
        c.database ++ (c.login.map (";User=".toList ++ ·)).getD []

/-- What a database on a server is known by. -/
def address (c : Connection) : Server × Words × ℕ × Words := (c.server, c.host, c.port, c.database)

end Connection

/-- One data domain's table, as the configuration says it. -/
structure Domain where
  database : Schema.Database
  storage : String
  connection : Words

namespace Domain

/-- What is wrong with one domain's table, or the connection it names. -/
def checked (domain : Domain) : Except String (Option (Schema.Database × Connection)) :=
  let said (problem : String) := "[" ++ domain.database.word ++ "] " ++ problem
  match Technology.named domain.storage with
  | none => .error (said ("storage: '" ++ domain.storage ++
      "' is none Xmip Storage keeps a database on; write " ++
      String.intercalate ", " (Technology.all.map Technology.word)))
  | some (.server server) =>
      match Connection.read server domain.connection with
      | .ok connection => .ok (some (domain.database, connection))
      | .error problem => .error (said ("connection: " ++ problem))
  | some technology =>
      if technology ≠ Technology.embedded domain.database then
        .error (said ("storage: the " ++ domain.database.word ++ " database is kept on " ++
          (Technology.embedded domain.database).word ++ " where it is embedded, not " ++
          technology.word))
      else if trim domain.connection = [] then .error (said "connection names no path")
      else .ok none

/-- The problem of a connection that names one an earlier domain's does. -/
def repeated (earlier : List (Schema.Database × Connection))
    (named : Schema.Database × Connection) : Option String :=
  (earlier.find? fun e => e.2.address = named.2.address).map fun e =>
    "[" ++ named.1.word ++ "] connection names the " ++ e.1.word ++
      " database's; the runtime, the administration and the audit databases are separate"

/-- What is wrong with the data domains' tables a configuration holds. -/
def problems (named : List Domain) (password : Option Words) : List String :=
  let servers := named.filterMap fun domain =>
    match domain.checked with
    | .ok found => found
    | .error _ => none
  (named.filterMap fun domain =>
    match domain.checked with
    | .ok _ => none
    | .error problem => some problem) ++
  ((servers.inits.zip servers).filterMap fun (earlier, named) => repeated earlier named) ++
  if servers ≠ [] ∧ password.all (fun password => trim password = []) then
    ["[storage.database] password names no secret, and a database server is named"]
  else []

end Domain

end XmipPersist
