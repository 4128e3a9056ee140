import XmipPersist.Model.Connection

/-! # Connections read back from their own words

What a text says of a connection, key by key in any order, and the same connection read again from
the words it is said in.
-/

namespace XmipPersist

namespace Words

variable {w k v : Words} {c : Char}

/-- Words that hold no white space. -/
def Plain (w : Words) : Prop := ∀ c ∈ w, isWhitespace c = false

theorem trim_eq_self (hhead : ∀ c ∈ w.head?, isWhitespace c = false)
    (hlast : ∀ c ∈ w.getLast?, isWhitespace c = false) : trim w = w := by
  have hdrop : w.dropWhile isWhitespace = w := by
    cases w with
    | nil => rfl
    | cons c w => rw [List.dropWhile_cons_of_neg (by simpa using hhead c rfl)]
  rw [trim, hdrop, List.rdropWhile_eq_self_iff]
  intro hne
  simpa using hlast _ (List.getLast?_eq_some_getLast hne)

theorem plain_of_all (h : w.all (fun c => !isWhitespace c) = true) : Plain w := fun c hc => by
  simpa using List.all_eq_true.mp h c hc

theorem Plain.trim (h : Plain w) : Words.trim w = w :=
  trim_eq_self (fun c hc => h c (List.mem_of_mem_head? hc))
    fun c hc => h c (List.mem_of_getLast? hc)

theorem mem_of_mem_trim (h : c ∈ trim w) : c ∈ w := by
  have hsub : (trim w).Sublist w :=
    (List.rdropWhile_prefix _ _).sublist.trans (List.dropWhile_sublist _)
  exact hsub.subset h

theorem splitOnce_append (h : c ∉ k) : splitOnce c (k ++ c :: v) = some (k, v) := by
  have hk : ∀ a ∈ k, decide (a ≠ c) = true := by
    intro a ha
    rw [decide_eq_true_iff]
    rintro rfl
    exact h ha
  rw [splitOnce, if_pos (by simp), List.takeWhile_append_of_pos hk, List.dropWhile_append_of_pos hk]
  simp

theorem splitOnce_some (h : splitOnce c w = some (k, v)) : w = k ++ c :: v ∧ c ∉ k := by
  unfold splitOnce at h
  split at h
  · next hmem =>
      obtain ⟨rfl, rfl⟩ := Prod.mk.inj (Option.some.inj h)
      obtain ⟨k, v, rfl, hk⟩ := List.eq_append_cons_of_mem hmem
      have hsplit := splitOnce_append (v := v) hk
      rw [splitOnce, if_pos hmem] at hsplit
      obtain ⟨htake, hdrop⟩ := Prod.mk.inj (Option.some.inj hsplit)
      rw [htake, hdrop]
      exact ⟨rfl, hk⟩
  · cases h

theorem splitOnce_none (h : splitOnce c w = none) : c ∉ w := by
  unfold splitOnce at h
  split at h
  · cases h
  · assumption

/-- What words are split into holds none of what they are split at. -/
theorem lacks_of_mem_splitOnP {p : Char → Bool} {piece : Words} (h : piece ∈ w.splitOnP p) :
    ∀ c ∈ piece, p c = false := by
  induction w generalizing piece with
  | nil =>
      obtain rfl : piece = [] := by simpa using h
      exact fun c hc => absurd hc List.not_mem_nil
  | cons a w ih =>
      rw [List.splitOnP_cons_eq_if_modifyHead] at h
      obtain ⟨first, rest, hsplit⟩ := List.exists_cons_of_ne_nil (List.splitOnP_ne_nil p w)
      split at h
      · rcases List.mem_cons.mp h with rfl | h
        · exact fun c hc => absurd hc List.not_mem_nil
        · exact ih h
      · next ha =>
          rw [hsplit, List.modifyHead_cons] at h
          rcases List.mem_cons.mp h with rfl | h
          · refine List.forall_mem_cons.mpr ⟨by simpa using ha, ih ?_⟩
            rw [hsplit]
            exact List.mem_cons_self
          · refine ih ?_
            rw [hsplit]
            exact List.mem_cons_of_mem _ h

theorem toU16_ofNat {n : ℕ} (h : n ≤ 65535) : toU16 (ofNat n) = some n := by
  have hdigits : ∀ c ∈ ofNat n, c.isDigit = true := fun c hc =>
    Nat.isDigit_of_mem_toDigits (by decide) (by decide) hc
  have hne : ofNat n ≠ [] := Nat.toDigits_ne_nil
  have hvalue : Nat.ofDigitChars 10 (ofNat n) 0 = n := Nat.ofDigitChars_ten_toDigits
  unfold toU16
  split
  · next digits hplus =>
      rw [hplus] at hdigits
      exact absurd (hdigits '+' List.mem_cons_self) (by decide)
  · simp only [hvalue]
    rw [if_pos ⟨hne, List.all_eq_true.mpr hdigits, h⟩]

theorem toU16_le {n : ℕ} (h : toU16 w = some n) : n ≤ 65535 := by
  have hdigits : ∀ digits : Words, (if digits ≠ [] ∧ digits.all Char.isDigit ∧
      Nat.ofDigitChars 10 digits 0 ≤ 65535 then some (Nat.ofDigitChars 10 digits 0) else none) =
        some n → n ≤ 65535 := by
    intro digits h
    split at h
    · next hfits =>
        obtain rfl := Option.some.inj h
        exact hfits.2.2
    · cases h
  unfold toU16 at h
  split at h <;> exact hdigits _ h

theorem ofNat_plain (n : ℕ) : ∀ c ∈ ofNat n, c.isDigit = true := fun _ hc =>
  Nat.isDigit_of_mem_toDigits (by decide) (by decide) hc

theorem isWhitespace_of_isDigit (h : c.isDigit = true) : isWhitespace c = false := by
  have hrange : 48 ≤ c.toNat ∧ c.toNat ≤ 57 := by
    simp only [Char.isDigit, Bool.and_eq_true, decide_eq_true_eq, ge_iff_le,
      UInt32.le_iff_toNat_le] at h
    exact h
  obtain ⟨hlow, hhigh⟩ := hrange
  simp only [isWhitespace, Bool.or_eq_false_iff, Bool.and_eq_false_iff, decide_eq_false_iff_not]
  omega

end Words

open Words

namespace Connection

variable {server : Server} {text : Words} {said said' : Said} {key value pair : Words}

/-! ## What is read -/

/-- What the value of a pair is. -/
structure Value (server : Server) (w : Words) : Prop where
  ne : w ≠ []
  plain : Plain w
  apart : server ≠ .postgreSql → ';' ∉ w

/-- What the pairs read so far say: values, but for SQL Server's host, which may be empty and holds
no comma. -/
structure Said.Fits (server : Server) (said : Said) : Prop where
  plain : ∀ host ∈ said.host, Plain host
  apart : ∀ host ∈ said.host, server ≠ .postgreSql → ';' ∉ host
  comma : ∀ host ∈ said.host, server = .sqlServer → ',' ∉ host
  ne : ∀ host ∈ said.host, server ≠ .sqlServer → host ≠ []
  database : ∀ database ∈ said.database, Value server database
  login : ∀ login ∈ said.login, Value server login

/-- Host and port of SQL Server's `Server`, in the value. -/
theorem hostAndPort_sub (value : Words) :
    (∀ c ∈ (hostAndPort value).1, c ∈ value) ∧ ',' ∉ (hostAndPort value).1 := by
  have hsub : ∀ c ∈ (if "tcp:".toList <+: value then value.drop 4 else value), c ∈ value := by
    intro c hc
    split at hc
    · exact List.mem_of_mem_drop hc
    · exact hc
  simp only [hostAndPort]
  generalize (if "tcp:".toList <+: value then value.drop 4 else value) = rest at hsub ⊢
  cases hsplit : splitOnce ',' rest with
  | none => exact ⟨hsub, splitOnce_none hsplit⟩
  | some parts =>
      obtain ⟨rfl, hcomma⟩ := splitOnce_some hsplit
      exact ⟨fun c hc => hsub c (List.mem_append_left _ hc), hcomma⟩

namespace Said.Fits

theorem withHost (h : said.Fits server) (hvalue : Value server value)
    (hserver : server ≠ .sqlServer) : Said.Fits server { said with host := some value } := by
  refine ⟨?_, ?_, ?_, ?_, h.database, h.login⟩ <;> intro host hhost <;>
    obtain rfl := Option.some.inj hhost
  · exact hvalue.plain
  · exact hvalue.apart
  · exact fun he => absurd he hserver
  · exact fun _ => hvalue.ne

theorem withPort (h : said.Fits server) (port : Option Words) :
    Said.Fits server { said with port := port } :=
  ⟨h.plain, h.apart, h.comma, h.ne, h.database, h.login⟩

theorem withDatabase (h : said.Fits server) (hvalue : Value server value) :
    Said.Fits server { said with database := some value } := by
  refine ⟨h.plain, h.apart, h.comma, h.ne, ?_, h.login⟩
  intro database hdatabase
  obtain rfl := Option.some.inj hdatabase
  exact hvalue

theorem withLogin (h : said.Fits server) (hvalue : Value server value) :
    Said.Fits server { said with login := some value } := by
  refine ⟨h.plain, h.apart, h.comma, h.ne, h.database, ?_⟩
  intro login hlogin
  obtain rfl := Option.some.inj hlogin
  exact hvalue

theorem withServer (h : said.Fits .sqlServer) (hvalue : Value .sqlServer value) :
    Said.Fits .sqlServer { said with
      host := some (hostAndPort value).1, port := (hostAndPort value).2 } := by
  obtain ⟨hsub, hcomma⟩ := hostAndPort_sub value
  refine ⟨?_, ?_, ?_, ?_, h.database, h.login⟩ <;> intro host hhost <;>
    obtain rfl := Option.some.inj hhost
  · exact fun c hc => hvalue.plain c (hsub c hc)
  · exact fun hne hmem => hvalue.apart hne (hsub _ hmem)
  · exact fun _ => hcomma
  · exact fun hne => absurd rfl hne

/-- What is said fits once a pair more is read. -/
theorem saidBy (h : said.Fits server) (hvalue : Value server value)
    (hsaid : Connection.saidBy server said key value = some said') : said'.Fits server := by
  unfold Connection.saidBy at hsaid
  split at hsaid
  · exact Option.some.inj hsaid ▸ h.withHost hvalue (by decide)
  · exact Option.some.inj hsaid ▸ h.withHost hvalue (by decide)
  · exact Option.some.inj hsaid ▸ h.withPort _
  · exact Option.some.inj hsaid ▸ h.withPort _
  · exact Option.some.inj hsaid ▸ h.withDatabase hvalue
  · exact Option.some.inj hsaid ▸ h.withDatabase hvalue
  · exact Option.some.inj hsaid ▸ h.withDatabase hvalue
  · exact Option.some.inj hsaid ▸ h.withLogin hvalue
  · exact Option.some.inj hsaid ▸ h.withLogin hvalue
  · exact Option.some.inj hsaid ▸ h.withLogin hvalue
  · exact Option.some.inj hsaid ▸ h.withServer hvalue
  · cases hsaid

end Said.Fits

/-- What a pair that is read says. -/
theorem readPair_ok (h : readPair server text said pair = .ok said') :
    ∃ key value, keyed pair = some (key, value) ∧ value ≠ [] ∧ Plain value ∧
      saidBy server said key value = some said' := by
  unfold readPair at h
  split at h
  · cases h
  · next key value hkeyed =>
      split at h
      · cases h
      · next hvalue =>
          obtain ⟨hne, hplain⟩ := not_or.mp hvalue
          split at h
          · next hsaid =>
              refine ⟨key, value, hkeyed, hne, fun c hc => ?_, by rw [hsaid, Except.ok.inj h]⟩
              simpa using (List.any_eq_false.mp (by simpa using hplain)) c hc
          · cases h

/-- A pair of a text holds no separator. -/
theorem not_mem_pairs (hpair : pair ∈ pairs server text) (hserver : server ≠ .postgreSql) :
    ';' ∉ pair := by
  have hsplit : ∀ piece ∈ text.splitOn ';', ';' ∉ piece := by
    intro piece hpiece hmem
    exact absurd (lacks_of_mem_splitOnP hpiece ';' hmem) (by decide)
  have htrim : pair ∈ (text.splitOn ';').map trim := by
    cases server with
    | postgreSql => exact absurd rfl hserver
    | sqlServer => exact (List.mem_filter.mp hpair).1
    | mariaDb => exact (List.mem_filter.mp hpair).1
  obtain ⟨piece, hpiece, rfl⟩ := List.mem_map.mp htrim
  exact fun hmem => hsplit piece hpiece (mem_of_mem_trim hmem)

theorem keyed_value (h : keyed pair = some (key, value)) : ∀ c ∈ value, c ∈ pair := by
  obtain ⟨⟨k, v⟩, hsplit, hkeyed⟩ := Option.map_eq_some_iff.mp h
  obtain ⟨rfl, -⟩ := splitOnce_some hsplit
  obtain ⟨-, rfl⟩ := Prod.mk.inj hkeyed
  intro c hc
  exact List.mem_append_right _ (List.mem_cons_of_mem _ (mem_of_mem_trim hc))

theorem foldlM_fits {ps : List Words} (hps : ∀ pair ∈ ps, server ≠ .postgreSql → ';' ∉ pair)
    (h : said.Fits server) (hread : ps.foldlM (readPair server text) said = .ok said') :
    said'.Fits server := by
  induction ps generalizing said with
  | nil =>
      obtain rfl := Except.ok.inj hread
      exact h
  | cons pair ps ih =>
      obtain ⟨hpair, hps⟩ := List.forall_mem_cons.mp hps
      rw [List.foldlM_cons] at hread
      cases hfirst : readPair server text said pair with
      | error why =>
          rw [hfirst] at hread
          cases hread
      | ok next =>
          rw [hfirst] at hread
          obtain ⟨key, value, hkeyed, hne, hplain, hsaid⟩ := readPair_ok hfirst
          have hvalue : Value server value :=
            ⟨hne, hplain, fun hs hmem => hpair hs (keyed_value hkeyed _ hmem)⟩
          exact ih hps (h.saidBy hvalue hsaid) hread

/-- What a connection that is read is. -/
structure Fits (c : Connection) : Prop where
  plain : Plain c.host
  apart : c.server ≠ .postgreSql → ';' ∉ c.host
  comma : c.server = .sqlServer → ',' ∉ c.host
  ne : c.server ≠ .sqlServer → c.host ≠ []
  database : Value c.server c.database
  login : ∀ login ∈ c.login, Value c.server login
  port : 1 ≤ c.port ∧ c.port ≤ 65535

variable {c : Connection}

theorem port_pos (server : Server) : 1 ≤ server.port ∧ server.port ≤ 65535 := by
  cases server <;> decide

/-- The port a text says, or its server's own. -/
def portOf (server : Server) (text : Words) : Option Words → Except String ℕ
  | none => .ok server.port
  | some port =>
      match (toU16 port).filter (0 < ·) with
      | some port => .ok port
      | none => .error (refused server text "names no port from 1 to 65535")

/-- What is read of what the pairs say. -/
def madeOf (server : Server) (text : Words) (said : Said) : Except String Connection :=
  match portOf server text said.port, said.host, said.database with
  | .error why, _, _ => .error why
  | .ok port, some host, some database => .ok ⟨server, said.login, host, port, database⟩
  | .ok _, _, _ => .error (refused server text "names no host or no database")

theorem read_eq : read server text =
    ((pairs server text).foldlM (readPair server text) {}).bind (madeOf server text) := by
  unfold read
  refine congrArg _ (funext fun said => ?_)
  obtain ⟨host, port, database, login⟩ := said
  cases port with
  | none => cases host <;> cases database <;> rfl
  | some port =>
      simp only [madeOf, portOf]
      cases (toU16 port).filter (0 < ·) with
      | none => rfl
      | some port => cases host <;> cases database <;> rfl

theorem portOf_fits {said : Option Words} {port : ℕ} (h : portOf server text said = .ok port) :
    1 ≤ port ∧ port ≤ 65535 := by
  unfold portOf at h
  split at h
  · obtain rfl := Except.ok.inj h
    exact port_pos server
  · split at h
    · next hfilter =>
        obtain ⟨hsome, hpos⟩ := Option.filter_eq_some_iff.mp hfilter
        obtain rfl := Except.ok.inj h
        exact ⟨Nat.succ_le_of_lt (by simpa using hpos), toU16_le hsome⟩
    · cases h

theorem madeOf_ok : madeOf server text said = .ok c ↔
    portOf server text said.port = .ok c.port ∧ said.host = some c.host ∧
      said.database = some c.database ∧ said.login = c.login ∧ c.server = server := by
  obtain ⟨server', login, host, port, database⟩ := c
  unfold madeOf
  split <;> (simp_all; try tauto)

theorem read_ok : read server text = .ok c ↔
    ∃ said, (pairs server text).foldlM (readPair server text) {} = .ok said ∧
      madeOf server text said = .ok c := by
  rw [read_eq]
  cases (pairs server text).foldlM (readPair server text) {} with
  | error why => simp [Except.bind]
  | ok said => simp [Except.bind]

theorem read_server (h : read server text = .ok c) : c.server = server := by
  obtain ⟨said, -, hmade⟩ := read_ok.mp h
  exact (madeOf_ok.mp hmade).2.2.2.2

theorem read_fits (h : read server text = .ok c) : c.Fits := by
  obtain ⟨said, hsaid, hmade⟩ := read_ok.mp h
  obtain ⟨hport, hhost, hdatabase, hlogin, rfl⟩ := madeOf_ok.mp hmade
  have hstart : Said.Fits c.server {} :=
    ⟨by simp, by simp, by simp, by simp, by simp, by simp⟩
  have hfits := foldlM_fits (fun pair hpair => not_mem_pairs hpair) hstart hsaid
  refine ⟨hfits.plain _ hhost, hfits.apart _ hhost, hfits.comma _ hhost, hfits.ne _ hhost,
    hfits.database _ hdatabase, fun login hmem => hfits.login _ (hlogin ▸ hmem), portOf_fits hport⟩

/-! ## The words of a connection read back -/

/-- A pair as it is said. -/
def pairOf (said : String × Words) : Words := said.1.toList ++ '=' :: said.2

/-- What a server's connection is split at. -/
def separator : Server → Char
  | .postgreSql => ' '
  | .sqlServer => ';'
  | .mariaDb => ';'

/-- The keys and values a connection says, in order. -/
def told (c : Connection) : List (String × Words) :=
  match c.server with
  | .postgreSql => [("host", c.host), ("port", ofNat c.port), ("dbname", c.database)] ++
      (c.login.map fun login => ("user", login)).toList
  | .sqlServer => [("Server", "tcp:".toList ++ c.host ++ ',' :: ofNat c.port),
      ("Database", c.database)] ++ (c.login.map fun login => ("User Id", login)).toList
  | .mariaDb => [("Server", c.host), ("Port", ofNat c.port), ("Database", c.database)] ++
      (c.login.map fun login => ("User", login)).toList

theorem toWords_eq (c : Connection) :
    c.toWords = [separator c.server].intercalate (c.told.map pairOf) := by
  obtain ⟨server, login, host, port, database⟩ := c
  cases server <;> cases login <;>
    simp [toWords, told, separator, pairOf, List.intercalate, List.append_assoc]

/-- Pieces put together are split again. -/
theorem splitOnP_intercalate {p : Char → Bool} {at' : Char} (hat : p at' = true)
    {pieces : List Words} (hne : pieces ≠ []) (h : ∀ piece ∈ pieces, ∀ c ∈ piece, p c = false) :
    ([at'].intercalate pieces).splitOnP p = pieces := by
  induction pieces with
  | nil => exact absurd rfl hne
  | cons piece pieces ih =>
      obtain ⟨hpiece, hrest⟩ := List.forall_mem_cons.mp h
      cases pieces with
      | nil => simp [List.intercalate, List.splitOnP_eq_singleton hpiece]
      | cons next pieces =>
          have hih := ih (List.cons_ne_nil _ _) hrest
          rw [List.intercalate_cons_cons, List.append_assoc, List.singleton_append,
            List.splitOnP_append_cons_of_forall_mem hpiece _ hat, hih]

/-- What the name of a key is: it opens with a letter of its own and holds no separator. -/
structure Key (server : Server) (name : Words) : Prop where
  ne : name ≠ []
  head : ∀ c ∈ name.head?, isWhitespace c = false
  equals : '=' ∉ name
  apart : server ≠ .postgreSql → ';' ∉ name
  plain : server = .postgreSql → Plain name

theorem Value.ofNat (server : Server) (n : ℕ) : Value server (Words.ofNat n) := by
  refine ⟨Nat.toDigits_ne_nil, fun c hc => isWhitespace_of_isDigit (ofNat_plain n c hc), ?_⟩
  exact fun _ hmem => absurd (ofNat_plain n ';' hmem) (by decide)

theorem Fits.served (h : c.Fits) (hserver : c.server = .sqlServer) :
    Value .sqlServer ("tcp:".toList ++ c.host ++ ',' :: Words.ofNat c.port) := by
  have hport := Value.ofNat .sqlServer c.port
  have hapart := h.apart (by simp [hserver])
  refine ⟨by simp, ?_, fun hne hmem => ?_⟩
  · intro ch hch
    rcases List.mem_append.mp hch with hch | hch
    · rcases List.mem_append.mp hch with hch | hch
      · exact plain_of_all (by decide) ch hch
      · exact h.plain ch hch
    · rcases List.mem_cons.mp hch with rfl | hch
      · rfl
      · exact hport.plain ch hch
  · have hfree := hport.apart hne
    simp_all

/-- The keys a server's connection is said by. -/
def names : Server → List String
  | .postgreSql => ["host", "port", "dbname", "user"]
  | .sqlServer => ["Server", "Database", "User Id"]
  | .mariaDb => ["Server", "Port", "Database", "User"]

theorem key_of_mem {name : String} (h : name ∈ names server) : Key server name.toList := by
  have hne : ∀ name ∈ names server, name.toList ≠ [] := by cases server <;> decide
  have hhead : ∀ name ∈ names server, (name.toList.take 1).all (fun c => !isWhitespace c) = true := by
    cases server <;> decide
  have hequals : ∀ name ∈ names server, '=' ∉ name.toList := by cases server <;> decide
  have hapart : ∀ name ∈ names server, ';' ∉ name.toList := by cases server <;> decide
  have hplain : ∀ name ∈ names .postgreSql, name.toList.all (fun c => !isWhitespace c) = true := by
    decide
  refine ⟨hne _ h, fun c hc => ?_, hequals _ h, fun _ => hapart _ h, ?_⟩
  · refine plain_of_all (hhead _ h) c ?_
    cases hname : name.toList with
    | nil => simp [hname] at hc
    | cons first rest => simpa [hname, eq_comm] using hc
  · rintro rfl
    exact plain_of_all (hplain _ h)

/-- Every key and value a connection says may be said. -/
theorem told_fits (h : c.Fits) :
    ∀ said ∈ c.told, Key c.server said.1.toList ∧ Value c.server said.2 := by
  have hport := Value.ofNat c.server c.port
  have hhost : c.server ≠ .sqlServer → Value c.server c.host := fun hne =>
    ⟨h.ne hne, h.plain, h.apart⟩
  have hserver := h.served
  have hdatabase := h.database
  have hlogin := h.login
  have hname : ∀ said ∈ c.told, said.1 ∈ names c.server := by
    obtain ⟨server, login, host, port, database⟩ := c
    cases server <;> cases login <;> simp [told, names]
  have hvalue : ∀ said ∈ c.told, Value c.server said.2 := by
    obtain ⟨server, login, host, port, database⟩ := c
    cases server <;> cases login <;> simp_all [told]
  exact fun said hmem => ⟨key_of_mem (hname said hmem), hvalue said hmem⟩

theorem Key.trim_pairOf {said : String × Words} (hkey : Key server said.1.toList)
    (hvalue : Value server said.2) : trim (pairOf said) = pairOf said := by
  refine trim_eq_self ?_ ?_
  · obtain ⟨first, rest, hname⟩ := List.exists_cons_of_ne_nil hkey.ne
    have hhead := hkey.head
    simp only [pairOf, hname, List.cons_append, List.head?_cons, Option.mem_some_iff] at hhead ⊢
    exact hhead
  · intro ch hch
    have hlast : (pairOf said).getLast? = said.2.getLast? := by
      rw [pairOf, ← List.singleton_append, ← List.append_assoc,
        List.getLast?_append_of_ne_nil _ hvalue.ne]
    rw [hlast] at hch
    exact hvalue.plain ch (List.mem_of_getLast? hch)

/-- The pairs of a connection's own words are those it says. -/
theorem pairs_toWords (h : c.Fits) : pairs c.server c.toWords = c.told.map pairOf := by
  have hfit := told_fits h
  have hne : ∀ pair ∈ c.told.map pairOf, pair ≠ [] := by
    intro pair hpair
    obtain ⟨said, -, rfl⟩ := List.mem_map.mp hpair
    simp [pairOf]
  have hsome : c.told.map pairOf ≠ [] := by
    cases hserver : c.server <;> simp [told, hserver]
  have hfilter : (c.told.map pairOf).filter (· ≠ []) = c.told.map pairOf :=
    List.filter_eq_self.mpr fun pair hpair => by simpa using hne pair hpair
  have htrim : (c.told.map pairOf).map trim = c.told.map pairOf := by
    rw [List.map_map]
    exact List.map_congr_left fun said hmem => (hfit said hmem).1.trim_pairOf (hfit said hmem).2
  have hsplit : ∀ p : Char → Bool, p (separator c.server) = true →
      (∀ pair ∈ c.told.map pairOf, ∀ ch ∈ pair, p ch = false) →
        c.toWords.splitOnP p = c.told.map pairOf := by
    intro p hat hlacks
    rw [toWords_eq]
    exact splitOnP_intercalate hat hsome hlacks
  have hapart : c.server ≠ .postgreSql → ∀ pair ∈ c.told.map pairOf, ∀ ch ∈ pair,
      (ch == ';') = false := by
    intro hserver pair hpair ch hch
    obtain ⟨said, hmem, rfl⟩ := List.mem_map.mp hpair
    obtain ⟨hkey, hvalue⟩ := hfit said hmem
    rw [beq_eq_false_iff_ne]
    rintro rfl
    rcases List.mem_append.mp hch with hch | hch
    · exact hkey.apart hserver hch
    · rcases List.mem_cons.mp hch with hch | hch
      · exact absurd hch (by decide)
      · exact hvalue.apart hserver hch
  have hplain : c.server = .postgreSql → ∀ pair ∈ c.told.map pairOf, Plain pair := by
    intro hserver pair hpair ch hch
    obtain ⟨said, hmem, rfl⟩ := List.mem_map.mp hpair
    obtain ⟨hkey, hvalue⟩ := hfit said hmem
    rcases List.mem_append.mp hch with hch | hch
    · exact hkey.plain hserver ch hch
    · rcases List.mem_cons.mp hch with rfl | hch
      · decide
      · exact hvalue.plain ch hch
  cases hserver : c.server with
  | postgreSql =>
      simp only [pairs]
      rw [hsplit isWhitespace (by rw [hserver]; decide) (hplain hserver), hfilter, hfilter]
  | sqlServer =>
      have hpieces := hsplit (· == ';') (by rw [hserver]; decide) (hapart (by simp [hserver]))
      simp only [pairs, List.splitOn]
      rw [hpieces, htrim, hfilter]
  | mariaDb =>
      have hpieces := hsplit (· == ';') (by rw [hserver]; decide) (hapart (by simp [hserver]))
      simp only [pairs, List.splitOn]
      rw [hpieces, htrim, hfilter]

theorem keyed_pairOf {said : String × Words} (hname : '=' ∉ said.1.toList)
    (hvalue : Plain said.2) :
    keyed (pairOf said) = some (lowercase (trim said.1.toList), said.2) := by
  rw [keyed, pairOf, splitOnce_append hname, Option.map_some]
  simp only [hvalue.trim]

/-- A pair that says one of a server's keys is read. -/
theorem readPair_pairOf {named : String × Words} (hkey : Key server named.1.toList)
    (hvalue : Value server named.2)
    (hsaid : saidBy server said (lowercase (trim named.1.toList)) named.2 = some said') :
    readPair server text said (pairOf named) = .ok said' := by
  have hany : named.2.any isWhitespace = false :=
    List.any_eq_false.mpr fun c hc => by simp [hvalue.plain c hc]
  rw [readPair, keyed_pairOf hkey.equals hvalue.plain]
  simp only
  rw [if_neg (by simp [hvalue.ne, hany]), hsaid]

/-- What keys and their values say, taken in order. -/
theorem foldlM_pairOf {named : List (String × Words)}
    (hnamed : ∀ t ∈ named, Key server t.1.toList ∧ Value server t.2)
    (hsaid : named.foldlM (fun said t => saidBy server said (lowercase (trim t.1.toList)) t.2) said =
      some said') :
    (named.map pairOf).foldlM (readPair server text) said = .ok said' := by
  induction named generalizing said with
  | nil =>
      obtain rfl := Option.some.inj hsaid
      rfl
  | cons t named ih =>
      obtain ⟨⟨hkey, hvalue⟩, hrest⟩ := List.forall_mem_cons.mp hnamed
      rw [List.foldlM_cons, Option.bind_eq_bind, Option.bind_eq_some_iff] at hsaid
      obtain ⟨next, hfirst, hsaid⟩ := hsaid
      rw [List.map_cons, List.foldlM_cons, readPair_pairOf hkey hvalue hfirst]
      exact ih hrest hsaid

theorem hostAndPort_told (hcomma : ',' ∉ key) :
    hostAndPort ("tcp:".toList ++ key ++ ',' :: value) = (key, some value) := by
  have hprefix : "tcp:".toList <+: "tcp:".toList ++ key ++ ',' :: value := by
    rw [List.append_assoc]
    exact List.prefix_append _ _
  have hdrop : ("tcp:".toList ++ key ++ ',' :: value).drop 4 = key ++ ',' :: value := by
    rw [List.append_assoc]
    rfl
  simp only [hostAndPort]
  rw [if_pos hprefix, hdrop, splitOnce_append hcomma]

/-- The keys a server's connection is said by, as they are read. -/
theorem lowercase_names : (names server).map (fun name => lowercase (trim name.toList)) =
    (match server with
      | .postgreSql => ["host", "port", "dbname", "user"]
      | .sqlServer => ["server", "database", "user id"]
      | .mariaDb => ["server", "port", "database", "user"]).map String.toList := by
  cases server <;> decide

theorem saidBy_server (said : Said) (value : Words) :
    saidBy .sqlServer said "server".toList value =
      some { said with host := some (hostAndPort value).1, port := (hostAndPort value).2 } := rfl

theorem saidBy_told (h : c.Fits) :
    c.told.foldlM (fun said t => saidBy c.server said (lowercase (trim t.1.toList)) t.2) {} =
      some ⟨some c.host, some (ofNat c.port), some c.database, c.login⟩ := by
  have hcomma := h.comma
  have hkeys : (names c.server).map (fun name => lowercase (trim name.toList)) = _ :=
    lowercase_names
  obtain ⟨server, login, host, port, database⟩ := c
  cases server with
  | postgreSql =>
      simp only [names, List.map_cons, List.cons.injEq, List.map_nil, and_true] at hkeys
      obtain ⟨hhost, hport, hdatabase, hlogin⟩ := hkeys
      cases login <;> simp only [told, List.cons_append, List.nil_append, List.foldlM_cons,
        Option.map_none, Option.map_some, Option.toList, hhost, hport, hdatabase, hlogin] <;> rfl
  | mariaDb =>
      simp only [names, List.map_cons, List.cons.injEq, List.map_nil, and_true] at hkeys
      obtain ⟨hhost, hport, hdatabase, hlogin⟩ := hkeys
      cases login <;> simp only [told, List.cons_append, List.nil_append, List.foldlM_cons,
        Option.map_none, Option.map_some, Option.toList, hhost, hport, hdatabase, hlogin] <;> rfl
  | sqlServer =>
      simp only [names, List.map_cons, List.cons.injEq, List.map_nil, and_true] at hkeys
      obtain ⟨hhost, hdatabase, hlogin⟩ := hkeys
      have htold : hostAndPort ("tcp:".toList ++ host ++ ',' :: ofNat port) =
          (host, some (ofNat port)) := hostAndPort_told (hcomma rfl)
      have hserver : saidBy .sqlServer {} (lowercase (trim "Server".toList))
          ("tcp:".toList ++ host ++ ',' :: ofNat port) =
            some ⟨some host, some (ofNat port), none, none⟩ := by
        rw [hhost, saidBy_server, htold]
      cases login <;> simp only [told, List.cons_append, List.nil_append, List.foldlM_cons,
        Option.map_none, Option.map_some, Option.toList, hserver, hdatabase, hlogin] <;> rfl

/-- A connection's own words are read as the connection. -/
theorem read_toWords (h : c.Fits) : read c.server c.toWords = .ok c := by
  rw [read_eq, pairs_toWords h, foldlM_pairOf (told_fits h) (saidBy_told h)]
  have hport : portOf c.server c.toWords (some (ofNat c.port)) = .ok c.port := by
    have hfilter : (some c.port).filter (0 < ·) = some c.port := by
      simpa using Nat.lt_of_succ_le h.port.1
    simp only [portOf, toU16_ofNat h.port.2]
    rw [hfilter]
  exact madeOf_ok.mpr ⟨hport, rfl, rfl, rfl, rfl⟩

/-! ## The host SQL Server's connection names -/

/-- The values a text gives SQL Server's `Server`, in order. -/
def served (pairs : List Words) : List Words :=
  (pairs.filterMap keyed).filterMap fun said =>
    if said.1 = "server".toList then some said.2 else none

/-- Whether the last `Server` a text says holds a host, before the port and after the prefix. -/
def HostNamed (server : Server) (text : Words) : Prop :=
  server = .sqlServer →
    ∀ value ∈ (served (pairs server text)).getLast?, (hostAndPort value).1 ≠ []

instance (server : Server) (text : Words) : Decidable (HostNamed server text) :=
  inferInstanceAs (Decidable (server = .sqlServer → _))

theorem saidBy_host (hkey : key ≠ "server".toList)
    (h : saidBy .sqlServer said key value = some said') : said'.host = said.host := by
  unfold saidBy at h
  split at h
  case h_6 => exact Option.some.inj h ▸ rfl
  case h_10 => exact Option.some.inj h ▸ rfl
  case h_11 hserver => exact absurd (congrArg String.toList hserver) (by simpa using hkey)
  all_goals contradiction

theorem foldlM_host {ps : List Words}
    (h : ps.foldlM (readPair .sqlServer text) said = .ok said') :
    said'.host = ((served ps).getLast?.map fun value => (hostAndPort value).1).or said.host := by
  induction ps generalizing said with
  | nil =>
      obtain rfl := Except.ok.inj h
      rfl
  | cons pair ps ih =>
      rw [List.foldlM_cons] at h
      cases hfirst : readPair .sqlServer text said pair with
      | error why =>
          rw [hfirst] at h
          cases h
      | ok next =>
          rw [hfirst] at h
          rw [ih h]
          obtain ⟨key, value, hkeyed, -, -, hsaid⟩ := readPair_ok hfirst
          by_cases hkey : key = "server".toList
          · subst hkey
            have hserved : served (pair :: ps) = value :: served ps := by
              simp [served, hkeyed]
            rw [saidBy_server] at hsaid
            obtain rfl := Option.some.inj hsaid
            rw [hserved]
            cases served ps with
            | nil => rfl
            | cons next rest =>
                have hlast := List.getLast?_eq_some_getLast (List.cons_ne_nil next rest)
                rw [List.getLast?_cons_cons, hlast]
                rfl
          · have hserved : served (pair :: ps) = served ps := by
              have hnone : (if key = "server".toList then some value else none) = none := if_neg hkey
              rw [served, List.filterMap_cons_some hkeyed, List.filterMap_cons, hnone]
              rfl
            rw [hserved, saidBy_host hkey hsaid]

/-- A SQL Server text that is read names a host exactly where its last `Server` holds one. -/
theorem host_ne_iff (h : read server text = .ok c) : c.host ≠ [] ↔ HostNamed server text := by
  obtain ⟨said, hsaid, hmade⟩ := read_ok.mp h
  obtain ⟨-, hhost, -, -, rfl⟩ := madeOf_ok.mp hmade
  by_cases hserver : c.server = .sqlServer
  · unfold HostNamed
    rw [hserver] at hsaid ⊢
    have hlast := foldlM_host hsaid
    rw [hhost, Option.or_none] at hlast
    obtain ⟨value, hvalue, hnamed⟩ := Option.map_eq_some_iff.mp hlast.symm
    rw [hvalue]
    simp [hnamed]
  · have hne := (read_fits h).ne hserver
    exact ⟨fun _ hs => absurd hs hserver, fun _ => hne⟩

/-- What a connection that is read is to be: a host and a database of one word each, a port, and the
same connection again where its own words are read. -/
structure Kept (c : Connection) : Prop where
  host : c.host ≠ [] ∧ Plain c.host
  database : c.database ≠ [] ∧ Plain c.database
  port : 1 ≤ c.port ∧ c.port ≤ 65535
  again : read c.server c.toWords = .ok c

theorem kept_iff (h : read server text = .ok c) : c.Kept ↔ HostNamed server text := by
  have hfits := read_fits h
  rw [← host_ne_iff h]
  exact ⟨fun hkept => hkept.host.1, fun hhost => ⟨⟨hhost, hfits.plain⟩,
    ⟨hfits.database.ne, hfits.database.plain⟩, hfits.port, read_toWords hfits⟩⟩

end Connection

namespace Domain

/-- Two domains that name no one database on one server. -/
def Apart (d e : Domain) : Prop :=
  ∀ server c c', Technology.named d.storage = some (.server server) →
    Technology.named e.storage = some (.server server) →
      Connection.read server d.connection = .ok c → Connection.read server e.connection = .ok c' →
        ¬(c.host = c'.host ∧ c.port = c'.port ∧ c.database = c'.database)

variable {named : List Domain} {password : Option Words} {d e : Domain}

theorem checked_server {server : Server} {c : Connection}
    (hnamed : Technology.named d.storage = some (.server server))
    (hread : Connection.read server d.connection = .ok c) :
    d.checked = .ok (some (d.database, c)) := by
  simp only [checked, hnamed, hread]

/-- Connections none of which repeats an earlier one's are apart. -/
theorem pairwise_of_repeated {found : List (Schema.Database × Connection)}
    (h : (found.inits.zip found).filterMap (fun (earlier, named) => repeated earlier named) = []) :
    found.Pairwise fun d e => d.2.address ≠ e.2.address := by
  rw [List.pairwise_iff_getElem]
  intro i j hi hj hij haddress
  have hmem : (found.take j, found[j]) ∈ found.inits.zip found := by
    rw [List.mem_iff_getElem]
    refine ⟨j, by simp only [List.length_zip, List.length_inits]; omega, ?_⟩
    simp [List.getElem_inits]
  have hnone := List.filterMap_eq_nil_iff.mp h _ hmem
  simp only [repeated, Option.map_eq_none_iff, List.find?_eq_none] at hnone
  have htake : found[i] ∈ found.take j := by
    rw [List.mem_take_iff_getElem]
    exact ⟨i, by omega, rfl⟩
  exact hnone _ htake (by simpa using haddress)

theorem pairwise_apart (h : problems named password = []) : named.Pairwise Apart := by
  obtain ⟨⟨-, hrepeated⟩, -⟩ : _ ∧ _ := by
    simpa only [problems, List.append_eq_nil_iff] using h
  have hpairs := List.pairwise_filterMap.mp (pairwise_of_repeated hrepeated)
  refine hpairs.imp fun {d e} happart => ?_
  intro server c c' hd he hread hread' hsame
  obtain ⟨hhost, hport, hdatabase⟩ := hsame
  refine happart (d.database, c) ?_ (e.database, c') ?_ ?_
  · rw [checked_server hd hread]
  · rw [checked_server he hread']
  · have hserver : c.server = c'.server :=
      (Connection.read_server hread).trans (Connection.read_server hread').symm
    simp only [Connection.address, hhost, hport, hdatabase, hserver]

end Domain

namespace Connection

/-- A text that is read is one connection, said again in its own words, exactly where it names a
host, and the domains nothing is wrong with name databases of their own. -/
theorem reads_back (server : Server) (text : Words) (named : List Domain)
    (password : Option Words) :
    (∀ c, read server text = .ok c → (c.Kept ↔ HostNamed server text)) ∧
      (Domain.problems named password = [] → named.Pairwise Domain.Apart) :=
  ⟨fun _ => kept_iff, Domain.pairwise_apart⟩

/-- Keys in any order and case, one of them twice. -/
def spelled : Words := " database = first;SERVER=tcp:db.north,1444;Database=xmip;user id=sa".toList

theorem reads_back_spelled :
    (⟨.sqlServer, some "sa".toList, "db.north".toList, 1444, "xmip".toList⟩ : Connection).Kept ∧
      [(⟨.runtime, "mssql", spelled⟩ : Domain), ⟨.audit, "sqlite", "/var/audit".toList⟩].Pairwise
        Domain.Apart := by
  have hboth := reads_back .sqlServer spelled
    [⟨.runtime, "mssql", spelled⟩, ⟨.audit, "sqlite", "/var/audit".toList⟩] (some "secret".toList)
  refine ⟨(hboth.1 _ ?_).mpr ?_, hboth.2 ?_⟩
  · decide +kernel
  · decide +kernel
  · decide +kernel

/-- A `Server` of a port alone names no host. -/
theorem hostless_read :
    ¬∀ server text c, read server text = .ok c → c.Kept := by
  intro h
  have hread : read .sqlServer "Server=,1433;Database=x".toList =
      .ok ⟨.sqlServer, none, [], 1433, "x".toList⟩ := by decide +kernel
  exact (h _ _ _ hread).host.1 rfl

end Connection

end XmipPersist
