import XmipPersist.Model.ChunkReader

/-! # What a reader hands out, and when it says the end

Whatever calls a reader takes, and whichever of them fail, what it has handed out and what it holds
are the chunks so far, and how far it is from the end tells how many calls it still takes.
-/

namespace XmipPersist.ChunkReader

variable {sha : Bytes → Bytes} {chunks : ℕ → Option Bytes} {turns start before missing : ℕ}
  {r r' : ChunkReader} {out : Bytes} {failing : ℕ → Option PersistError}

/-! ## The bytes of chunks -/

/-- The bytes of so many chunks from one on. -/
def bytesFrom (chunks : ℕ → Option Bytes) (start count : ℕ) : Bytes :=
  (List.range' start count).flatMap fun n => (chunks n).getD []

theorem bytesFrom_add (a b : ℕ) : bytesFrom chunks start (a + b) =
    bytesFrom chunks start a ++ bytesFrom chunks (start + a) b := by
  have hsplit : List.range' start a ++ List.range' (start + a) b = List.range' start (a + b) := by
    rw [← List.range'_append, Nat.one_mul]
  rw [bytesFrom, ← hsplit, List.flatMap_append]
  rfl

theorem bytesFrom_one {chunk : Bytes} (h : chunks start = some chunk) :
    bytesFrom chunks start 1 = chunk := by
  simp [bytesFrom, h]

/-- The first chunk missing at a starting point or after it, its number one of 32 bits. -/
structure Missing (chunks : ℕ → Option Bytes) (start missing : ℕ) : Prop where
  le : start ≤ missing
  lt : missing < 2 ^ 32
  absent : chunks missing = none
  present : ∀ n, start ≤ n → n < missing → chunks n ≠ none

/-- Every byte from the starting point to the first missing chunk. -/
def whole (chunks : ℕ → Option Bytes) (start missing : ℕ) : Bytes :=
  bytesFrom chunks start (missing - start)

/-- Whether the bytes before the starting point and after it make the length kept of them, and are
of the digest kept of them where one is. -/
structure Whole (sha : Bytes → Bytes) (source : Chunked) (length before : ℕ) (bytes : Bytes) :
    Prop where
  length : before + bytes.length = length
  digest : ∀ said ∈ source.said, sha bytes = said

/-! ## What one call does -/

/-- What asking for the next chunk comes to, and the reader after it. -/
inductive Next (sha : Bytes → Bytes) (chunks : ℕ → Option Bytes)
    (failing : ℕ → Option PersistError) (r : ChunkReader) :
    Except ReadError (Option Bytes) → ChunkReader → Prop
  | rest (held : r.taken < r.held.length) :
      Next sha chunks failing r (.ok (some (r.held.drop r.taken)))
        { r with held := [], taken := 0 }
  | again (drained : r.held.length ≤ r.taken) (ended : r.ended = true) :
      Next sha chunks failing r (.ok none) r
  | unread (drained : r.held.length ≤ r.taken) (error : PersistError)
      (fails : failing r.next = some error) : Next sha chunks failing r (.error (.unread error)) r
  | chunk (drained : r.held.length ≤ r.taken) (going : r.ended = false)
      (fails : failing r.next = none) (bytes : Bytes) (kept : chunks r.next = some bytes) :
      Next sha chunks failing r (.ok (some bytes))
        { r with
          counted := (r.counted + bytes.length) % 2 ^ 64
          digest := r.digest.map (· ++ bytes)
          next := (r.next + 1) % 2 ^ 32
          held := []
          taken := 0 }
  | short (drained : r.held.length ≤ r.taken) (going : r.ended = false)
      (missing : chunks r.next = none) (counted : r.counted ≠ r.length) :
      Next sha chunks failing r (.error (.short r.source r.counted r.next r.length)) r
  | unlike (drained : r.held.length ≤ r.taken) (going : r.ended = false)
      (missing : chunks r.next = none) (counted : r.counted = r.length) (said : Bytes)
      (held : r.source.said = some said) (digest : sha (r.digest.getD []) ≠ said) :
      Next sha chunks failing r
        (.error (.unlike r.source (sha (r.digest.getD [])) said)) { r with digest := none }
  | ended (drained : r.held.length ≤ r.taken) (going : r.ended = false)
      (missing : chunks r.next = none) (counted : r.counted = r.length)
      (digest : ∀ said ∈ r.source.said, sha (r.digest.getD []) = said) (left : Option Bytes)
      (left_eq : left = if r.source.said = none then r.digest else none) :
      Next sha chunks failing r (.ok none) { r with digest := left, ended := true }

theorem nextChunk_next (r : ChunkReader) :
    Next sha chunks failing r (r.nextChunk sha (asked chunks failing)).1
      (r.nextChunk sha (asked chunks failing)).2 := by
  by_cases hheld : r.taken < r.held.length
  · rw [nextChunk, if_pos hheld]
    exact .rest hheld
  · have hdrained : r.held.length ≤ r.taken := Nat.le_of_not_lt hheld
    rw [nextChunk, if_neg hheld]
    by_cases hended : r.ended = true
    · rw [if_pos hended]
      exact .again hdrained hended
    · rw [if_neg hended]
      have hgoing : r.ended = false := by simpa using hended
      cases hfails : failing r.next with
      | some error =>
          simp only [asked, hfails]
          exact .unread hdrained error hfails
      | none =>
          simp only [asked, hfails]
          cases hkept : chunks r.next with
          | some bytes => exact .chunk hdrained hgoing hfails bytes hkept
          | none =>
              simp only [ending]
              by_cases hcounted : r.counted = r.length
              · rw [if_neg (not_not.mpr hcounted)]
                cases hsaid : r.source.said with
                | none =>
                    have hdigest : ∀ said ∈ r.source.said, sha (r.digest.getD []) = said := by
                      simp [hsaid]
                    exact .ended hdrained hgoing hkept hcounted hdigest r.digest (by simp [hsaid])
                | some said =>
                    by_cases hdigest : sha (r.digest.getD []) = said
                    · have hsame : ∀ said ∈ r.source.said, sha (r.digest.getD []) = said := by
                        simp [hsaid, hdigest]
                      simp only [if_neg (not_not.mpr hdigest)]
                      exact .ended hdrained hgoing hkept hcounted hsame none (by simp [hsaid])
                    · simp only [if_pos hdigest]
                      exact .unlike hdrained hgoing hkept hcounted said hsaid hdigest
              · rw [if_pos hcounted]
                exact .short hdrained hgoing hkept hcounted

theorem next_of {res : Except ReadError (Option Bytes)}
    (h : r.nextChunk sha (asked chunks failing) = (res, r')) :
    Next sha chunks failing r res r' := by
  have hnext : Next sha chunks failing r (r.nextChunk sha (asked chunks failing)).1
      (r.nextChunk sha (asked chunks failing)).2 := nextChunk_next r
  rwa [h] at hnext

/-! ## What stays so -/

/-- A reader that has handed `out` out: with what it holds they are the chunks so far, its count and
its digest are theirs, and it says the end only past the last of them. -/
structure Reading (sha : Bytes → Bytes) (chunks : ℕ → Option Bytes) (start before missing : ℕ)
    (source : Chunked) (length : ℕ) (out : Bytes) (r : ChunkReader) : Prop where
  reads : r.source = source
  long : r.length = length
  low : start ≤ r.next
  high : r.next ≤ missing
  taken : r.taken ≤ r.held.length
  bytes : out ++ r.held.drop r.taken = bytesFrom chunks start (r.next - start)
  counted : r.counted = (before + (bytesFrom chunks start (r.next - start)).length) % 2 ^ 64
  digest : ∀ taken, r.digest = some taken → taken = bytesFrom chunks start (r.next - start)
  spent : r.digest = none → ∀ said ∈ source.said, r.next = missing ∧ r.counted = length ∧
    (r.ended = true ∨ sha (whole chunks start missing) ≠ said)
  ended : r.ended = true → r.next = missing ∧ r.counted = length ∧
    ∀ said ∈ source.said, sha (whole chunks start missing) = said ∨ sha [] = said

/-- How far a reader is from the end: the chunks and the bytes it has still to hand out. -/
def left (chunks : ℕ → Option Bytes) (missing : ℕ) (r : ChunkReader) : ℕ :=
  (missing - r.next) + (r.held.length - r.taken) +
    (bytesFrom chunks r.next (missing - r.next)).length

variable {source : Chunked} {length : ℕ} {piece : Bytes}
  {res : Except ReadError (Option Bytes)}

namespace Reading

/-- A reader whose held chunk is taken as handed out. -/
theorem rest (h : Reading sha chunks start before missing source length out r) :
    Reading sha chunks start before missing source length (out ++ r.held.drop r.taken)
      { r with held := [], taken := 0 } :=
  { h with taken := le_rfl, bytes := by simpa using h.bytes }

/-- A reader that holds what it would have handed out. -/
theorem hold (h : Reading sha chunks start before missing source length (out ++ piece) r)
    (hheld : r.held = []) :
    Reading sha chunks start before missing source length out
      { r with held := piece, taken := 0 } := by
  have hbytes := h.bytes
  rw [hheld, List.drop_nil, List.append_nil] at hbytes
  exact { h with taken := Nat.zero_le _, bytes := by simpa using hbytes }

/-- A reader that hands out a piece of what it holds. -/
theorem hand (h : Reading sha chunks start before missing source length out r) (size : ℕ) :
    Reading sha chunks start before missing source length
      (out ++ (r.held.drop r.taken).take (min size (r.held.length - r.taken)))
      { r with taken := r.taken + min size (r.held.length - r.taken) } := by
  have htaken := h.taken
  refine { h with taken := ?_, bytes := ?_ }
  · have hmin := Nat.min_le_right size (r.held.length - r.taken)
    simp only
    omega
  · rw [← h.bytes, List.append_assoc, ← List.drop_drop, List.take_append_drop]

/-- A reader that takes the next chunk in. -/
theorem chunk (h : Reading sha chunks start before missing source length out r)
    (hmissing : Missing chunks start missing) (hdrained : r.held.length ≤ r.taken)
    (hgoing : r.ended = false) (hkept : chunks r.next = some piece) :
    Reading sha chunks start before missing source length (out ++ piece)
        { r with
          counted := (r.counted + piece.length) % 2 ^ 64
          digest := r.digest.map (· ++ piece)
          next := (r.next + 1) % 2 ^ 32
          held := []
          taken := 0 } ∧
      r.next < missing ∧ (r.next + 1) % 2 ^ 32 = r.next + 1 := by
  have hlt : r.next < missing := by
    refine lt_of_le_of_ne h.high fun he => ?_
    rw [he, hmissing.absent] at hkept
    cases hkept
  have hbound := hmissing.lt
  have hnext : (r.next + 1) % 2 ^ 32 = r.next + 1 := Nat.mod_eq_of_lt (by omega)
  have hmore : bytesFrom chunks start (r.next + 1 - start) =
      bytesFrom chunks start (r.next - start) ++ piece := by
    have hlow := h.low
    have hsub : r.next + 1 - start = (r.next - start) + 1 := by omega
    have hat : start + (r.next - start) = r.next := by omega
    rw [hsub, bytesFrom_add, hat, bytesFrom_one hkept]
  have hbytes := h.bytes
  rw [List.drop_eq_nil_of_le hdrained, List.append_nil] at hbytes
  refine ⟨{ h with
    low := ?_, high := ?_, taken := le_rfl, bytes := ?_, counted := ?_, digest := ?_, spent := ?_,
    ended := ?_ }, hlt, hnext⟩
  · simp only [hnext]
    exact Nat.le_succ_of_le h.low
  · simp only [hnext]
    exact hlt
  · simp only [hnext, hmore, hbytes, List.drop_nil, List.append_nil]
  · simp only [hnext, hmore, h.counted, List.length_append]
    omega
  · intro taken htaken
    obtain ⟨taken', hdigest, rfl⟩ := Option.map_eq_some_iff.mp htaken
    simp only [hnext, hmore, h.digest taken' hdigest]
  · intro hnone said hsaid
    have hspent := h.spent (Option.map_eq_none_iff.mp hnone) said hsaid
    omega
  · intro hended
    rw [hgoing] at hended
    cases hended

theorem at_missing (h : Reading sha chunks start before missing source length out r)
    (hmissing : Missing chunks start missing) (hnone : chunks r.next = none) :
    r.next = missing := by
  by_contra hne
  have hlt : r.next < missing := lt_of_le_of_ne h.high hne
  exact hmissing.present r.next h.low hlt hnone

/-- What the digest is taken of at the end: every byte, or none where it was taken before. -/
theorem taken_in (h : Reading sha chunks start before missing source length out r)
    (hnext : r.next = missing) :
    (r.digest.isSome ∧ r.digest.getD [] = whole chunks start missing) ∨
      (r.digest = none ∧ r.digest.getD [] = []) := by
  cases hdigest : r.digest with
  | none => exact .inr ⟨rfl, rfl⟩
  | some taken =>
      have htaken := h.digest taken hdigest
      rw [hnext] at htaken
      exact .inl ⟨rfl, htaken⟩

/-- A reader whose bytes are not of the digest kept. -/
theorem unlike (h : Reading sha chunks start before missing source length out r)
    (hnext : r.next = missing) (hgoing : r.ended = false) (hcounted : r.counted = r.length)
    {said : Bytes} (hsaid : r.source.said = some said) (hdigest : sha (r.digest.getD []) ≠ said) :
    Reading sha chunks start before missing source length out { r with digest := none } := by
  refine { h with digest := nofun, spent := ?_ }
  intro _ said' hsaid'
  obtain rfl : said = said' := by
    rw [h.reads] at hsaid
    exact Option.some.inj (hsaid.symm.trans hsaid')
  refine ⟨hnext, hcounted.trans h.long, .inr ?_⟩
  rcases h.taken_in hnext with ⟨-, hwhole⟩ | ⟨hnone, -⟩
  · rwa [hwhole] at hdigest
  · rcases (h.spent hnone said hsaid').2.2 with hended | hne
    · rw [hgoing] at hended
      cases hended
    · exact hne

/-- A reader that says the end. -/
theorem saying (h : Reading sha chunks start before missing source length out r)
    (hnext : r.next = missing) (hcounted : r.counted = r.length)
    (hdigest : ∀ said ∈ r.source.said, sha (r.digest.getD []) = said) (left : Option Bytes)
    (hleft : left = if r.source.said = none then r.digest else none) :
    Reading sha chunks start before missing source length out
      { r with digest := left, ended := true } := by
  refine { h with digest := ?_, spent := ?_, ended := ?_ }
  · intro taken htaken
    simp only [hleft] at htaken
    split at htaken
    · exact h.digest taken htaken
    · cases htaken
  · exact fun _ _ _ => ⟨hnext, hcounted.trans h.long, .inl rfl⟩
  · refine fun _ => ⟨hnext, hcounted.trans h.long, fun said hsaid => ?_⟩
    rw [← h.reads] at hsaid
    have hsame := hdigest said hsaid
    rcases h.taken_in hnext with ⟨-, hwhole⟩ | ⟨-, hempty⟩
    · exact .inl (hwhole ▸ hsame)
    · exact .inr (hempty ▸ hsame)

end Reading

/-! ## What a call does -/

/-- The bytes a call hands out. -/
def Answer.bytes : Answer → Bytes
  | .handed bytes => bytes
  | _ => []

/-- Whether what storage says of every chunk is what it keeps. -/
def Call.Succeeds : Call → Prop
  | .read _ _ failing => failing = fun _ => none
  | .nextChunk failing => failing = fun _ => none

/-- What a call does to a reader that has handed `out` out. -/
structure Step (sha : Bytes → Bytes) (chunks : ℕ → Option Bytes) (start before missing : ℕ)
    (source : Chunked) (length : ℕ) (out : Bytes) (r : ChunkReader) (answer : Answer)
    (r' : ChunkReader) : Prop where
  reading : Reading sha chunks start before missing source length (out ++ answer.bytes) r'
  returns : answer ≠ .spinning
  ended : answer = .ended → r'.ended = true ∧ left chunks missing r' = 0
  kept : r.ended = true → r'.ended = true
  nearer : left chunks missing r' ≤ left chunks missing r
  handed : ∀ bytes, answer = .handed bytes → left chunks missing r' < left chunks missing r

/-- What a call whose chunks are read ends with where it ends with a failure: the last chunk taken,
and the bytes not those kept. -/
structure Refused (sha : Bytes → Bytes) (chunks : ℕ → Option Bytes) (start before missing : ℕ)
    (source : Chunked) (length : ℕ) (r' : ChunkReader) : Prop where
  left : left chunks missing r' = 0
  ended : r'.ended = false
  unlike : (before + (whole chunks start missing).length) % 2 ^ 64 = length →
    r'.digest = none ∧ ∃ said ∈ source.said, sha (whole chunks start missing) ≠ said

/-- What asking for the next chunk hands out. -/
def passed : Except ReadError (Option Bytes) → Bytes
  | .ok (some bytes) => bytes
  | _ => []

theorem Next.kept (hnext : Next sha chunks failing r res r') (hended : r.ended = true) :
    r'.ended = true := by
  cases hnext <;> first | assumption | rfl

/-- A reader with nothing held and no chunk left to ask for is at its end. -/
theorem left_eq_zero (hdrained : r.held.length ≤ r.taken) (hnext : r.next = missing) :
    left chunks missing r = 0 := by
  simp only [left, hnext, Nat.sub_self, bytesFrom, List.range'_zero, List.flatMap_nil,
    List.length_nil]
  omega

namespace Next

variable (h : Reading sha chunks start before missing source length out r)
  (hmissing : Missing chunks start missing)
include h hmissing

theorem reading (hnext : Next sha chunks failing r res r') :
    Reading sha chunks start before missing source length (out ++ passed res) r' := by
  cases hnext with
  | rest => exact h.rest
  | again => simpa [passed] using h
  | unread => simpa [passed] using h
  | short => simpa [passed] using h
  | chunk hdrained hgoing _ bytes hkept => exact (h.chunk hmissing hdrained hgoing hkept).1
  | unlike _ hgoing hnone hcounted said hsaid hdigest =>
      simpa [passed] using h.unlike (h.at_missing hmissing hnone) hgoing hcounted hsaid hdigest
  | ended _ _ hnone hcounted hdigest left hleft =>
      simpa [passed] using h.saying (h.at_missing hmissing hnone) hcounted hdigest left hleft

/-- A chunk taken in brings a reader one nearer to the end, whether held or handed out. -/
theorem hold_left (hdrained : r.held.length ≤ r.taken)
    (hnext : Next sha chunks failing r (.ok (some piece)) r') :
    r'.held = [] ∧ r.next < r'.next ∧ r'.ended = r.ended ∧
      left chunks missing { r' with held := piece, taken := 0 } + 1 = left chunks missing r := by
  cases hnext with
  | rest hheld => omega
  | chunk _ hgoing _ _ hkept =>
      obtain ⟨-, hlt, hmod⟩ := h.chunk hmissing hdrained hgoing hkept
      have hsub : missing - r.next = 1 + (missing - (r.next + 1)) := by omega
      have hbytes : bytesFrom chunks r.next (missing - r.next) =
          piece ++ bytesFrom chunks (r.next + 1) (missing - (r.next + 1)) := by
        rw [hsub, bytesFrom_add, bytesFrom_one hkept]
      refine ⟨rfl, by simp only [hmod]; omega, rfl, ?_⟩
      simp only [left, hmod, hbytes, List.length_append]
      omega

theorem handed (hnext : Next sha chunks failing r (.ok (some piece)) r') :
    left chunks missing r' < left chunks missing r := by
  by_cases hheld : r.taken < r.held.length
  · cases hnext with
    | rest => 
        simp only [left, List.length_nil]
        omega
    | chunk hdrained => omega
  · have hdrained := Nat.le_of_not_lt hheld
    obtain ⟨hempty, -, -, hleft⟩ := hold_left h hmissing hdrained hnext
    have hle : left chunks missing r' ≤
        left chunks missing { r' with held := piece, taken := 0 } := by
      simp only [left, hempty, List.length_nil]
      omega
    omega

theorem ends (hnext : Next sha chunks failing r (.ok none) r') :
    r'.ended = true ∧ left chunks missing r' = 0 ∧ left chunks missing r = 0 := by
  cases hnext with
  | again hdrained hended =>
      have hat := (h.ended hended).1
      have hleft : left chunks missing r = 0 := left_eq_zero hdrained hat
      exact ⟨hended, hleft, hleft⟩
  | ended hdrained _ hnone =>
      have hat := h.at_missing hmissing hnone
      have hleft : left chunks missing r = 0 := left_eq_zero hdrained hat
      exact ⟨rfl, hleft, hleft⟩

theorem fails {error : ReadError} (hnext : Next sha chunks failing r (.error error) r') :
    left chunks missing r' = left chunks missing r ∧
      ((failing = fun _ => none) → Refused sha chunks start before missing source length r') := by
  cases hnext with
  | unread _ error hfails =>
      refine ⟨rfl, fun hnone => ?_⟩
      rw [hnone] at hfails
      cases hfails
  | short hdrained hgoing hnone hcounted =>
      have hat := h.at_missing hmissing hnone
      refine ⟨rfl, fun _ => ⟨left_eq_zero hdrained hat, hgoing, fun hlong => ?_⟩⟩
      have hcount := h.counted
      rw [hat] at hcount
      exact absurd (hcount.trans (hlong.trans h.long.symm)) hcounted
  | unlike hdrained hgoing hnone hcounted said hsaid hdigest =>
      have hat := h.at_missing hmissing hnone
      have hspent := h.unlike hat hgoing hcounted hsaid hdigest
      rw [h.reads] at hsaid
      have hleft : left chunks missing r = 0 := left_eq_zero hdrained hat
      refine ⟨rfl, fun _ => ⟨hleft, hgoing, fun _ => ⟨rfl, said, hsaid, ?_⟩⟩⟩
      rcases (hspent.spent rfl said hsaid).2.2 with hended | hne
      · simp only at hended
        rw [hgoing] at hended
        cases hended
      · exact hne

end Next

/-! ## One call, and calls one after the other -/

/-- What a call of a reader within the turns it may take comes to. -/
structure Called (sha : Bytes → Bytes) (chunks : ℕ → Option Bytes) (start before missing : ℕ)
    (source : Chunked) (length : ℕ) (out : Bytes) (r : ChunkReader) (answer : Answer)
    (r' : ChunkReader) (succeeds : Prop) : Prop extends
    Step sha chunks start before missing source length out r answer r' where
  failed : succeeds → ∀ error, answer = .failed error →
    Refused sha chunks start before missing source length r'

section

variable (hmissing : Missing chunks start missing)
include hmissing

theorem nextChunk_called (h : Reading sha chunks start before missing source length out r) :
    Called sha chunks start before missing source length out r
      (r.call sha chunks turns (.nextChunk failing)).1
      (r.call sha chunks turns (.nextChunk failing)).2 (Call.nextChunk failing).Succeeds := by
  simp only [call]
  rcases hout : r.nextChunk sha (asked chunks failing) with ⟨res, r'⟩
  have hnext := next_of hout
  have hreading := hnext.reading h hmissing
  cases res with
  | error error =>
      obtain ⟨hleft, hrefused⟩ := hnext.fails h hmissing
      exact ⟨⟨hreading, nofun, nofun, hnext.kept, hleft.le, nofun⟩,
        fun hsucceeds _ _ => hrefused hsucceeds⟩
  | ok res =>
      cases res with
      | none =>
          obtain ⟨hended, hleft, hbefore⟩ := hnext.ends h hmissing
          have hnearer : left chunks missing r' ≤ left chunks missing r := by omega
          exact ⟨⟨hreading, nofun, fun _ => ⟨hended, hleft⟩, hnext.kept, hnearer, nofun⟩,
            fun _ => nofun⟩
      | some bytes =>
          have hlt := hnext.handed h hmissing
          exact ⟨⟨hreading, nofun, nofun, hnext.kept, hlt.le, fun _ _ => hlt⟩, fun _ => nofun⟩

/-- What a read comes to, as an answer. -/
def answerOf : Except ReadError Bytes → Answer
  | .error error => .failed error
  | .ok [] => .ended
  | .ok bytes => .handed bytes

omit hmissing in
/-- A call of a reader nearer to the end is one of a reader further from it. -/
theorem Called.of_nearer {r₁ : ChunkReader} {answer : Answer} {succeeds : Prop}
    (h : Called sha chunks start before missing source length out r₁ answer r' succeeds)
    (hended : r.ended = true → r₁.ended = true)
    (hleft : left chunks missing r₁ ≤ left chunks missing r) :
    Called sha chunks start before missing source length out r answer r' succeeds :=
  { h with
    kept := fun he => h.kept (hended he)
    nearer := h.nearer.trans hleft
    handed := fun bytes hbytes => (h.handed bytes hbytes).trans_le hleft }

theorem read_called {size : ℕ} (hsize : 0 < size)
    (h : Reading sha chunks start before missing source length out r)
    (hturns : missing - r.next < turns) :
    ∃ res r', r.read sha (asked chunks failing) size turns = some (res, r') ∧
      Called sha chunks start before missing source length out r (answerOf res) r'
        (failing = fun _ => none) := by
  induction turns generalizing r with
  | zero => omega
  | succ turns ih =>
      simp only [read]
      by_cases hheld : r.taken = r.held.length
      · rw [if_pos hheld]
        rcases hout : r.nextChunk sha (asked chunks failing) with ⟨res, r'⟩
        have hnext := next_of hout
        have hreading := hnext.reading h hmissing
        cases res with
        | error error =>
            obtain ⟨hleft, hrefused⟩ := hnext.fails h hmissing
            exact ⟨_, _, rfl, ⟨hreading, nofun, nofun, hnext.kept, hleft.le, nofun⟩,
              fun hsucceeds _ _ => hrefused hsucceeds⟩
        | ok res =>
            cases res with
            | none =>
                obtain ⟨hended, hleft, hbefore⟩ := hnext.ends h hmissing
                have hnearer : left chunks missing r' ≤ left chunks missing r := by omega
                exact ⟨_, _, rfl, ⟨hreading, nofun, fun _ => ⟨hended, hleft⟩, hnext.kept, hnearer,
                  nofun⟩, fun _ => nofun⟩
            | some bytes =>
                obtain ⟨hempty, hlt, hsame, hleft⟩ := hnext.hold_left h hmissing hheld.ge
                have hhigh := hreading.high
                have hturns' : missing - r'.next < turns := by omega
                obtain ⟨res, r'', hread, hcalled⟩ := ih (hreading.hold hempty) hturns'
                have hnearer := (Nat.le_succ _).trans hleft.le
                exact ⟨res, r'', hread, hcalled.of_nearer (fun he => hsame.trans he) hnearer⟩
      · rw [if_neg hheld]
        have htaken := h.taken
        have hsome : 0 < min size (r.held.length - r.taken) := by omega
        have hhand := h.hand size
        generalize hpiece : (r.held.drop r.taken).take (min size (r.held.length - r.taken)) = bytes
          at hhand
        have hlength : bytes.length = min size (r.held.length - r.taken) := by
          rw [← hpiece, List.length_take, List.length_drop]
          omega
        have hleft : left chunks missing
            { r with taken := r.taken + min size (r.held.length - r.taken) } <
              left chunks missing r := by
          simp only [left]
          omega
        cases bytes with
        | nil =>
            rw [List.length_nil] at hlength
            omega
        | cons first rest =>
            exact ⟨_, _, rfl, ⟨hhand, nofun, nofun, id, hleft.le, fun _ _ => hleft⟩, fun _ => nofun⟩

theorem call_called (c : Call) (h : Reading sha chunks start before missing source length out r)
    (hturns : missing - r.next < turns) :
    Called sha chunks start before missing source length out r (r.call sha chunks turns c).1
      (r.call sha chunks turns c).2 c.Succeeds := by
  cases c with
  | nextChunk failing => exact nextChunk_called hmissing h
  | read size room failing =>
      obtain ⟨res, r', hread, hcalled⟩ : ∃ res r',
          r.read sha (asked chunks failing) size turns = some (res, r') ∧ _ :=
        read_called hmissing room h hturns
      have hcall : r.call sha chunks turns (.read size room failing) = (answerOf res, r') := by
        simp only [call, hread]
        cases res with
        | error error => rfl
        | ok bytes => cases bytes <;> rfl
      rw [hcall]
      exact hcalled

/-- What a run of calls leaves: what was handed out and what is held are the chunks so far, and an
end once said is said of every byte. -/
structure Ran (sha : Bytes → Bytes) (chunks : ℕ → Option Bytes) (start before missing : ℕ)
    (source : Chunked) (length : ℕ) (out : Bytes) (r : ChunkReader) (answers : List Answer)
    (r' : ChunkReader) : Prop where
  reading : Reading sha chunks start before missing source length
    (out ++ answers.flatMap Answer.bytes) r'
  returns : .spinning ∉ answers
  kept : r.ended = true → r'.ended = true
  nearer : left chunks missing r' ≤ left chunks missing r
  ended : .ended ∈ answers → r'.ended = true ∧ left chunks missing r' = 0

theorem calls_ran (cs : List Call)
    (h : Reading sha chunks start before missing source length out r)
    (hturns : missing - start < turns) :
    Ran sha chunks start before missing source length out r (r.calls sha chunks turns cs).1
      (r.calls sha chunks turns cs).2 := by
  induction cs generalizing r out with
  | nil => exact ⟨by simpa [calls] using h, by simp [calls], id, le_rfl, by simp [calls]⟩
  | cons c cs ih =>
      have hlow := h.low
      have hless : missing - r.next < turns := by omega
      have hcalled := call_called hmissing c h hless
      obtain ⟨hreading, hreturns, hkept, hnearer, hended⟩ := ih hcalled.reading
      simp only [calls]
      refine ⟨?_, ?_, fun he => hkept (hcalled.kept he), hnearer.trans hcalled.nearer, ?_⟩
      · rw [List.flatMap_cons, ← List.append_assoc]
        exact hreading
      · rw [List.mem_cons, not_or]
        exact ⟨hcalled.returns.symm, hreturns⟩
      · intro hmem
        rcases List.mem_cons.mp hmem with he | hmem
        · obtain ⟨hsaid, hleft⟩ := hcalled.ended he.symm
          exact ⟨hkept hsaid, by omega⟩
        · exact hended hmem

/-- Each call whose chunks are read brings a reader one nearer to the end. -/
theorem calls_left {cs : List Call} (hcs : ∀ c ∈ cs, c.Succeeds)
    (h : Reading sha chunks start before missing source length out r)
    (hturns : missing - start < turns) :
    left chunks missing (r.calls sha chunks turns cs).2 ≤ left chunks missing r - cs.length := by
  induction cs generalizing r out with
  | nil => exact le_rfl
  | cons c cs ih =>
      obtain ⟨hc, hcs⟩ := List.forall_mem_cons.mp hcs
      have hlow := h.low
      have hless : missing - r.next < turns := by omega
      have hcalled := call_called hmissing c h hless
      have hrest := ih hcs hcalled.reading
      have hone : left chunks missing (r.call sha chunks turns c).2 ≤
          left chunks missing r - 1 := by
        cases hanswer : (r.call sha chunks turns c).1 with
        | handed bytes => exact Nat.le_sub_one_of_lt (hcalled.handed bytes hanswer)
        | ended => exact (hcalled.ended hanswer).2.le.trans (Nat.zero_le _)
        | failed error => exact (hcalled.failed hc error hanswer).left.le.trans (Nat.zero_le _)
        | spinning => exact absurd hanswer hcalled.returns
      simp only [calls, List.length_cons]
      omega

/-- At the end, a call whose chunks are read says the end or refuses what was read. -/
theorem call_at_end {c : Call} (hc : c.Succeeds)
    (h : Reading sha chunks start before missing source length out r)
    (hturns : missing - start < turns) (hleft : left chunks missing r = 0) :
    (r.call sha chunks turns c).1 = .ended ∨
      (∃ error, (r.call sha chunks turns c).1 = .failed error) ∧
        Refused sha chunks start before missing source length (r.call sha chunks turns c).2 := by
  have hlow := h.low
  have hless : missing - r.next < turns := by omega
  have hcalled := call_called hmissing c h hless
  cases hanswer : (r.call sha chunks turns c).1 with
  | handed bytes =>
      have hlt := hcalled.handed bytes hanswer
      omega
  | ended => exact .inl rfl
  | failed error => exact .inr ⟨⟨error, rfl⟩, hcalled.failed hc error hanswer⟩
  | spinning => exact absurd hanswer hcalled.returns

end

theorem calls_append (r : ChunkReader) (cs more : List Call) :
    r.calls sha chunks turns (cs ++ more) =
      ((r.calls sha chunks turns cs).1 ++
          ((r.calls sha chunks turns cs).2.calls sha chunks turns more).1,
        ((r.calls sha chunks turns cs).2.calls sha chunks turns more).2) := by
  induction cs generalizing r with
  | nil => rfl
  | cons c cs ih => simp only [List.cons_append, calls, ih]

/-- A reader that has nothing left has handed every byte out. -/
theorem Reading.all (h : Reading sha chunks start before missing source length out r)
    (hleft : left chunks missing r = 0) : out = whole chunks start missing ∧ r.next = missing := by
  have hhigh := h.high
  have hnext : r.next = missing := by
    simp only [left] at hleft
    omega
  have hdrained : r.held.length ≤ r.taken := by
    simp only [left] at hleft
    omega
  have hbytes := h.bytes
  rw [List.drop_eq_nil_of_le hdrained, List.append_nil, hnext] at hbytes
  exact ⟨hbytes, hnext⟩

/-- What a reader has handed out are the first of the bytes. -/
theorem Reading.order (h : Reading sha chunks start before missing source length out r) :
    out <+: whole chunks start missing := by
  have hhigh := h.high
  have hlow := h.low
  have hsub : missing - start = (r.next - start) + (missing - r.next) := by omega
  rw [whole, hsub, bytesFrom_add, ← h.bytes, List.append_assoc]
  exact List.prefix_append _ _

end XmipPersist.ChunkReader
