import XmipPersist.Verification.Stream.Reading

/-! # A Stream read to its end is the Stream that was kept

What a run of calls hands out, and when the end is said; and exactly where the end is never said of
other bytes than those kept.
-/

namespace XmipPersist.ChunkReader

variable {sha : Bytes → Bytes} {chunks : ℕ → Option Bytes} {turns start before missing : ℕ}
  {r : ChunkReader}

/-- A reader newly made: from a Stream's first chunk on, or from one of its chunks with the bytes
before it. -/
inductive Opened : ChunkReader → ℕ → ℕ → Prop
  | new (source : Chunked) (length : ℕ) (bound : length < 2 ^ 64) :
      Opened { source, length } 0 0
  | shared (stream length chunk before : ℕ) (bound : length < 2 ^ 64)
      (counted : before < 2 ^ 64) : Opened (sharedFrom stream length chunk before) chunk before

theorem Opened.reading (h : Opened r start before) (hmissing : Missing chunks start missing) :
    Reading sha chunks start before missing r.source r.length [] r ∧ r.length < 2 ^ 64 := by
  have hempty : bytesFrom chunks start 0 = [] := rfl
  cases h with
  | new source length bound =>
      refine ⟨⟨rfl, rfl, le_rfl, hmissing.le, le_rfl, rfl, rfl, ?_, ?_, nofun⟩, bound⟩
      · intro taken htaken
        obtain ⟨-, -, rfl⟩ := Option.map_eq_some_iff.mp htaken
        rfl
      · intro hnone said hsaid
        rw [Option.map_eq_none_iff] at hnone
        rw [hnone] at hsaid
        cases hsaid
  | shared stream length chunk before bound counted =>
      refine ⟨⟨rfl, rfl, le_rfl, hmissing.le, le_rfl, ?_, ?_, nofun, nofun, nofun⟩, bound⟩
      · simp only [sharedFrom, Nat.sub_self, hempty, List.drop_nil, List.append_nil]
      · simp only [sharedFrom, Nat.sub_self, hempty, List.length_nil, Nat.add_zero]
        exact (Nat.mod_eq_of_lt counted).symm

/-- What a run of calls is to be: each call returns; what was handed out are the bytes in order,
each once; the end is said of all of them only, and where they are the Stream kept; and calls enough
whose chunks are read come to the end, which is said where it may be. -/
structure Reads (sha : Bytes → Bytes) (chunks : ℕ → Option Bytes)
    (turns start before missing : ℕ) (r : ChunkReader) (cs : List Call) : Prop where
  returns : .spinning ∉ (r.calls sha chunks turns cs).1
  order : (r.calls sha chunks turns cs).1.flatMap Answer.bytes <+: whole chunks start missing
  ended : .ended ∈ (r.calls sha chunks turns cs).1 →
    (r.calls sha chunks turns cs).1.flatMap Answer.bytes = whole chunks start missing ∧
      Whole sha r.source r.length before (whole chunks start missing)
  reached : ∀ more : List Call, (∀ c ∈ more, c.Succeeds) →
    (missing - start) + (whole chunks start missing).length < more.length →
      ∃ answer ∈ (r.calls sha chunks turns (cs ++ more)).1.getLast?,
        (answer = .ended ∨ ∃ error, answer = .failed error) ∧
          (Whole sha r.source r.length before (whole chunks start missing) → answer = .ended)

/-- Where the count comes to the length kept, in 64 bits, and the digest kept is that of the bytes
or of none, the bytes are those kept. -/
def Told (sha : Bytes → Bytes) (source : Chunked) (length before : ℕ) (bytes : Bytes) : Prop :=
  (before + bytes.length) % 2 ^ 64 = length →
    (∀ said ∈ source.said, sha bytes = said ∨ sha [] = said) → Whole sha source length before bytes

variable {source : Chunked} {length : ℕ} {out : Bytes}

/-- A reader's count at its end. -/
theorem Reading.counted_whole
    (h : Reading sha chunks start before missing source length out r) (hnext : r.next = missing) :
    r.counted = (before + (whole chunks start missing).length) % 2 ^ 64 := by
  have hcounted := h.counted
  rwa [hnext] at hcounted

theorem left_start (h : Reading sha chunks start before missing source length out r) :
    left chunks missing r ≤ (missing - start) + (whole chunks start missing).length := by
  have hlow := h.low
  have hhigh := h.high
  have htaken := h.taken
  have hsub : missing - start = (r.next - start) + (missing - r.next) := by omega
  have hat : start + (r.next - start) = r.next := by omega
  have hsplit : (whole chunks start missing).length =
      (bytesFrom chunks start (r.next - start)).length +
        (bytesFrom chunks r.next (missing - r.next)).length := by
    rw [whole, hsub, bytesFrom_add, hat, List.length_append]
  have hheld : r.held.length - r.taken ≤ (bytesFrom chunks start (r.next - start)).length := by
    rw [← h.bytes, List.length_append, List.length_drop]
    omega
  simp only [left]
  omega

section

variable (hmissing : Missing chunks start missing) (hturns : missing - start < turns)
include hmissing hturns

/-- The last of calls enough whose chunks are read is made at the end. -/
theorem last_at_end (h : Reading sha chunks start before missing source length out r)
    {more : List Call} (hmore : ∀ c ∈ more, c.Succeeds)
    (hlong : (missing - start) + (whole chunks start missing).length < more.length) :
    ∃ answer ∈ (r.calls sha chunks turns more).1.getLast?,
      answer = .ended ∨ (∃ error, answer = .failed error) ∧
        Refused sha chunks start before missing source length
          (r.calls sha chunks turns more).2 := by
  have hne : more ≠ [] := by
    rintro rfl
    simp at hlong
  obtain ⟨init, last, rfl⟩ := List.eq_nil_or_concat' more |>.resolve_left hne
  have hinit : ∀ c ∈ init, c.Succeeds := fun c hc => hmore c (List.mem_append_left _ hc)
  have hran := calls_ran hmissing init h hturns
  have hleft := calls_left hmissing hinit h hturns
  have hstart := left_start h
  have hzero : left chunks missing (r.calls sha chunks turns init).2 = 0 := by
    rw [List.length_append, List.length_singleton] at hlong
    omega
  have hend := call_at_end hmissing (hmore last (by simp)) hran.reading hturns hzero
  rw [calls_append]
  simp only [calls]
  exact ⟨_, by simp, hend⟩

omit hmissing hturns in
/-- An end that is said is said of the Stream kept. -/
theorem ended_whole (h : Reading sha chunks start before missing source length out r)
    (htold : Told sha source length before (whole chunks start missing)) (hended : r.ended = true) :
    Whole sha source length before (whole chunks start missing) := by
  obtain ⟨hnext, hcounted, hdigest⟩ := h.ended hended
  exact htold ((h.counted_whole hnext).symm.trans hcounted) hdigest

omit hmissing hturns in
/-- Nothing refuses the Stream kept. -/
theorem Refused.not_whole (h : Refused sha chunks start before missing source length r)
    (hbound : length < 2 ^ 64) : ¬Whole sha source length before (whole chunks start missing) := by
  intro hwhole
  have hcount : (before + (whole chunks start missing).length) % 2 ^ 64 = length := by
    rw [hwhole.length]
    exact Nat.mod_eq_of_lt hbound
  obtain ⟨-, said, hsaid, hne⟩ := h.unlike hcount
  exact hne (hwhole.digest said hsaid)

theorem reads_of_told (h : Opened r start before)
    (htold : Told sha r.source r.length before (whole chunks start missing)) (cs : List Call) :
    Reads sha chunks turns start before missing r cs := by
  obtain ⟨hreading, hbound⟩ : Reading sha chunks start before missing r.source r.length [] r ∧ _ :=
    h.reading hmissing
  have hran := calls_ran hmissing cs hreading hturns
  have horder := hran.reading
  rw [List.nil_append] at horder
  refine ⟨hran.returns, horder.order, ?_, ?_⟩
  · intro hmem
    obtain ⟨hended, hleft⟩ := hran.ended hmem
    exact ⟨(horder.all hleft).1, ended_whole horder htold hended⟩
  · intro more hmore hlong
    obtain ⟨answer, hlast, hend⟩ := last_at_end hmissing hturns horder hmore hlong
    refine ⟨answer, ?_, ?_, ?_⟩
    · rw [calls_append, List.getLast?_append, hlast]
      rfl
    · exact hend.imp_right fun hfailed => hfailed.1
    · intro hwhole
      rcases hend with hended | ⟨-, hrefused⟩
      · exact hended
      · exact absurd hwhole (hrefused.not_whole hbound)

omit hturns in
/-- A chunk asked for once more after a refusal: the end is said where the digest kept is that of
no bytes. -/
theorem nextChunk_again (h : Reading sha chunks start before missing source length out r)
    (hrefused : Refused sha chunks start before missing source length r)
    (hcount : (before + (whole chunks start missing).length) % 2 ^ 64 = length)
    (hdigest : ∀ said ∈ source.said, sha (whole chunks start missing) = said ∨ sha [] = said) :
    (r.call sha chunks turns (.nextChunk fun _ => none)).1 = .ended := by
  obtain ⟨-, hat⟩ := h.all hrefused.left
  obtain ⟨hspent, said, hsaid, hne⟩ := hrefused.unlike hcount
  have hempty : sha [] = said := (hdigest said hsaid).resolve_left hne
  have hcounted : r.counted = r.length := (h.counted_whole hat).trans (hcount.trans h.long.symm)
  have hdrained : r.held.length ≤ r.taken := by
    have hleft := hrefused.left
    simp only [left] at hleft
    omega
  simp only [call]
  rcases hout : r.nextChunk sha (asked chunks fun _ => none) with ⟨res, r'⟩
  cases next_of hout with
  | rest hheld => omega
  | again => rfl
  | unread _ _ hfails => cases hfails
  | chunk _ _ _ _ hkept =>
      rw [hat, hmissing.absent] at hkept
      cases hkept
  | short _ _ _ hshort => exact absurd hcounted hshort
  | unlike _ _ _ _ said' hsaid' hunlike =>
      rw [h.reads, hsaid] at hsaid'
      obtain rfl := Option.some.inj hsaid'
      rw [hspent] at hunlike
      exact absurd hempty hunlike
  | ended => rfl

/-- Runs that all read as they are to never say the end of other bytes than those kept. -/
theorem told_of_reads (h : Opened r start before)
    (hreads : ∀ cs, Reads sha chunks turns start before missing r cs) :
    Told sha r.source r.length before (whole chunks start missing) := by
  intro hcount hdigest
  obtain ⟨hreading, -⟩ : Reading sha chunks start before missing r.source r.length [] r ∧ _ :=
    h.reading hmissing
  let more : List Call :=
    List.replicate ((missing - start) + (whole chunks start missing).length + 1)
      (.nextChunk fun _ => none)
  have hmore : ∀ c ∈ more, c.Succeeds := by
    intro c hc
    obtain rfl := List.eq_of_mem_replicate hc
    rfl
  have hlong : (missing - start) + (whole chunks start missing).length < more.length := by
    rw [List.length_replicate]
    exact Nat.lt_succ_self _
  obtain ⟨answer, hlast, hend⟩ := last_at_end hmissing hturns hreading hmore hlong
  have hmem : answer ∈ (r.calls sha chunks turns more).1 := List.mem_of_getLast? hlast
  rcases hend with rfl | ⟨-, hrefused⟩
  · exact ((hreads more).ended hmem).2
  · have hran := calls_ran hmissing more hreading hturns
    have hagain : ((r.calls sha chunks turns more).2.call sha chunks turns
        (.nextChunk fun _ => none)).1 = .ended :=
      nextChunk_again hmissing hran.reading hrefused hcount hdigest
    refine ((hreads (more ++ [.nextChunk fun _ => none])).ended ?_).2
    rw [calls_append]
    simp only [calls]
    rw [hagain]
    simp

end

/-- Every run of calls reads as it is to exactly where an end cannot be said of other bytes. -/
theorem reads_iff (h : Opened r start before) (hmissing : Missing chunks start missing)
    (hturns : missing - start < turns) :
    (∀ cs, Reads sha chunks turns start before missing r cs) ↔
      Told sha r.source r.length before (whole chunks start missing) :=
  ⟨told_of_reads hmissing hturns h, reads_of_told hmissing hturns h⟩

/-- The SHA-256 of no bytes. -/
def noBytes : Bytes :=
  [0xe3, 0xb0, 0xc4, 0x42, 0x98, 0xfc, 0x1c, 0x14, 0x9a, 0xfb, 0xf4, 0xc8, 0x99, 0x6f, 0xb9, 0x24,
    0x27, 0xae, 0x41, 0xe4, 0x64, 0x9b, 0x93, 0x4c, 0xa4, 0x95, 0x99, 0x1b, 0x78, 0x52, 0xb8, 0x55]

/-- The SHA-256 of the letter a. -/
def letterA : Bytes :=
  [0xca, 0x97, 0x81, 0x12, 0xca, 0x1b, 0xbd, 0xca, 0xfa, 0xc2, 0x31, 0xb3, 0x9a, 0x23, 0xdc, 0x4d,
    0xa7, 0x86, 0xef, 0xf8, 0x14, 0x7c, 0x4e, 0x72, 0xb9, 0x80, 0x77, 0x85, 0xaf, 0xee, 0x48, 0xbb]

/-- SHA-256, of no bytes and of one letter. -/
def shaOf (bytes : Bytes) : Bytes := if bytes = [] then noBytes else letterA

/-- One chunk of one letter. -/
def letterKept (n : ℕ) : Option Bytes := if n = 0 then some [0x61] else none

theorem reads_iff_letter :
    Reads shaOf letterKept 3 0 0 1 { source := .audit 7 12 letterA, length := 1 }
      [.read 1 (by decide) fun _ => none, .nextChunk fun _ => none] := by
  have hopened : Opened { source := .audit 7 12 letterA, length := 1 } 0 0 :=
    .new _ 1 (by decide)
  have hmissing : Missing letterKept 0 1 := by
    refine ⟨by decide, by decide, by decide, fun n _ hn => ?_⟩
    obtain rfl : n = 0 := by omega
    decide
  refine (reads_iff hopened hmissing (by decide)).mpr (fun _ _ => ⟨by decide, ?_⟩) _
  intro said hsaid
  obtain rfl := Option.some.inj hsaid
  decide

/-- One letter kept where the record says no bytes' digest: refused once, the end is said of it when
it is asked for again. -/
theorem ended_after_refusal :
    ¬∀ cs, Reads shaOf letterKept 3 0 0 1
      { source := .audit 7 12 noBytes, length := 1 } cs := by
  intro h
  have hreads := h [.nextChunk fun _ => none, .nextChunk fun _ => none, .nextChunk fun _ => none]
  have hwhole := (hreads.ended (by decide)).2
  exact absurd (hwhole.digest noBytes rfl) (by decide)

end XmipPersist.ChunkReader
