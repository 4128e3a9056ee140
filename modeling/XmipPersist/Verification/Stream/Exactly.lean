import XmipPersist.Verification.Stream.Ended

/-! # A reader that reads exactly so many bytes

It does where its chunks up to the first missing one are these bytes and its row says so of them; a
chunk past them is read as well, and where no chunk is missing it reads them over and over.
-/

namespace XmipPersist.ChunkReader

variable {sha : Bytes → Bytes} {chunks : ℕ → Option Bytes} {missing length : ℕ} {bytes : Bytes}
  {source : Chunked} {r : ChunkReader}

/-- A run of calls whose answers hand out the first of these bytes, and all where one says the end. -/
structure HandsOut (answers : List Answer) (bytes : Bytes) : Prop where
  returns : .spinning ∉ answers
  order : answers.flatMap Answer.bytes <+: bytes
  ended : .ended ∈ answers → answers.flatMap Answer.bytes = bytes

/-- Whether a reader reads exactly these bytes and ends cleanly, whatever calls are made of it, turns
enough for each: calls enough whose chunks are read come to the end. -/
def ReadsExactly (sha : Bytes → Bytes) (chunks : ℕ → Option Bytes) (r : ChunkReader)
    (bytes : Bytes) : Prop :=
  ∃ most, ∀ turns, most < turns →
    (∀ cs, HandsOut (r.calls sha chunks turns cs).1 bytes) ∧
      ∃ enough, ∀ cs more, (∀ c ∈ more, Call.Succeeds c) → enough < more.length →
        (r.calls sha chunks turns (cs ++ more)).1.getLast? = some .ended

/-- The next chunk asked for once more, and read. -/
def asking (n : ℕ) : List Call := List.replicate n (.nextChunk fun _ => none)

theorem asking_succeeds (n : ℕ) : ∀ c ∈ asking n, c.Succeeds := by
  intro c hc
  rw [List.eq_of_mem_replicate hc]
  rfl

theorem reads_of_whole (hmissing : Missing chunks 0 missing) (hlength : length < 2 ^ 64)
    (hwhole : Whole sha source length 0 (whole chunks 0 missing)) :
    ReadsExactly sha chunks { source, length } (whole chunks 0 missing) := by
  have hopened : Opened { source, length } 0 0 := .new source length hlength
  have htold : Told sha source length 0 (whole chunks 0 missing) := fun _ _ => hwhole
  refine ⟨missing, fun turns hturns => ?_⟩
  have hreads : ∀ cs, Reads sha chunks turns 0 0 missing { source, length } cs :=
    reads_of_told hmissing (by omega) hopened htold
  refine ⟨fun cs => ?_, (missing - 0) + (whole chunks 0 missing).length, fun cs more hmore hlong => ?_⟩
  · exact ⟨(hreads cs).returns, (hreads cs).order, fun hended => ((hreads cs).ended hended).1⟩
  · obtain ⟨answer, hlast, -, hended⟩ := (hreads cs).reached more hmore hlong
    obtain rfl := hended hwhole
    exact hlast

theorem ended_of_reads (h : ReadsExactly sha chunks r bytes) :
    ∃ most, ∀ turns, most < turns → ∃ n,
      HandsOut (r.calls sha chunks turns (asking n)).1 bytes ∧
        .ended ∈ (r.calls sha chunks turns (asking n)).1 := by
  obtain ⟨most, hreads⟩ := h
  refine ⟨most, fun turns hturns => ?_⟩
  obtain ⟨hhands, enough, hends⟩ := hreads turns hturns
  have hlast := hends [] (asking (enough + 1)) (asking_succeeds _) (by simp [asking])
  exact ⟨enough + 1, hhands _, List.mem_of_getLast? hlast⟩

/-- What is read to the end are all the chunks there are. -/
theorem whole_of_reads (hmissing : Missing chunks 0 missing) (hlength : length < 2 ^ 64)
    (h : ReadsExactly sha chunks { source, length } bytes) : whole chunks 0 missing = bytes := by
  obtain ⟨most, hends⟩ := ended_of_reads h
  obtain ⟨n, hhands, hended⟩ := hends (most + missing + 1) (by omega)
  have hopened : Opened { source, length } 0 0 := .new source length hlength
  obtain ⟨hreading, -⟩ :
      Reading sha chunks 0 0 missing source length [] { source, length } ∧ _ :=
    hopened.reading hmissing
  have hturns : missing - 0 < most + missing + 1 := by omega
  have hran := calls_ran hmissing (asking n) hreading hturns
  have hall := (hran.reading.all (hran.ended hended).2).1
  rw [List.nil_append] at hall
  exact hall.symm.trans (hhands.ended hended)

/-- A reader to which no chunk is missing comes to no end. -/
theorem never_ends (hall : ∀ n < 2 ^ 32, chunks n ≠ none) (turns n : ℕ) (hheld : r.held = [])
    (hnext : r.next < 2 ^ 32) (hgoing : r.ended = false) :
    .ended ∉ (r.calls sha chunks turns (asking n)).1 := by
  induction n generalizing r with
  | zero => simp [asking, calls]
  | succ n ih =>
      obtain ⟨chunk, hchunk⟩ := Option.ne_none_iff_exists'.mp (hall r.next hnext)
      have hcall : r.call sha chunks turns (.nextChunk fun _ => none) =
          (.handed chunk, { r with
            counted := (r.counted + chunk.length) % 2 ^ 64
            digest := r.digest.map (· ++ chunk)
            next := (r.next + 1) % 2 ^ 32
            held := []
            taken := 0 }) := by
        simp [call, nextChunk, hheld, hgoing, asked, hchunk]
      rw [asking, List.replicate_succ, calls, hcall]
      rw [List.mem_cons, not_or]
      exact ⟨by simp, ih rfl (Nat.mod_lt _ (by decide)) hgoing⟩

/-- A reader reads exactly these bytes where there are chunks up to one of 32 bits, and they are
these. -/
theorem reads_exactly_iff {count : ℕ} (hpresent : ∀ n, chunks n ≠ none ↔ n < count)
    (hlength : length < 2 ^ 64) (hlong : bytes.length = length)
    (hsaid : ∀ said ∈ source.said, sha bytes = said) :
    ReadsExactly sha chunks { source, length } bytes ↔
      count < 2 ^ 32 ∧ whole chunks 0 count = bytes := by
  by_cases hcount : count < 2 ^ 32
  · have hmissing : Missing chunks 0 count := by
      refine ⟨Nat.zero_le _, hcount, ?_, fun n _ hn => (hpresent n).mpr hn⟩
      by_contra hne
      exact absurd ((hpresent count).mp hne) (by omega)
    constructor
    · intro h
      exact ⟨hcount, whole_of_reads hmissing hlength h⟩
    · rintro ⟨-, rfl⟩
      exact reads_of_whole hmissing hlength ⟨by omega, hsaid⟩
  · constructor
    · intro h
      obtain ⟨most, hends⟩ := ended_of_reads h
      obtain ⟨n, -, hended⟩ := hends (most + 1) (by omega)
      have hall : ∀ n < 2 ^ 32, chunks n ≠ none := fun n hn => (hpresent n).mpr (by omega)
      exact absurd hended (never_ends hall _ _ rfl (by simp) rfl)
    · exact fun h => absurd h.1 hcount

end XmipPersist.ChunkReader
