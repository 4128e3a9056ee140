import XmipPersist.Verification.Standby.Whole

/-! # What a standby's runtime database says of its audit database

A key of the primary's runtime database says of keys of its audit database that they are settled:
no write made since names them. A standby has the key as some write left it. Where it has every
write to the audit database that was made before that one, it has each key settled then as the
primary has it.
-/

namespace XmipPersist.Standby

open StorageNode Replay

variable {κ ν : Type} [LinearOrder κ] {bounds : Bounds κ ν} {start standby : StorageNode κ ν}
  {log : Database → List (Write κ ν)} {mark : κ} {moment : ℕ → ℕ → Prop} {n t q q' : ℕ}

section Dated

variable (start : StorageNode κ ν) (log : Database → List (Write κ ν)) (mark : κ)
  (moment : ℕ → ℕ → Prop)

/-- What the writes to the runtime database numbered below `n` leave under `mark`. -/
def markAt (n : ℕ) : Option ν :=
  (effect (start.engines 0).entries (log 0) (n - start.copies.next 0)).get mark

/-- What the writes numbered below `n` leave under `mark` was there at a moment when the audit
database's next write had at most the number `q`. -/
def DatedBy (n q : ℕ) : Prop :=
  ∃ n' q', moment n' q' ∧ q' ≤ q ∧ markAt start log mark n = markAt start log mark n'

/-- The course of a run whose standby takes no write to the runtime database that names `mark`
before those to the audit database made before it. -/
def Course.dated : Course κ ν where
  quiet := False
  made d n write := start.copies.next d ≤ n ∧ (log d)[n - start.copies.next d]? = some write
  before t q := ∀ n ≤ t, DatedBy start log mark moment n q
  may next d write := d = 0 → mark ∈ write.map Prod.fst →
    DatedBy start log mark moment (next 0 + 1) (next 2)
  inOrder next := DatedBy start log mark moment (next 0) (next 2)
  before_mono h hle n hn := by
    obtain ⟨n', q', hmoment, hq, hmark⟩ := h n hn
    exact ⟨n', q', hmoment, hq.trans hle, hmark⟩
  copied hle h := h _ hle
  taken := by
    intro next d write h hmade hmay
    by_cases hd : d = 0
    · subst hd
      rw [Function.update_self, Function.update_of_ne (by decide)]
      by_cases hmark : mark ∈ write.map Prod.fst
      · exact hmay rfl hmark
      · obtain ⟨n', q', hmoment, hq, hsame⟩ := h
        obtain ⟨hle, hwrite⟩ := hmade
        refine ⟨n', q', hmoment, hq, ?_⟩
        rw [← hsame, markAt, markAt, Nat.sub_add_comm hle, effect_succ hwrite]
        exact OrderedMap.get_apply_of_notMem _ hmark
    · obtain ⟨n', q', hmoment, hq, hsame⟩ := h
      rw [Function.update_of_ne (Ne.symm hd)]
      refine ⟨n', q', hmoment, hq.trans ?_, hsame⟩
      rw [Function.update_apply]
      split
      · next h2 =>
          rw [h2]
          omega
      · exact le_rfl

/-- Every key told of at a moment is named by no write to the audit database made since. -/
def Settled (tells : Option ν → κ → Prop) : Prop :=
  ∀ n q, moment n q → ∀ k, tells (markAt start log mark n) k →
    ¬Touched (log 2) (q - start.copies.next 2) (log 2).length k

end Dated

variable {ended : Database → ℕ}

theorem Taken.marked (h : Taken (.dated start log mark moment) start log standby ended) :
    ∃ n q, moment n q ∧ q ≤ standby.copies.next 2 ∧
      (standby.engines 0).entries.get mark = markAt start log mark n := by
  have hcopied := h.copied 0
  have hle := hcopied.start_le
  obtain ⟨t, hpt, htn, hmark⟩ := hcopied.caughtUp mark
  have hdated : DatedBy start log mark moment (start.copies.next 0 + t)
      (standby.copies.next 2) := by
    rcases Nat.eq_or_lt_of_le hpt with heq | hlt
    · have hnext : start.copies.next 0 + t = standby.copies.next 0 := by omega
      rw [hnext]
      exact h.inOrder
    · exact h.before _ (by omega)
  obtain ⟨n, q, hmoment, hq, hsame⟩ := hdated
  refine ⟨n, q, hmoment, hq, ?_⟩
  rw [hmark, ← hsame, markAt, Nat.add_sub_cancel_left]

theorem Taken.told {tells : Option ν → κ → Prop}
    (h : Taken (.dated start log mark moment) start log standby ended)
    (hsettled : Settled start log mark moment tells) {k : κ}
    (hk : tells ((standby.engines 0).entries.get mark) k) :
    (standby.engines 2).entries.get k =
      (effect (start.engines 2).entries (log 2) (log 2).length).get k := by
  obtain ⟨n, q, hmoment, hq, hmark⟩ := h.marked
  rw [hmark] at hk
  have huntouched := hsettled n q hmoment k hk
  have hcopied := h.copied 2
  have hnext := hcopied.next_le
  have hended := hcopied.ended_le
  exact hcopied.caughtUp.get_of_untouched (by omega) (by omega) (by omega) huntouched

end XmipPersist.Standby
