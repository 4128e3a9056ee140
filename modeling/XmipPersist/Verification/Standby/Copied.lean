import XmipPersist.Library.Arrival
import XmipPersist.Verification.Standby.Steps

/-! # A standby copied whole catches up with its primary

The pages of a whole copy are read while the primary writes on, so what they bring is no state
the primary's database ever held. Every write made since the reading of a database began is
then made again to its copy, and once those made before the reading ended are, the copy holds
what they leave.
-/

namespace XmipPersist.Standby

open StorageNode Replay

variable {κ ν : Type} {bounds : Bounds κ ν}

/-! ## Writes kept and handed on -/

theorem Kept.mem_keep {kept : Kept κ ν} {changes : List (Change κ ν)} {w : Copy κ ν}
    (h : w ∈ (kept.keep bounds changes).writes) :
    w ∈ kept.writes ∨ w = (kept.next, changes) := by
  have hw := List.mem_of_mem_drop h
  simpa using hw

theorem Copies.more_prefix (most bytes : ℕ) (writes : List (Copy κ ν)) :
    Copies.more bounds most bytes writes <+: writes := by
  induction writes generalizing bytes with
  | nil => simp [Copies.more]
  | cons w rest ih =>
      rw [Copies.more]
      by_cases h : most ≤ bytes
      · simp [h]
      · simpa [h] using ih _

/-- Of writes numbered one after another, those from a number among them on. -/
theorem numbered_dropWhile {writes : List (Copy κ ν)} {a from' : ℕ}
    (h : writes.map Prod.fst = List.range' a writes.length) (hle : a ≤ from') :
    (writes.dropWhile fun w => w.1 < from').map Prod.fst =
      List.range' from' (writes.length - (from' - a)) := by
  induction writes generalizing a with
  | nil => simp
  | cons w rest ih =>
      rw [List.map_cons, List.length_cons, List.range'_succ] at h
      have ⟨hw, hrest⟩ := List.cons.inj h
      by_cases hlt : w.1 < from'
      · rw [List.dropWhile_cons_of_pos (by simpa using hlt), ih hrest (by omega)]
        congr 1
        simp only [List.length_cons]
        omega
      · have ha : a = from' := by omega
        rw [List.dropWhile_cons_of_neg (by simpa using hlt)]
        subst ha
        simp only [List.map_cons, List.length_cons, Nat.sub_self, Nat.sub_zero,
          List.range'_succ]
        rw [hw, hrest]

/-- What `since` hands on: writes that are kept, numbered one after another from where it is
asked. -/
theorem Copies.since_ok {copies : Copies κ ν} {d : Database} {from' most : ℕ}
    {handed : List (Copy κ ν)} (h : copies.since bounds d from' most = .ok handed) :
    (∀ w ∈ handed, w ∈ (copies.kept d).writes) ∧
      handed.map Prod.fst = List.range' from' handed.length := by
  simp only [Copies.since] at h
  split at h
  · obtain rfl := Except.ok.inj h
    simp
  · next hlt =>
      split at h
      · cases h
      · next hfirst =>
          have hnum := (copies.kept d).numbered
          have hle : (copies.kept d).next - (copies.kept d).writes.length ≤ from' := by
            cases hws : (copies.kept d).writes with
            | nil =>
                simp only [Kept.first, hws, List.head?_nil, Option.map_none,
                  Option.getD_none] at hfirst
                omega
            | cons w rest =>
                simp only [Kept.first, hws, List.head?_cons, Option.map_some,
                  Option.getD_some] at hfirst
                rw [hws, List.map_cons, List.length_cons, List.range'_succ] at hnum
                have := (List.cons.inj hnum).1
                simp only [List.length_cons]
                omega
          have hdrop := numbered_dropWhile hnum hle
          split at h
          · obtain rfl := Except.ok.inj h
            simp
          · next w rest hw =>
              obtain rfl := Except.ok.inj h
              have hpre : w :: Copies.more bounds most (bounds.size w.2) rest <+:
                  (copies.kept d).writes.dropWhile fun w => w.1 < from' := by
                rw [hw]
                exact List.prefix_cons_inj w |>.mpr (Copies.more_prefix _ _ _)
              constructor
              · intro v hv
                exact List.dropWhile_subset _ (hpre.subset hv)
              · have hmap := hpre.map Prod.fst
                rw [hdrop] at hmap
                obtain ⟨left, hsplit⟩ := hmap
                obtain ⟨k, hk, hrange, _⟩ := List.range'_eq_append_iff.mp hsplit.symm
                have hlen := congrArg List.length hrange
                rw [List.length_map, List.length_range'] at hlen
                rw [hrange, hlen]

/-- The number after the last of writes numbered one after another. -/
theorem next_of_numbered {handed : List (Copy κ ν)} {n : ℕ}
    (h : handed.map Prod.fst = List.range' n handed.length) :
    (handed.getLast?.map fun copy => copy.1 + 1).getD n = n + handed.length := by
  rcases List.eq_nil_or_concat handed with rfl | ⟨init, w, rfl⟩
  · simp
  · rw [List.concat_eq_append] at h ⊢
    have hlen : (init ++ [w]).length = init.length + 1 := by simp
    rw [hlen, List.map_append, ← List.range'_append_1] at h
    have hlast := (List.append_inj h (by simp)).2
    simp only [List.map_cons, List.map_nil, List.range'_one, List.cons.injEq, and_true] at hlast
    rw [List.getLast?_concat, hlen]
    simp [hlast]
    omega

/-! ## The primary and what it wrote -/

variable [LinearOrder κ]

/-- A primary as the writes it made since it was `start` leave it. -/
structure Logged (start primary : StorageNode κ ν) (log : Database → List (Write κ ν)) :
    Prop where
  history : primary.copies.history = start.copies.history
  next : ∀ d, primary.copies.next d = start.copies.next d + (log d).length
  entries : ∀ d, (primary.engines d).entries =
    effect (start.engines d).entries (log d) (log d).length
  kept : ∀ d, ∀ w ∈ (primary.copies.kept d).writes, start.copies.next d ≤ w.1 →
    (log d)[w.1 - start.copies.next d]? = some w.2

/-- The log after a write. -/
def logging (log : Database → List (Write κ ν)) (d : Database) (changes : Write κ ν) :
    Database → List (Write κ ν) :=
  if changes = [] then log else Function.update log d (log d ++ [changes])

omit [LinearOrder κ] in
theorem logging_append (log : Database → List (Write κ ν)) (d e : Database)
    (changes : Write κ ν) : log e <+: logging log d changes e := by
  simp only [Standby.logging]
  split
  · exact List.prefix_rfl
  · by_cases he : e = d
    · subst he
      simp
    · simp [he]

omit [LinearOrder κ] in
theorem getElem?_logging {log : Database → List (Write κ ν)} {d e : Database} {i : ℕ}
    {changes write : Write κ ν} (h : (log e)[i]? = some write) :
    (logging log d changes e)[i]? = some write := by
  obtain ⟨more, hmore⟩ := logging_append log d e changes
  rw [← hmore, List.getElem?_append_left (List.getElem?_eq_some_iff.mp h).1]
  exact h

theorem Logged.start (primary : StorageNode κ ν) : Logged primary primary fun _ => [] where
  history := rfl
  next d := by simp
  entries d := rfl
  kept d w hw hle := by
    have hnum := (primary.copies.kept d).numbered
    have hlen := (primary.copies.kept d).le_next
    have hmem : w.1 ∈ (primary.copies.kept d).writes.map Prod.fst := List.mem_map_of_mem hw
    rw [hnum, List.mem_range'_1] at hmem
    have hnext : primary.copies.next d = (primary.copies.kept d).next := rfl
    omega

variable {start primary : StorageNode κ ν} {log : Database → List (Write κ ν)}

theorem Logged.write (h : Logged start primary log) (d : Database) (changes : Write κ ν) :
    Logged start (primary.perform bounds (.write d changes)) (logging log d changes) := by
  by_cases hnil : changes = []
  · subst hnil
    have hsame : primary.perform bounds (.write d []) = primary := by
      simp [perform, onEngine, Engine.apply, Copies.written]
    rw [hsame]
    simpa [logging] using h
  · have hcopies : (primary.perform bounds (.write d changes)).copies =
        primary.copies.keep bounds d changes := by simp [perform, Copies.written, hnil]
    simp only [logging, hnil, if_false]
    constructor
    · rw [hcopies]
      exact h.history
    · intro e
      have he := h.next e
      rw [hcopies]
      by_cases hed : e = d
      · subst hed
        simp only [Copies.next, Copies.keep, Kept.keep, Function.update_self,
          List.length_append, List.length_singleton] at he ⊢
        omega
      · simpa [Copies.next, Copies.keep, hed] using he
    · intro e
      by_cases hed : e = d
      · subst hed
        have hlast : (log e ++ [changes])[(log e).length]? = some changes := by simp
        simp only [perform, engines_onEngine, Function.update_self, if_true, Engine.apply,
          List.length_append, List.length_singleton]
        rw [effect_succ hlast, effect_append le_rfl, h.entries e]
      · simpa [perform, engines_onEngine, hed] using h.entries e
    · intro e w hw hle
      rw [hcopies] at hw
      by_cases hed : e = d
      · subst hed
        simp only [Copies.keep, Function.update_self] at hw ⊢
        rcases Kept.mem_keep hw with hw | rfl
        · have hold := h.kept e w hw hle
          have hlt := (List.getElem?_eq_some_iff.mp hold).1
          rw [List.getElem?_append_left hlt]
          exact hold
        · have hnext : (primary.copies.kept e).next = start.copies.next e + (log e).length :=
            h.next e
          simp [hnext]
      · simp only [Copies.keep, Function.update_of_ne hed] at hw ⊢
        exact h.kept e w hw hle

/-! ## The course of a run -/

/-- What is known of the order a run's writes are made in and taken in: whether none lands in a
database while it is read for a whole copy, which write each number of a database is, which of
the audit database's writes come after which of the runtime's, which writes a standby may take
from where it is, and where that leaves it. -/
structure Course (κ ν : Type) where
  quiet : Prop
  made : Database → ℕ → Write κ ν → Prop
  before : ℕ → ℕ → Prop
  may : (Database → ℕ) → Database → Write κ ν → Prop
  inOrder : (Database → ℕ) → Prop
  before_mono : ∀ {n q q'}, before n q → q ≤ q' → before n q'
  copied : ∀ {next : Database → ℕ} {ended}, next 0 ≤ ended → before ended (next 2) → inOrder next
  taken : ∀ {next : Database → ℕ} {d write}, inOrder next → made d (next d) write →
    may next d write → inOrder (Function.update next d (next d + 1))

/-- A course of which nothing is known but whether no write lands in a database while it is
read. -/
def Course.still (quiet : Prop) : Course κ ν where
  quiet := quiet
  made _ _ _ := True
  before _ _ := True
  may _ _ _ := True
  inOrder _ := True
  before_mono _ _ := trivial
  copied _ _ := trivial
  taken _ _ _ := trivial

/-- Whether a standby copied whole may take a frame: not one of a write the primary made since it
was `start` that it may not. -/
def Course.Allows (course : Course κ ν) (start : StorageNode κ ν)
    (log : Database → List (Write κ ν)) (r : Receiver κ ν) (sent : Sent κ ν) : Prop :=
  ∀ ended d changes, r.copy = .taken ended →
    sent.frame = .copy d (r.standby.copies.next d) changes →
    start.copies.next d ≤ r.standby.copies.next d →
    (log d)[r.standby.copies.next d - start.copies.next d]? = some changes →
    course.may r.standby.copies.next d changes

/-- The writes a log has of each database's next on are the course's. -/
def Course.Logs (course : Course κ ν) (start : StorageNode κ ν)
    (log : Database → List (Write κ ν)) : Prop :=
  ∀ (d : Database) (i : ℕ) (write : Write κ ν), (log d)[i]? = some write →
    course.made d (start.copies.next d + i) write

/-! ## The standby and what it was copied -/

/-- Entries with the writes numbered below `next` taken, each key as some write from there on, up
to the `ended`-th, left it: as the last taken did where it was `quiet`, no write landing while they
were read. -/
structure CopiedTo (quiet : Prop) (start : StorageNode κ ν) (log : Database → List (Write κ ν))
    (d : Database) (next ended : ℕ) (entries : OrderedMap κ ν) : Prop where
  start_le : start.copies.next d ≤ next
  next_le : next ≤ start.copies.next d + (log d).length
  ended_le : ended ≤ start.copies.next d + (log d).length
  caughtUp : CaughtUp (start.engines d).entries (log d) (next - start.copies.next d)
    (ended - start.copies.next d) entries
  still : quiet → ended ≤ next

variable {quiet : Prop} {d : Database} {next ended : ℕ} {entries : OrderedMap κ ν}
  {changes : Write κ ν}

theorem CopiedTo.logging (h : CopiedTo quiet start log d next ended entries) (d' : Database) :
    CopiedTo quiet start (logging log d' changes) d next ended entries := by
  by_cases hnil : changes = []
  · simpa [Standby.logging, hnil] using h
  · by_cases hd : d = d'
    · subst hd
      have hlog : Standby.logging log d changes d = log d ++ [changes] := by
        simp [Standby.logging, hnil]
      have hnext := h.next_le
      have hended := h.ended_le
      refine ⟨h.start_le, ?_, ?_, ?_, h.still⟩
      · rw [hlog, List.length_append]
        omega
      · rw [hlog, List.length_append]
        omega
      · rw [hlog]
        exact h.caughtUp.append (by omega) (by omega)
    · have hlog : Standby.logging log d' changes d = log d := by
        simp [Standby.logging, hnil, hd]
      exact ⟨h.start_le, by rw [hlog]; exact h.next_le, by rw [hlog]; exact h.ended_le,
        by rw [hlog]; exact h.caughtUp, h.still⟩

/-- The write it takes next taken. -/
theorem CopiedTo.copy (h : CopiedTo quiet start log d next ended entries)
    (hw : (log d)[next - start.copies.next d]? = some changes) :
    CopiedTo quiet start log d (next + 1) ended (entries.apply changes) := by
  have hle := h.start_le
  have hlt := (List.getElem?_eq_some_iff.mp hw).1
  have hnext : next + 1 - start.copies.next d = next - start.copies.next d + 1 := by omega
  refine ⟨by omega, by omega, h.ended_le, ?_, fun hq => (h.still hq).trans (Nat.le_succ _)⟩
  rw [hnext]
  exact h.caughtUp.next hw

/-- A standby after a whole copy: caught up to its next writes in the primary's history, with what
its runtime database had of the scan in its audit database's course. -/
structure Taken (course : Course κ ν) (start : StorageNode κ ν)
    (log : Database → List (Write κ ν)) (standby : StorageNode κ ν) (ended : Database → ℕ) :
    Prop where
  history : standby.copies.history = start.copies.history
  before : course.before (ended 0) (standby.copies.next 2)
  inOrder : course.inOrder standby.copies.next
  position : ∀ d, (standby.engines d).position =
    some (start.copies.history, standby.copies.next d)
  copied : ∀ d, CopiedTo course.quiet start log d (standby.copies.next d) (ended d)
    (standby.engines d).entries

/-- What a standby is after its last whole copy: marked until it was taken. -/
def Sound (course : Course κ ν) (start : StorageNode κ ν) (log : Database → List (Write κ ν))
    (standby : StorageNode κ ν) : WholeCopy → Prop
  | .never => True
  | .begun => standby.isCopying = true
  | .taken ended => Taken course start log standby ended

variable {course : Course κ ν} {standby : StorageNode κ ν} {last : WholeCopy}

theorem Sound.logging (h : Sound course start log standby last) (d : Database)
    (changes : Write κ ν) : Sound course start (logging log d changes) standby last := by
  cases last with
  | never => trivial
  | begun => exact h
  | taken ended =>
      have h : Taken course start log standby ended := h
      exact ⟨h.history, h.before, h.inOrder, h.position, fun e => (h.copied e).logging d⟩

theorem Sound.same (h : Sound course start log standby last) {standby' : StorageNode κ ν}
    (hsame : Same standby standby') : Sound course start log standby' last := by
  cases last with
  | never => trivial
  | begun =>
      have hmark : standby.isCopying = true := h
      exact hsame.copying.trans hmark
  | taken ended =>
      have h : Taken course start log standby ended := h
      refine ⟨?_, ?_, ?_, fun d => ?_, fun d => ?_⟩
      · rw [hsame.copies]
        exact h.history
      · rw [hsame.copies]
        exact h.before
      · rw [hsame.copies]
        exact h.inOrder
      · rw [hsame.position, hsame.copies]
        exact h.position d
      · rw [hsame.entries, hsame.copies]
        exact h.copied d

/-- A standby started again goes on from where it was. -/
theorem Sound.restart (h : Sound course start log standby last) (process : ℕ) :
    Sound course start log (.new process standby.engines) last := by
  cases last with
  | never => trivial
  | begun => exact h
  | taken ended =>
      have h : Taken course start log standby ended := h
      have ⟨hhistory, hnext⟩ := new_copies h.position process
      have hnexts : (new process standby.engines).copies.next = standby.copies.next := funext hnext
      refine ⟨hhistory, ?_, ?_, fun d => ?_, fun d => ?_⟩
      · rw [hnexts]
        exact h.before
      · rw [hnexts]
        exact h.inOrder
      · rw [hnext d]
        exact h.position d
      · rw [hnext d]
        exact h.copied d

/-! ## Copies taken -/

variable {r : Receiver κ ν} {nextAt : Database → ℕ}

/-- A standby that takes writes with no whole copy under way, its next writes those the primary
hands on next. -/
def Level (r : Receiver κ ν) (next : Database → ℕ) : Prop :=
  r.whole = none ∧ ∀ ended, r.copy = .taken ended → r.standby.copies.next = next

variable (bounds) in
theorem take_copy (r : Receiver κ ν) (d : Database) (changes : Write κ ν) (at' : Database → ℕ) :
    r.take bounds ⟨.copy d (r.standby.copies.next d) changes, at'⟩ =
      (⟨(r.standby.perform bounds (.copy d (r.standby.copies.next d) changes)).performAll bounds
          (r.standby.heard 0), r.whole, r.ended, r.copy⟩, true) := by
  simp only [Receiver.take, taking, if_true]
  rfl

/-- The next write taken, in its place in the primary's log where that made it since. -/
theorem Sound.copy {at' : Database → ℕ} (h : Sound course start log r.standby r.copy)
    (hlogs : course.Logs start log) (d : Database)
    (hw : start.copies.next d ≤ r.standby.copies.next d →
      (log d)[r.standby.copies.next d - start.copies.next d]? = some changes)
    (hallows : course.Allows start log r ⟨.copy d (r.standby.copies.next d) changes, at'⟩) :
    Sound course start log
      (r.standby.perform bounds (.copy d (r.standby.copies.next d) changes)) r.copy := by
  cases hc : r.copy with
  | never => trivial
  | begun =>
      rw [hc] at h
      have hmark : r.standby.isCopying = true := h
      exact (copy_copying _ _ _ _).trans hmark
  | taken ended =>
      rw [hc] at h
      have h : Taken course start log r.standby ended := h
      have hstart := (h.copied d).start_le
      have hmade : course.made d (r.standby.copies.next d) changes := by
        have hnumbered := hlogs d _ _ (hw hstart)
        rwa [Nat.add_sub_cancel' hstart] at hnumbered
      have hnexts : (r.standby.perform bounds
          (.copy d (r.standby.copies.next d) changes)).copies.next =
            Function.update r.standby.copies.next d (r.standby.copies.next d + 1) := by
        funext e
        rw [copy_next, Function.update_apply]
      refine ⟨by rw [copy_history]; exact h.history, ?_, ?_, fun e => ?_, fun e => ?_⟩
      · refine course.before_mono h.before ?_
        rw [copy_next]
        split
        · next hd =>
            rw [hd]
            omega
        · exact le_rfl
      · rw [hnexts]
        exact course.taken h.inOrder hmade (hallows ended d changes hc rfl hstart (hw hstart))
      · rw [copy_position, copy_next]
        by_cases hed : e = d
        · simp only [hed, if_true]
          rw [h.history]
        · simp only [hed, if_false]
          exact h.position e
      · rw [copy_next, copy_entries]
        by_cases hed : e = d
        · subst hed
          simp only [if_true]
          exact (h.copied e).copy (hw hstart)
        · simp only [hed, if_false]
          exact h.copied e

theorem Level.copy {n : ℕ} (h : Level r (Function.update nextAt d n))
    (hn : ∀ ended, r.copy = .taken ended → r.standby.copies.next d = n) (at' : Database → ℕ) :
    Level (r.take bounds ⟨.copy d (r.standby.copies.next d) changes, at'⟩).1
      (Function.update nextAt d (n + 1)) := by
  rw [take_copy]
  refine ⟨h.1, fun ended hc => ?_⟩
  have hcopies := (heard_same bounds
    (r.standby.perform bounds (.copy d (r.standby.copies.next d) changes)) r.standby 0).copies
  have hnext := h.2 ended hc
  simp only [hcopies]
  funext e
  rw [copy_next]
  by_cases hed : e = d
  · subst hed
    simp [hn ended hc]
  · simp [hed, hnext]

variable (bounds) in
/-- Writes handed on one after another, from the one the standby takes next. -/
theorem arrives_copies {handed : List (Copy κ ν)} {n : ℕ} (at' : Database → ℕ)
    (hnum : handed.map Prod.fst = List.range' n handed.length)
    (hlog : ∀ w ∈ handed, start.copies.next d ≤ w.1 →
      (log d)[w.1 - start.copies.next d]? = some w.2)
    (hlogs : course.Logs start log) (hs : Sound course start log r.standby r.copy)
    (hl : Level r (Function.update nextAt d n)) :
    Arrives (Receiver.take bounds) (course.Allows start log)
      (fun r => Sound course start log r.standby r.copy)
      (fun r => Sound course start log r.standby r.copy ∧
        Level r (Function.update nextAt d (n + handed.length)))
      r (handed.map fun w => ⟨.copy d w.1 w.2, at'⟩) := by
  induction handed generalizing r n with
  | nil => exact ⟨hs, hl⟩
  | cons w handed ih =>
      rw [List.map_cons, List.length_cons, List.range'_succ] at hnum
      have ⟨hw, hrest⟩ := List.cons.inj hnum
      intro hgoes hallows
      -- it goes on only where the write is the one it takes next
      have hnext : w.1 = r.standby.copies.next d := by
        by_contra hne
        simp [Receiver.take, taking, hne] at hgoes
      have htake := take_copy bounds r d w.2 at'
      have hlevel : Level (r.take bounds ⟨.copy d w.1 w.2, at'⟩).1
          (Function.update nextAt d (n + 1)) := by
        rw [hnext]
        exact hl.copy (fun _ _ => by rw [← hnext, hw]) at'
      have hsound : Sound course start log (r.take bounds ⟨.copy d w.1 w.2, at'⟩).1.standby
          (r.take bounds ⟨.copy d w.1 w.2, at'⟩).1.copy := by
        have hframe : course.Allows start log r
            ⟨.copy d (r.standby.copies.next d) w.2, at'⟩ := by
          rw [← hnext]
          exact hallows
        rw [hnext, htake]
        have hcopy : Sound course start log
            (r.standby.perform bounds (.copy d (r.standby.copies.next d) w.2)) r.copy := by
          refine hs.copy hlogs d (fun hle => ?_) hframe
          rw [← hnext] at hle ⊢
          exact hlog w (by simp) hle
        exact hcopy.same (heard_same bounds _ _ _)
      refine ⟨hsound, ?_⟩
      have hlen : n + (w :: handed).length = n + 1 + handed.length := by
        simp only [List.length_cons]
        omega
      rw [hlen]
      exact ih hrest (fun w hw => hlog w (by simp [hw])) hsound hlevel

/-! ## A whole copy taken -/

/-- A whole copy under way, the databases before `d` copied and those after it empty. -/
structure Copying (course : Course κ ν) (start : StorageNode κ ν)
    (log : Database → List (Write κ ν)) (r : Receiver κ ν) (next : Database → ℕ)
    (d : Database) : Prop where
  copy : r.copy = .begun
  marked : r.standby.isCopying = true
  whole : ∃ whole, r.whole = some whole ∧ whole.history = start.copies.history ∧
    ∀ e, whole.next e = if e < d then some (next e) else none
  started : ∀ e < d, next e ≤ r.ended e
  before : 0 < d → course.before (r.ended 0) (start.copies.next 2 + (log 2).length)
  copied : ∀ e < d,
    CopiedTo course.quiet start log e (next e) (r.ended e) (r.standby.engines e).entries
  later : ∀ e, d < e → (r.standby.engines e).entries = .empty

/-- The database `d` being read for a whole copy, past the key `passed`. -/
structure Scanning (course : Course κ ν) (start : StorageNode κ ν)
    (log : Database → List (Write κ ν)) (r : Receiver κ ν) (next : Database → ℕ) (d : Database)
    (passed : Option κ) : Prop where
  copying : Copying course start log r next d
  start_le : start.copies.next d ≤ next d
  next_le : next d ≤ start.copies.next d + (log d).length
  still : course.quiet → next d = start.copies.next d + (log d).length
  before : d = 2 → course.before (r.ended 0) (next 2)
  scanned : Scanned (start.engines d).entries (log d) (next d - start.copies.next d) passed
    (r.standby.engines d).entries

/-- What the frames sent so far leave a standby with, as far as the shipping is. -/
def Sending (course : Course κ ν) (start : StorageNode κ ν) (log : Database → List (Write κ ν))
    (r : Receiver κ ν) (shipping : Shipping κ) : Prop :=
  match shipping.phase with
  | .begins d =>
      Copying course start log r shipping.next d ∧ (r.standby.engines d).entries = .empty
  | .scans d passed => Scanning course start log r shipping.next d passed
  | .turns => Level r shipping.next
  | .hands _ _ => Level r shipping.next

variable {shipping : Shipping κ}

theorem Copying.logging (h : Copying course start log r nextAt d) (d' : Database) :
    Copying course start (logging log d' changes) r nextAt d := by
  refine ⟨h.copy, h.marked, h.whole, h.started, fun hd => ?_,
    fun e he => (h.copied e he).logging d', h.later⟩
  have hle := (logging_append log d' 2 changes).length_le
  exact course.before_mono (h.before hd) (by omega)

theorem Scanning.logging {passed : Option κ} (h : Scanning course start log r nextAt d passed)
    (d' : Database) (changes : Write κ ν) (hquiet : course.quiet → d ≠ d') :
    Scanning course start (logging log d' changes) r nextAt d passed := by
  have hcopying : Copying course start (Standby.logging log d' changes) r nextAt d :=
    h.copying.logging d'
  have hle := (logging_append log d' d changes).length_le
  by_cases hnil : changes = []
  · have hlog : Standby.logging log d' changes = log := by simp [Standby.logging, hnil]
    rwa [hlog]
  · by_cases hd : d = d'
    · subst hd
      have hlog : Standby.logging log d changes d = log d ++ [changes] := by
        simp [Standby.logging, hnil]
      refine ⟨hcopying, h.start_le, h.next_le.trans (by omega),
        fun hq => absurd rfl (hquiet hq), h.before, ?_⟩
      rw [hlog]
      exact h.scanned.append
    · have hlog : Standby.logging log d' changes d = log d := by
        simp [Standby.logging, hnil, hd]
      refine ⟨hcopying, h.start_le, ?_, ?_, h.before, ?_⟩ <;> rw [hlog]
      · exact h.next_le
      · exact h.still
      · exact h.scanned

theorem Sending.logging (h : Sending course start log r shipping) (d' : Database)
    (changes : Write κ ν) (hquiet : course.quiet → ∀ passed, shipping.phase ≠ .scans d' passed) :
    Sending course start (logging log d' changes) r shipping := by
  obtain ⟨epoch, phase, next⟩ := shipping
  cases phase with
  | begins d => exact ⟨h.1.logging d', h.2⟩
  | turns => exact h
  | hands d handed => exact h
  | scans d passed =>
      have h : Scanning course start log r next d passed := h
      refine h.logging d' changes fun hq hd => ?_
      subst hd
      exact hquiet hq passed rfl

/-- A database's reading begun. -/
theorem Copying.begins (h : Copying course start log r nextAt d)
    (hempty : (r.standby.engines d).entries = .empty) (hlogged : Logged start primary log)
    (epoch : ℕ) :
    Sending course start log r ⟨epoch, .scans d none,
      Function.update nextAt d (primary.copies.next d)⟩ := by
  have hnext := hlogged.next d
  refine ⟨⟨h.copy, h.marked, ?_, fun e he => ?_, h.before, fun e he => ?_, h.later⟩, ?_, ?_,
    fun _ => ?_, fun hd => ?_, ?_⟩
  · obtain ⟨whole, hwhole, hhistory, hn⟩ := h.whole
    refine ⟨whole, hwhole, hhistory, fun e => ?_⟩
    rw [hn e]
    by_cases he : e < d
    · simp [he, Function.update_of_ne (ne_of_lt he)]
    · simp [he]
  · simp only [Function.update_of_ne (ne_of_lt he)]
    exact h.started e he
  · simp only [Function.update_of_ne (ne_of_lt he)]
    exact h.copied e he
  · simp only [Function.update_self]
    omega
  · simp only [Function.update_self]
    omega
  · simp only [Function.update_self]
    omega
  · subst hd
    have hbefore := h.before (by decide)
    rw [← hnext] at hbefore
    simpa only [Function.update_self] using hbefore
  · simp only [Function.update_self]
    rw [hempty, show primary.copies.next d - start.copies.next d = (log d).length by omega]
    exact Scanned.start

variable (bounds) in
/-- A page of a database taken. -/
theorem Copying.page (h : Copying course start log r nextAt d) (page : List (κ × ν))
    (at' : Database → ℕ) :
    ∃ r', r.take bounds ⟨.entries d page, at'⟩ = (r', true) ∧
      Copying course start log r' nextAt d ∧ r'.ended = r.ended ∧
      (r'.standby.engines d).entries =
        (r.standby.engines d).entries.apply (puts page) := by
  have hmark := (entries_copying bounds r.standby d page).trans h.marked
  refine ⟨⟨r.standby.perform bounds (.entries d page), r.whole, r.ended, r.copy⟩, rfl,
    ⟨h.copy, hmark, h.whole, h.started, h.before, ?_, ?_⟩, rfl, ?_⟩
  · intro e he
    rw [entries_entries, if_neg (ne_of_lt he)]
    exact h.copied e he
  · intro e he
    rw [entries_entries, if_neg (ne_of_gt he)]
    exact h.later e he
  · rw [entries_entries, if_pos rfl]

variable (bounds) in
/-- A database's end taken, with another to come. -/
theorem Copying.ends (h : Copying course start log r nextAt d) {d' : Database} {at' : Database → ℕ}
    (hd' : ∀ e, e < d' ↔ e ≤ d)
    (hcopied : CopiedTo course.quiet start log d (nextAt d) (at' d) (r.standby.engines d).entries)
    (hat : nextAt d ≤ at' d)
    (hbefore : course.before (at' 0) (start.copies.next 2 + (log 2).length)) :
    ∃ r', r.take bounds ⟨.copied d (nextAt d), at'⟩ = (r', true) ∧
      Copying course start log r' nextAt d' ∧ (r'.standby.engines d').entries = .empty := by
  obtain ⟨whole, hwhole, hhistory, hn⟩ := h.whole
  have hdd' : d < d' := (hd' d).mpr le_rfl
  have htaken : ¬∀ e, (Function.update whole.next d (some (nextAt d)) e).isSome := fun hall => by
    have := hall d'
    rw [Function.update_of_ne (ne_of_gt hdd'), hn d',
      if_neg (not_lt.mpr ((hd' d).mpr le_rfl).le)] at this
    cases this
  have hends : ∀ e < d', e = d ∨ e < d := fun e he => (le_iff_eq_or_lt.mp ((hd' e).mp he))
  refine ⟨⟨r.standby, some { whole with
      next := Function.update whole.next d (some (nextAt d)) },
    Function.update r.ended d (at' d), r.copy⟩, ?_, ⟨h.copy, h.marked, ?_, fun e he => ?_,
      fun _ => ?_, fun e he => ?_, ?_⟩, ?_⟩
  · simp [Receiver.take, taking, hwhole, htaken, Receiver.endedAfter, Receiver.copyAfter]
  · refine ⟨_, rfl, hhistory, fun e => ?_⟩
    by_cases hed : e = d
    · subst hed
      simp [(hd' e).mpr le_rfl]
    · have hiff : e < d' ↔ e < d := (hd' e).trans (le_iff_lt_or_eq.trans (by simp [hed]))
      simp [hed, hn e, hiff]
  · rcases hends e he with rfl | hlt
    · simpa only [Function.update_self] using hat
    · simp only [Function.update_of_ne (ne_of_lt hlt)]
      exact h.started e hlt
  · by_cases hd : d = 0
    · subst hd
      simpa only [Function.update_self] using hbefore
    · simp only [Function.update_of_ne (Ne.symm hd)]
      exact h.before (Fin.pos_iff_ne_zero.mpr hd)
  · rcases hends e he with rfl | hlt
    · simpa only [Function.update_self] using hcopied
    · simp only [Function.update_of_ne (ne_of_lt hlt)]
      exact h.copied e hlt
  · intro e he
    exact h.later e (hdd'.trans he)
  · exact h.later d' hdd'

variable (bounds) in
/-- The last database's end taken: the copy is whole. -/
theorem Copying.whole_taken (h : Copying course start log r nextAt 2) {at' : Database → ℕ}
    (hcopied : CopiedTo course.quiet start log 2 (nextAt 2) (at' 2) (r.standby.engines 2).entries)
    (hbefore : course.before (r.ended 0) (nextAt 2)) :
    ∃ r', r.take bounds ⟨.copied 2 (nextAt 2), at'⟩ = (r', true) ∧
      Sound course start log r'.standby r'.copy ∧ Level r' nextAt := by
  obtain ⟨whole, hwhole, hhistory, hn⟩ := h.whole
  have hupdate : Function.update whole.next 2 (some (nextAt 2)) = fun e => some (nextAt e) := by
    funext e
    match e with
    | 0 => simp [hn]
    | 1 => simp [hn]
    | 2 => simp
  have hcopied' : ∀ e, CopiedTo course.quiet start log e (nextAt e)
      (Function.update r.ended 2 (at' 2) e) (r.standby.engines e).entries := fun e => match e with
    | 0 => h.copied 0 (by decide)
    | 1 => h.copied 1 (by decide)
    | 2 => hcopied
  have hnexts : (r.standby.performAll bounds
      (copiedWhole ⟨whole.history, fun e => some (nextAt e)⟩)).copies.next = nextAt := by
    rw [copiedWhole_copies]
    rfl
  refine ⟨⟨r.standby.performAll bounds (copiedWhole ⟨whole.history, fun e => some (nextAt e)⟩),
    none, Function.update r.ended 2 (at' 2), .taken (Function.update r.ended 2 (at' 2))⟩,
    ?_, ⟨?_, ?_, ?_, fun e => ?_, fun e => ?_⟩, ⟨rfl, fun _ _ => hnexts⟩⟩
  · simp [Receiver.take, taking, hwhole, hupdate, Receiver.endedAfter, Receiver.copyAfter]
  · rw [copiedWhole_copies]
    exact hhistory
  · rw [hnexts]
    exact hbefore
  · rw [hnexts]
    exact course.copied (h.started 0 (by decide)) hbefore
  · rw [copiedWhole_position, hnexts, hhistory]
    rfl
  · rw [copiedWhole_entries, hnexts]
    exact hcopied' e

end XmipPersist.Standby
