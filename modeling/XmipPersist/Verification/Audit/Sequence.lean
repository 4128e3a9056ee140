import XmipPersist.Model.Keeper
import XmipPersist.Verification.Writer.View

/-! # The audit sequence

Each operation numbers at most one audit record, with the next number, and the keeper forgets the
first. So a batch leaves the records from the first not kept on, and no others.
-/

namespace XmipPersist

variable {digest : Publication → Bytes}

/-! ## The sequence as a batch leaves it -/

/-- What is read at the audit sequence's places and at its records, where these were numbered so
far: they are the ones from `kept` on. -/
structure InSequence (get : Place → Except PersistError (Option Content)) (kept : ℕ)
    (entries : List AuditEntry) : Prop where
  keptAt : get (.sequence, .kept) >>= numbered = .ok kept
  le : kept ≤ entries.length
  stored : ∀ n entry,
    get (.audit, .id n) = .ok (some (.audit entry)) ↔ kept ≤ n ∧ entries[n]? = some entry

/-- A place the audit sequence is not told by. -/
theorem InSequence.congr {get get' : Place → Except PersistError (Option Content)} {kept : ℕ}
    {entries : List AuditEntry} (h : InSequence get kept entries)
    (hkept : get' (.sequence, .kept) = get (.sequence, .kept))
    (haudit : ∀ n, get' (.audit, .id n) = get (.audit, .id n)) :
    InSequence get' kept entries where
  keptAt := by rw [hkept, h.keptAt]
  le := h.le
  stored n entry := by rw [haudit, h.stored]

/-- The audit records put, each with its number. -/
def recorded (changes : List Change) : List (AuditEntry × ℕ) :=
  changes.filterMap fun c =>
    match c with
    | ⟨.audit, .id n, some (.audit entry)⟩ => some (entry, n)
    | _ => none

theorem recorded_append (cs ds : List Change) :
    recorded (cs ++ ds) = recorded cs ++ recorded ds := List.filterMap_append

/-- A decision that numbers these records, from the next number on, and leaves the place it is
kept at alone. -/
structure Counts (more : List AuditEntry) (b b' : Batch) : Prop where
  below : b'.below = b.below
  next : b'.next = b.next + more.length
  changes : ∃ added, b'.changes = b.changes ++ added ∧ recorded added = more.zipIdx b.next
  nextAt : b'.read (.sequence, .next) = b.read (.sequence, .next)

namespace Counts

variable {more more' : List AuditEntry} {b b' b'' : Batch}

theorem refl (b : Batch) : Counts [] b b := ⟨rfl, rfl, ⟨[], (List.append_nil _).symm, rfl⟩, rfl⟩

theorem trans (h : Counts more b b') (h' : Counts more' b' b'') : Counts (more ++ more') b b'' := by
  obtain ⟨added, he, hadded⟩ := h.changes
  obtain ⟨added', he', hadded'⟩ := h'.changes
  refine ⟨h'.below.trans h.below, ?_, ⟨added ++ added', ?_, ?_⟩, h'.nextAt.trans h.nextAt⟩
  · rw [h'.next, h.next, List.length_append, Nat.add_assoc]
  · rw [he', he, List.append_assoc]
  · rw [recorded_append, hadded, hadded', h.next, List.zipIdx_append]

/-- A stage taken into its batch. -/
theorem taking {stage : Batch} (h : Counts more b.staged stage) :
    Counts more b (b.taking stage) := by
  obtain ⟨added, he, hadded⟩ := h.changes
  refine ⟨rfl, h.next, ⟨added, ?_, hadded⟩, ?_⟩
  · simp [Batch.taking, he, Batch.staged]
  · rw [Batch.read_taking h.below]
    exact h.nextAt

end Counts

/-- What a decision does to the audit sequence, where the first record not kept is `kept` before
it and `kept'` after. -/
structure Sequences (kept kept' : ℕ) (more : List AuditEntry) (b b' : Batch) : Prop
    extends Counts more b b' where
  inSequence : ∀ entries, entries.length = b.next → InSequence b.read kept entries →
    InSequence b'.read kept' (entries ++ more)

namespace Sequences

variable {kept kept' kept'' : ℕ} {more more' : List AuditEntry} {b b' b'' : Batch}

theorem refl (kept : ℕ) (b : Batch) : Sequences kept kept [] b b :=
  ⟨.refl b, fun entries _ hb => by rwa [List.append_nil]⟩

theorem trans (h : Sequences kept kept' more b b') (h' : Sequences kept' kept'' more' b' b'') :
    Sequences kept kept'' (more ++ more') b b'' := by
  refine ⟨h.toCounts.trans h'.toCounts, fun entries hentries hb => ?_⟩
  have hlength : (entries ++ more).length = b'.next := by
    rw [List.length_append, hentries, h.next]
  rw [← List.append_assoc]
  exact h'.inSequence _ hlength (h.inSequence entries hentries hb)

theorem taking {stage : Batch} (h : Sequences kept kept' more b.staged stage) :
    Sequences kept kept' more b (b.taking stage) := by
  refine ⟨h.toCounts.taking, fun entries hentries hb => ?_⟩
  rw [Batch.read_taking h.below]
  exact h.inSequence entries hentries hb

/-- A decision that writes neither an audit record nor the sequence. -/
theorem of_adds {kinds : List Kind} (h : Adds kinds b b') (haudit : .audit ∉ kinds)
    (hsequence : .sequence ∉ kinds) : Sequences kept kept [] b b' := by
  obtain ⟨added, he, hadded⟩ := h.changes
  refine ⟨⟨h.below, h.stays haudit, ⟨added, he, ?_⟩, h.read_of_kind hsequence⟩,
    fun entries _ hb => ?_⟩
  · refine List.filterMap_eq_nil_iff.mpr fun c hc => ?_
    have hkind := (hadded c hc).2
    split
    · exact absurd hkind haudit
    · rfl
  · rw [List.append_nil]
    exact hb.congr (h.read_of_kind hsequence) fun n => h.read_of_kind haudit

end Sequences

/-- Whatever `m` decides numbers records so, and forgets none. -/
def Sequencing {α : Type} (m : Deciding α) : Prop :=
  ∀ kept, Decision.Moves (fun b b' => ∃ more, Sequences kept kept more b b') m

namespace Sequencing

variable {α β : Type}

theorem bind {m : Deciding α} {f : α → Deciding β} (hm : Sequencing m)
    (hf : ∀ a, Sequencing (f a)) : Sequencing (m >>= f) := by
  refine fun kept => Decision.Moves.bind ?_ (hm kept) fun a => hf a kept
  rintro b b' b'' ⟨more, h⟩ ⟨more', h'⟩
  exact ⟨more ++ more', h.trans h'⟩

theorem of_writes {kinds : List Kind} {m : Deciding α} (h : Writes kinds m)
    (haudit : .audit ∉ kinds) (hsequence : .sequence ∉ kinds) : Sequencing m :=
  fun _ b a b' hr => ⟨[], .of_adds (h b a b' hr) haudit hsequence⟩

theorem pure (a : α) : Sequencing (pure a) :=
  have h : Writes [] (Pure.pure a : Deciding α) := .pure a
  of_writes h (by simp) (by simp)

end Sequencing

/-- An audit record takes the next number. -/
theorem audit_sequencing (entry : AuditEntry) : Sequencing (audit entry) := by
  intro kept b a b' h
  simp only [audit, StateT.run, Except.ok.injEq, Prod.mk.injEq] at h
  obtain ⟨-, rfl⟩ := h
  have hread : ∀ p, (⟨b.below, (b.put .audit (.id b.next) (some (Form.bytes entry))).changes,
      b.next + 1⟩ : Batch).read p = if (.audit, .id b.next) = p then
        .ok (some (.audit entry)) else b.read p := fun p => Batch.read_put b _ _ _ p
  refine ⟨[entry], ⟨rfl, rfl, ⟨_, rfl, rfl⟩, ?_⟩, fun entries hentries hb => ?_⟩
  · exact (hread _).trans (if_neg (by simp))
  · refine ⟨?_, ?_, fun n e => ?_⟩
    · refine Eq.trans (congrArg (· >>= numbered) ?_) hb.keptAt
      exact (hread _).trans (if_neg (by simp))
    · have hle := hb.le
      rw [List.length_append]
      omega
    · have hle := hb.le
      have hstored := hb.stored n e
      have hn := hread (.audit, .id n)
      by_cases heq : n = b.next
      · subst heq
        rw [if_pos rfl] at hn
        have hlast : (entries ++ [entry])[b.next]? = some entry := by simp [← hentries]
        refine (Iff.of_eq (congrArg (· = _) hn)).trans ?_
        simp only [hlast, Except.ok.injEq, Option.some.injEq, Content.audit.injEq]
        exact ⟨fun h => ⟨hentries ▸ hle, h⟩, fun h => h.2⟩
      · rw [if_neg (by simpa using Ne.symm heq)] at hn
        refine (Iff.of_eq (congrArg (· = _) hn)).trans (hstored.trans ?_)
        have hsame : (entries ++ [entry])[n]? = some e ↔ entries[n]? = some e := by
          rw [List.getElem?_append]
          split
          · exact Iff.rfl
          · have hone : [entry].length ≤ n - entries.length := by
              simp only [List.length_singleton]
              omega
            have hnone : entries.length ≤ n := by omega
            simp [List.getElem?_eq_none hnone, List.getElem?_eq_none hone]
        rw [hsame]

/-! ## What an operation does to it -/

/-- Every operation but the keeper's numbers records so. -/
theorem Op.decide_sequencing {op : Op} (hmade : op.Made) (m : Moment)
    (hkept : ∀ number, op ≠ .kept number) : Sequencing (op.decide digest m) := by
  cases op with
  | put kind key value =>
      refine .bind ?_ fun _ => .pure _
      rcases hmade with ⟨record, rfl, rfl, rfl⟩ | ⟨record, rfl, rfl, rfl⟩
      · exact .of_writes (.put_one rfl) (by decide) (by decide)
      · exact .of_writes (.put_one rfl) (by decide) (by decide)
  | claim asked lease =>
      exact .bind (.of_writes (Claim.take_writes _ _ _ _) (by decide) (by decide)) fun _ => .pure _
  | renew claims lease =>
      exact .bind (.of_writes (Claim.renew_writes _ _ _) (by decide) (by decide)) fun _ => .pure _
  | release held =>
      exact .bind (.of_writes (Claim.release_writes _) (by decide) (by decide)) fun _ => .pure _
  | handOn asked =>
      exact .bind (.of_writes (HandOn.decide_writes _ _) (by decide) (by decide)) fun _ => .pure _
  | turn asked =>
      exact .bind (.of_writes (Turn.decide_writes _ _) (by decide) (by decide)) fun _ => .pure _
  | publish asked =>
      refine .bind (.of_writes (Publication.decide_writes _ _ _ _) (by decide) (by decide))
        fun decided => ?_
      cases decided with
      | before held => exact .pure _
      | now held => exact .bind (audit_sequencing _) fun _ => .pure _
  | replay asked =>
      refine .bind (.of_writes (Replay.decide_writes _) (by decide) (by decide)) fun replayed => ?_
      cases replayed with
      | now => exact .bind (audit_sequencing _) fun _ => .pure _
      | before => exact .pure _
      | absent => exact .pure _
  | audit entry => exact .bind (audit_sequencing _) fun _ => .pure _
  | kept number => exact absurd rfl (hkept number)

/-- The keeper's record is forgotten where it is the first not kept, and nothing otherwise. -/
theorem forgetKept_sequences {number kept : ℕ} {b : Batch}
    (hkept : b.read (.sequence, .kept) >>= numbered = .ok kept)
    (hnumber : kept = number → number < b.next) :
    ∃ b', (forgetKept number).run b = .ok (decide (kept = number), b') ∧
      Sequences kept (if kept = number then number + 1 else kept) [] b b' := by
  have hread : (forgetKept number).run b = (if kept ≠ number then pure false else do
      put .audit (.id number) none
      put .sequence .kept (some (.number (number + 1)))
      pure true : Deciding Bool).run b := by
    refine Decision.run_bind_ok ?_
    change (b.read (.sequence, .kept) >>= numbered).map (·, b) = _
    rw [hkept]
    rfl
  by_cases heq : kept = number
  · subst heq
    have hlt := hnumber rfl
    rw [if_neg (by simp)] at hread
    refine ⟨(b.put .audit (.id kept) none).put .sequence .kept (some (.number (kept + 1))),
      hread.trans (by rw [decide_eq_true rfl]; rfl), ?_⟩
    rw [if_pos rfl]
    refine ⟨⟨rfl, rfl, ⟨[_, _], List.append_assoc _ _ _, rfl⟩, ?_⟩, fun entries hentries hb =>
      ⟨?_, ?_, fun n entry => ?_⟩⟩
    · simp [Batch.read_put]
    · rw [Batch.read_put_self]
      rfl
    · rw [List.append_nil, hentries]
      exact hlt
    · rw [List.append_nil, Batch.read_put_of_ne _ _ (by simp)]
      by_cases hn : n = kept
      · subst hn
        rw [Batch.read_put_self]
        simp
      · rw [Batch.read_put_of_ne _ _ (by simpa using Ne.symm hn), hb.stored n]
        have hle : kept ≤ n ↔ kept + 1 ≤ n := by omega
        rw [hle]
  · rw [if_pos heq] at hread
    rw [if_neg heq]
    exact ⟨b, hread.trans (by rw [decide_eq_false heq]; rfl), .refl kept b⟩

/-! ## What a batch does to it -/

/-- A group numbers its records one after another, and forgets the first not kept where the
keeper asks for it there, once. -/
theorem decideEach_sequences {m : Moment} {b : Batch} {ops : List Op} {kept number : ℕ}
    {entries : List AuditEntry} (hmade : ∀ op ∈ ops, op.Made)
    (hentries : entries.length = b.next) (hb : InSequence b.read kept entries)
    (hasked : ∀ n, .kept n ∈ ops → n = number)
    (hnumber : kept = number → .kept number ∈ ops → number < b.next) :
    ∃ more, Sequences kept (if kept = number ∧ .kept number ∈ ops then number + 1 else kept) more b
      (decideEach digest m b ops).2 := by
  induction ops generalizing b kept entries with
  | nil => exact ⟨[], by simpa [decideEach] using Sequences.refl kept b⟩
  | cons op ops ih =>
      have hops : ∀ o ∈ ops, o.Made := fun o ho => hmade o (by simp [ho])
      have hrest : ∀ n, .kept n ∈ ops → n = number := fun n hn => hasked n (by simp [hn])
      have hgrown : ∀ {more b'}, Counts more b b' → (entries ++ more).length = b'.next := by
        intro more b' h
        rw [List.length_append, hentries, h.next]
      rw [decideEach]
      by_cases hop : op = .kept number
      · subst hop
        obtain ⟨stage, hrun, hstage⟩ := forgetKept_sequences (b := b.staged) hb.keptAt
          fun h => hnumber h (by simp)
        have hdone : (Op.decide digest m (.kept number)).run b.staged =
            .ok (.yes (kept = number), stage) := Decision.run_bind_ok hrun
        rw [hdone]
        have htaken := hstage.taking
        have hsame : (if kept = number ∧ .kept number ∈ Op.kept number :: ops then number + 1
            else kept) = if kept = number then number + 1 else kept := by simp
        have hnot : ¬(if kept = number then number + 1 else kept) = number := by
          split
          · exact Nat.succ_ne_self number
          · assumption
        rw [hsame]
        generalize (if kept = number then number + 1 else kept) = moved at htaken hnot
        obtain ⟨more, hafter⟩ := ih hops (hgrown htaken.toCounts)
          (htaken.inSequence entries hentries hb) hrest fun h => absurd h hnot
        rw [if_neg fun h => hnot h.1] at hafter
        exact ⟨_, htaken.trans hafter⟩
      · have hother : ∀ n, op ≠ .kept n := by
          rintro n rfl
          exact hop (congrArg Op.kept (hasked n (by simp)))
        have hmem : .kept number ∈ op :: ops ↔ .kept number ∈ ops := by
          simp [Ne.symm (hother number)]
        simp only [hmem]
        cases hrun : (op.decide digest m).run b.staged with
        | error e => exact ih hops hentries hb hrest fun h hmem => hnumber h (by simp [hmem])
        | ok p =>
            obtain ⟨first, hstage⟩ :=
              Op.decide_sequencing (hmade op (by simp)) m hother kept _ _ _ hrun
            have htaken := hstage.taking
            have hlt : kept = number → .kept number ∈ ops → number < (b.taking p.2).next := by
              intro h hmem
              have hbefore := hnumber h (by simp [hmem])
              have hnext := htaken.next
              omega
            obtain ⟨more, hafter⟩ := ih hops (hgrown htaken.toCounts)
              (htaken.inSequence entries hentries hb) hrest hlt
            exact ⟨_, htaken.trans hafter⟩

end XmipPersist
