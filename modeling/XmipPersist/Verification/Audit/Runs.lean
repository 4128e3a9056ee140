import XmipPersist.Library.Steps
import XmipPersist.Verification.Audit.Sequence

/-! # The audit sequence over runs of the node

The next number is kept in memory and in the store. They part only where a batch that panicked
had taken numbers it never wrote, and the sequence could not be read again.
-/

namespace XmipPersist

variable {digest : Publication → Bytes} {codec : Codec} {sha : Bytes → Bytes}

/-! ## Steps of the writer -/

/-- A writer whose next number is the stored one, where these were numbered so far, and whose
records are the ones from `kept` on. -/
structure Writer.Sequenced (w : Writer) (kept : ℕ) (entries : List AuditEntry) : Prop where
  proper : w.store.Proper
  next : entries.length = w.next
  nextAt : w.store.get (.sequence, .next) >>= numbered = .ok w.next
  inSequence : InSequence w.store.get kept entries

namespace Writer

variable {w : Writer} {kept number : ℕ} {entries : List AuditEntry} {m : Moment} {ops : List Op}

theorem fresh_sequenced : fresh.Sequenced 0 [] where
  proper := Store.empty_proper
  next := rfl
  nextAt := rfl
  inSequence := ⟨rfl, le_rfl, fun n => by simp [fresh, Store.get, Store.empty]⟩

/-- Its records are the ones from `kept` on, before the next number. -/
theorem Sequenced.stored (h : w.Sequenced kept entries) (n : ℕ) :
    (∃ entry, w.store.get (.audit, .id n) = .ok (some (.audit entry))) ↔ kept ≤ n ∧ n < w.next := by
  have hsome : (∃ entry, entries[n]? = some entry) ↔ n < entries.length := by
    rw [← Option.isSome_iff_exists]
    simp
  rw [← h.next, ← hsome, ← exists_and_left]
  exact exists_congr (h.inSequence.stored n)

/-- A decided batch, once it is laid, leaves its records in the store, and the next number with
them. -/
theorem laid_sequenced {decided : Batch} {s : Store} {kept' : ℕ} {entries' : List AuditEntry}
    (h : w.laid m decided = .ok s) (hw : w.Sequenced kept entries) (hd : decided.Changing)
    (hbelow : decided.below = w.store.get)
    (hnextAt : decided.read (.sequence, .next) = w.store.get (.sequence, .next))
    (hnext : entries'.length = decided.next) (hin : InSequence decided.read kept' entries') :
    Sequenced ⟨s, decided.next⟩ kept' entries' := by
  have hproper := laid_proper h hw.proper hd
  have hread : ∀ p, decided.read p =
      .ok ((written decided.changes p).getD (w.store.records p)) := by
    intro p
    rw [Batch.read, hbelow, hw.proper.get]
    cases written decided.changes p <;> rfl
  refine ⟨hproper, hnext, ?_, hin.congr ?_ fun n => ?_⟩
  · change s.get (.sequence, .next) >>= numbered = .ok decided.next
    rw [hproper.get, laid_sequence h]
    by_cases hsame : decided.next = w.next
    · rw [if_neg (by simp [hsame]), hsame, ← hw.nextAt, ← hnextAt, hread]
    · rw [if_pos ⟨rfl, hsame⟩]
      rfl
  · change s.get (.sequence, .kept) = decided.read (.sequence, .kept)
    rw [hproper.get, laid_sequence h, if_neg (by simp), hread]
  · exact laid_get h hw.proper hd hbelow ⟨rfl, by simp, by simp⟩

/-- What is written straight to the engine is none of the audit sequence's. -/
theorem deferred_sequenced {changes : List Change} (hw : w.Sequenced kept entries)
    (hchanges : ∀ c ∈ changes, c.Proper ∧ c.kind ≠ .audit ∧ c.kind ≠ .sequence) :
    (w.deferred changes).Sequenced kept entries := by
  have hsame : ∀ p : Place, p.1 = .audit ∨ p.1 = .sequence →
      (w.deferred changes).store.get p = w.store.get p := by
    intro p hp
    refine Store.get_applyIndexed_of_ne ?_
    rintro c hc rfl
    rcases hp with hp | hp
    · exact (hchanges c hc).2.1 hp
    · exact (hchanges c hc).2.2 hp
  refine ⟨hw.proper.applyIndexed fun c hc => (hchanges c hc).1, hw.next, ?_,
    hw.inSequence.congr ?_ ?_⟩
  · rw [hsame _ (.inr rfl)]
    exact hw.nextAt
  · exact hsame _ (.inr rfl)
  · exact fun n => hsame _ (.inl rfl)

/-- A writer started over its own store is as it was. -/
theorem restart_sequenced (hw : w.Sequenced kept entries) : w.after digest .restart = w := by
  rw [after, start, hw.nextAt]
  rfl

theorem recover_sequenced (hw : w.Sequenced kept entries) (reads : Bool) : w.recover reads = w := by
  rw [recover, hw.nextAt]
  cases reads <;> rfl

/-- The audit records a group numbered, where it was written. -/
def recorded (digest : Publication → Bytes) (w : Writer) (m : Moment) (ops : List Op) :
    List (AuditEntry × ℕ) :=
  let decided := (decideEach digest m (Batch.over' w.store w.next) ops).2
  match w.laid m decided with
  | .ok _ => XmipPersist.recorded decided.changes
  | .error _ => []

/-- What a group does to the audit sequence, its first record not kept at `kept` before it and at
`kept'` after. -/
structure Grouped (digest : Publication → Bytes) (w : Writer) (m : Moment) (ops : List Op)
    (kept kept' : ℕ) (entries more : List AuditEntry) : Prop where
  sequenced : (w.committed digest m ops).writer.Sequenced kept' (entries ++ more)
  recorded : w.recorded digest m ops = more.zipIdx entries.length
  either : kept' = kept ∨ .kept kept ∈ ops ∧ kept' = kept + 1
  moved : .kept kept ∈ ops → ∀ done, .ok done ∈ (w.committed digest m ops).answers →
    kept' = kept + 1

theorem Grouped.same {kept' : ℕ} {more : List AuditEntry}
    (h : w.Grouped digest m ops kept kept' entries more) (hnot : .kept kept ∉ ops) :
    kept' = kept :=
  h.either.elim id fun hkept => absurd hkept.1 hnot

theorem committed_grouped (hw : w.Sequenced kept entries) (hmade : ∀ op ∈ ops, op.Made)
    (hasked : ∀ n, .kept n ∈ ops → n = kept ∧ n < w.next) :
    ∃ kept' more, w.Grouped digest m ops kept kept' entries more := by
  cases hl : w.laid m (decideEach digest m (Batch.over' w.store w.next) ops).2 with
  | error e =>
      have hwriter : (w.committed digest m ops).writer = w := by simp [committed, hl]
      refine ⟨kept, [], by rwa [hwriter, List.append_nil], ?_, .inl rfl, fun _ done hdone => ?_⟩
      · rw [recorded, hl]
        rfl
      · simp only [committed, hl, List.mem_map] at hdone
        obtain ⟨-, -, h⟩ := hdone
        cases h
  | ok s =>
      have hwriter : (w.committed digest m ops).writer =
          ⟨s, (decideEach digest m (Batch.over' w.store w.next) ops).2.next⟩ := by
        simp [committed, hl]
      obtain ⟨more, hdecided⟩ : ∃ more,
          Sequences kept (if kept = kept ∧ .kept kept ∈ ops then kept + 1 else kept) more
            (Batch.over' w.store w.next)
            (decideEach digest m (Batch.over' w.store w.next) ops).2 :=
        decideEach_sequences hmade hw.next hw.inSequence (fun n hn => (hasked n hn).1)
          fun _ h => (hasked kept h).2
      have hchanging : (decideEach digest m (Batch.over' w.store w.next) ops).2.Changing :=
        decideEach_changing hmade (by simp [Batch.Changing, Batch.over'])
      have hlength : (entries ++ more).length =
          (decideEach digest m (Batch.over' w.store w.next) ops).2.next := by
        rw [List.length_append, hw.next]
        exact hdecided.next.symm
      have hlaid := laid_sequenced hl hw hchanging (decideEach_below _ _ _) hdecided.nextAt hlength
        (hdecided.inSequence entries hw.next hw.inSequence)
      refine ⟨_, more, by rw [hwriter]; exact hlaid, ?_, ?_, fun h _ _ => ?_⟩
      · obtain ⟨added, hadded, hrecorded⟩ := hdecided.changes
        rw [recorded, hl]
        change XmipPersist.recorded (decideEach digest m (Batch.over' w.store w.next) ops).2.changes
          = _
        rw [hadded, hw.next]
        exact hrecorded
      · by_cases h : .kept kept ∈ ops
        · exact .inr ⟨h, if_pos ⟨rfl, h⟩⟩
        · exact .inl (if_neg fun h' => h h'.2)
      · exact if_pos ⟨rfl, h⟩

end Writer

/-! ## Steps of the node -/

/-- A keeper moving the first record not kept, with records up to the next number to move. -/
def Keeping.At (kept next : ℕ) (keeping : Keeping) : Prop :=
  keeping.number = kept ∧ keeping.number < keeping.upto ∧ keeping.upto ≤ next

namespace Embedded

variable {node : Embedded} {kept : ℕ} {entries : List AuditEntry} {act : Act} {acts : List Act}

/-- A node whose writer's records are numbered so, and whose keeper is at the first not kept. -/
structure Sequenced (node : Embedded) (kept : ℕ) (entries : List AuditEntry) : Prop where
  writer : node.writer.Sequenced kept entries
  keeping : ∀ keeping, node.keeping = some keeping → keeping.At kept node.writer.next

theorem fresh_sequenced : fresh.Sequenced 0 [] := ⟨Writer.fresh_sequenced, nofun⟩

/-- Whatever the keeper has still to write of its record. -/
theorem Sequenced.at_writes {number upto chunk : ℕ} {writes : Option (List EngineWrite)}
    (h : node.Sequenced kept entries) (hk : node.keeping = some ⟨number, upto, chunk, writes⟩)
    (rest : Option (List EngineWrite)) :
    Keeping.At kept node.writer.next ⟨number, upto, chunk, rest⟩ := by
  obtain ⟨hnumber, hlt, hle⟩ := h.keeping _ hk
  exact ⟨hnumber, hlt, hle⟩

/-- A batch that panicked before its write had taken no number, or the sequence is read again. -/
def Recovers (digest : Publication → Bytes) (node : Embedded) : Act → Prop
  | .panicked m ops (.deciding decided numbered) reads =>
      reads = true ∨
        (node.writer.struck digest m ops (.deciding decided numbered)).next = node.writer.next
  | _ => True

/-- The audit records a step numbered, each with its number. -/
def recorded (digest : Publication → Bytes) (node : Embedded) : Act → List (AuditEntry × ℕ)
  | .step (.group m ops) => node.writer.recorded digest m ops
  | .panicked m ops .written _ => node.writer.recorded digest m ops
  | _ => []

/-- What a step does to the audit sequence. -/
structure Stepped (digest : Publication → Bytes) (node node' : Embedded) (act : Act)
    (kept kept' : ℕ) (entries more : List AuditEntry) : Prop where
  sequenced : node'.Sequenced kept' (entries ++ more)
  either : kept' = kept ∨ .kept kept ∈ act.ops ∧ kept' = kept + 1
  recorded : node.recorded digest act = more.zipIdx entries.length

theorem asked_of_makes (h : node.Sequenced kept entries) (hmakes : node.Makes act) :
    ∀ n, .kept n ∈ act.ops → n = kept ∧ n < node.writer.next := by
  intro n hn
  obtain ⟨keeping, hkeeping, rfl, -⟩ := hmakes.asked n hn
  obtain ⟨hnumber, hlt, hle⟩ := h.keeping keeping hkeeping
  exact ⟨hnumber, hlt.trans_le hle⟩

/-- A step that numbers no record and forgets none. -/
theorem stepped_of_sequenced {node' : Embedded} (hwriter : node'.writer.Sequenced kept entries)
    (hnext : node'.writer.next = node.writer.next) (hrecorded : node.recorded digest act = [])
    (hkeeping : ∀ keeping, node'.keeping = some keeping → keeping.At kept node.writer.next) :
    Stepped digest node node' act kept kept entries [] := by
  refine ⟨⟨by rwa [List.append_nil], by rwa [hnext]⟩, .inl rfl, ?_⟩
  rw [hrecorded]
  rfl

/-- A step that leaves the writer as it is. -/
theorem stepped_of_writer {node' : Embedded} (h : node.Sequenced kept entries)
    (hwriter : node'.writer = node.writer) (hrecorded : node.recorded digest act = [])
    (hkeeping : ∀ keeping, node'.keeping = some keeping → keeping.At kept node.writer.next) :
    Stepped digest node node' act kept kept entries [] :=
  stepped_of_sequenced (hwriter ▸ h.writer) (congrArg Writer.next hwriter) hrecorded hkeeping

/-- The next number only grows over a group. -/
theorem grouped_next {m : Moment} {ops : List Op} {kept' : ℕ} {more : List AuditEntry}
    (h : node.Sequenced kept entries)
    (hgroup : node.writer.Grouped digest m ops kept kept' entries more) :
    node.writer.next ≤ (node.writer.committed digest m ops).writer.next := by
  rw [← h.writer.next, ← hgroup.sequenced.next, List.length_append]
  exact Nat.le_add_right _ _

/-- The keeper once a group is answered is at the first record not kept. -/
theorem heard_keeping {m : Moment} {ops : List Op} {kept' : ℕ} {more : List AuditEntry}
    (h : node.Sequenced kept entries)
    (hgroup : node.writer.Grouped digest m ops kept kept' entries more) {keeping : Keeping}
    (hheard : node.heard digest m ops = some keeping) :
    keeping.At kept' (node.writer.committed digest m ops).writer.next := by
  unfold heard at hheard
  cases hk : node.keeping with
  | none => simp [hk] at hheard
  | some before =>
      obtain ⟨hnumber, hlt, hle⟩ := h.keeping before hk
      have hupto := hle.trans (grouped_next h hgroup)
      simp only [hk] at hheard
      by_cases hmem : .kept before.number ∈ ops
      · rw [if_pos hmem] at hheard
        unfold told at hheard
        split at hheard
        · next hanswered =>
            obtain ⟨asked, hfound, hdone⟩ := Option.map_eq_some_iff.mp hanswered
            have hanswer : .ok (.yes true) ∈ (node.writer.committed digest m ops).answers := by
              rw [← hdone]
              exact (List.of_mem_zip (List.mem_of_find?_eq_some hfound)).2
            have hmoved := hgroup.moved (hnumber ▸ hmem) _ hanswer
            split at hheard
            · next hmore =>
                obtain rfl := Option.some.inj hheard
                exact ⟨by rw [hmoved, hnumber], hmore, hupto⟩
            · cases hheard
        · cases hheard
      · rw [if_neg hmem] at hheard
        obtain rfl := Option.some.inj hheard
        exact ⟨hnumber.trans (hgroup.same (hnumber ▸ hmem)).symm, hlt, hupto⟩

/-- A keeper started is at the first record not kept. -/
theorem keep_keeping {most chunk : ℕ} (h : node.Sequenced kept entries) {keeping : Keeping}
    (hkeep : (node.keep most chunk).keeping = some keeping) : keeping.At kept node.writer.next := by
  unfold keep at hkeep
  rw [h.writer.inSequence.keptAt, h.writer.nextAt] at hkeep
  cases hk : node.keeping with
  | some before =>
      rw [hk] at hkeep
      exact h.keeping keeping (hk ▸ hkeep)
  | none =>
      rw [hk] at hkeep
      simp only at hkeep
      split at hkeep
      · next hlt =>
          obtain rfl := Option.some.inj hkeep
          exact ⟨rfl, hlt, min_le_left _ _⟩
      · cases hkeep

theorem look_keeping (h : node.Sequenced kept entries) {keeping : Keeping}
    (hlook : (node.look codec sha).keeping = some keeping) : keeping.At kept node.writer.next := by
  unfold look at hlook
  split at hlook
  · next number upto chunk hk =>
      split at hlook
      · obtain rfl := Option.some.inj hlook
        exact h.at_writes hk _
      · cases hlook
  · exact h.keeping keeping hlook

theorem write_keeping {now : ℤ} (h : node.Sequenced kept entries) {keeping : Keeping}
    (hwrite : (node.write now).keeping = some keeping) : keeping.At kept node.writer.next := by
  unfold write at hwrite
  split at hwrite
  · next number upto chunk next rest hk =>
      split at hwrite
      · obtain rfl := Option.some.inj hwrite
        exact h.at_writes hk _
      · cases hwrite
  · exact h.keeping keeping hwrite

theorem look_writer : (node.look codec sha).writer = node.writer := by
  unfold look
  split
  · split <;> rfl
  · rfl

theorem write_writer {now : ℤ} : (node.write now).writer = node.writer := by
  unfold write
  split
  · split <;> rfl
  · rfl

theorem keep_writer {most chunk : ℕ} : (node.keep most chunk).writer = node.writer := by
  unfold keep
  split <;> rfl

/-- A batch that panicked leaves the writer as it found it, or as it wrote it. -/
theorem panicked_stepped {m : Moment} {ops : List Op} {struck : Struck} {reads : Bool}
    (h : node.Sequenced kept entries) (hmakes : node.Makes (.panicked m ops struck reads))
    (hrecovers : node.Recovers digest (.panicked m ops struck reads)) :
    ∃ kept' more, Stepped digest node
      (node.after codec sha digest (.panicked m ops struck reads)) (.panicked m ops struck reads)
      kept kept' entries more := by
  have hasked := asked_of_makes h hmakes
  have hfiltered : ∀ keeping, node.keeping.filter (fun k => .kept k.number ∉ ops) =
      some keeping → node.keeping = some keeping ∧ .kept keeping.number ∉ ops := by
    intro keeping hk
    simpa using Option.filter_eq_some_iff.mp hk
  cases struck with
  | deciding decided numbered =>
      have hwriter : (node.writer.struck digest m ops (.deciding decided numbered)).recover reads =
          node.writer := by
        rcases hrecovers with rfl | hnext
        · simp only [Writer.recover, Writer.struck, if_true]
          rw [h.writer.nextAt]
        · have hsame : node.writer.struck digest m ops (.deciding decided numbered) =
              node.writer :=
            congrArg (fun next => (⟨node.writer.store, next⟩ : Writer)) hnext
          rw [hsame, Writer.recover_sequenced h.writer]
      exact ⟨kept, [], stepped_of_writer h hwriter rfl fun k hk => h.keeping k (hfiltered k hk).1⟩
  | written =>
      obtain ⟨kept', more, hgroup⟩ := Writer.committed_grouped h.writer hmakes.made hasked
      have hwriter : (node.after codec sha digest (.panicked m ops .written reads)).writer =
          (node.writer.committed digest m ops).writer :=
        Writer.recover_sequenced hgroup.sequenced reads
      refine ⟨kept', more, ⟨by rw [hwriter]; exact hgroup.sequenced, fun k hk => ?_⟩,
        hgroup.either, hgroup.recorded⟩
      · rw [hwriter]
        obtain ⟨hbefore, hnot⟩ := hfiltered k hk
        obtain ⟨hnumber, hlt, hle⟩ := h.keeping k hbefore
        exact ⟨hnumber.trans (hgroup.same (hnumber ▸ hnot)).symm, hlt,
          hle.trans (grouped_next h hgroup)⟩

/-- Each step numbers its records one after another, and keeps the sequence in hand. -/
theorem after_stepped (h : node.Sequenced kept entries) (hmakes : node.Makes act)
    (hrecovers : node.Recovers digest act) :
    ∃ kept' more,
      Stepped digest node (node.after codec sha digest act) act kept kept' entries more := by
  cases act with
  | step step =>
      cases step with
      | group m ops =>
          obtain ⟨kept', more, hgroup⟩ :=
            Writer.committed_grouped h.writer hmakes.made (asked_of_makes h hmakes)
          exact ⟨kept', more, ⟨hgroup.sequenced, fun _ => heard_keeping h hgroup⟩, hgroup.either,
            hgroup.recorded⟩
      | chunk chunk =>
          have hwriter : (node.writer.deferred [Writer.chunkChange chunk]).Sequenced kept entries :=
            Writer.deferred_sequenced h.writer
              (by simp [Writer.chunkChange, Change.Proper, Kind.holds, Form.bytes])
          exact ⟨kept, [], stepped_of_sequenced hwriter rfl rfl h.keeping⟩
      | stream last stream now =>
          have hwriter : (node.writer.deferred
              (Writer.streamChanges last stream now)).Sequenced kept entries :=
            Writer.deferred_sequenced h.writer (by
              simp [Writer.streamChanges, Writer.chunkChange, Change.Proper, Kind.holds,
                Form.bytes])
          exact ⟨kept, [], stepped_of_sequenced hwriter rfl rfl h.keeping⟩
      | restart =>
          have hwriter : node.writer.after digest .restart = node.writer :=
            Writer.restart_sequenced h.writer
          exact ⟨kept, [], stepped_of_writer h hwriter rfl fun _ hk => by cases hk⟩
  | panicked m ops struck reads => exact panicked_stepped h hmakes hrecovers
  | keep most chunk => exact ⟨kept, [], stepped_of_writer h keep_writer rfl fun _ => keep_keeping h⟩
  | look => exact ⟨kept, [], stepped_of_writer h look_writer rfl fun _ => look_keeping h⟩
  | write now => exact ⟨kept, [], stepped_of_writer h write_writer rfl fun _ => write_keeping h⟩
  | cut => exact ⟨kept, [], stepped_of_writer h rfl rfl fun _ hk => by cases hk⟩

/-! ## Runs of the node -/

section Runs

variable (codec : Codec) (sha : Bytes → Bytes) (digest : Publication → Bytes)

/-- The audit records a run numbered, in order, each with its number. -/
def recordedOver : Embedded → List Act → List (AuditEntry × ℕ)
  | _, [] => []
  | node, act :: acts =>
      node.recorded digest act ++ recordedOver (node.after codec sha digest act) acts

/-- A run as the node makes it, the sequence read again after every batch that panicked with
numbers taken and not written. -/
def Recovering (node : Embedded) (acts : List Act) : Prop :=
  EachStep (after codec sha digest)
    (fun node act => node.Makes act ∧ node.Recovers digest act) node acts

end Runs

theorem run_stepped (h : node.Sequenced kept entries)
    (hruns : node.Recovering codec sha digest acts) :
    ∃ kept' more, (node.run codec sha digest acts).Sequenced kept' (entries ++ more) ∧
      node.recordedOver codec sha digest acts = more.zipIdx entries.length := by
  induction acts generalizing node kept entries with
  | nil => exact ⟨kept, [], by rwa [List.append_nil], rfl⟩
  | cons act acts ih =>
      obtain ⟨kept₁, first, hstep⟩ := after_stepped h hruns.head.1 hruns.head.2
      obtain ⟨kept', more, hlast, hrecorded⟩ := ih hstep.sequenced hruns.tail
      refine ⟨kept', first ++ more, by rwa [← List.append_assoc], ?_⟩
      rw [recordedOver, hstep.recorded, hrecorded, List.zipIdx_append, List.length_append]

/-- The stored audit sequence: its records are the ones from `kept` on before `next`, the keeper's
is there, and no number was given twice. -/
structure InHand (node : Embedded) (recorded : List (AuditEntry × ℕ)) (kept next : ℕ) : Prop where
  keptAt : node.writer.store.get (.sequence, .kept) >>= numbered = .ok kept
  nextAt : node.writer.store.get (.sequence, .next) >>= numbered = .ok next
  stored : ∀ n, (∃ entry, node.writer.store.get (.audit, .id n) = .ok (some (.audit entry))) ↔
    kept ≤ n ∧ n < next
  found : ∀ keeping, node.keeping = some keeping →
    ∃ entry, node.writer.store.get (.audit, .id keeping.number) = .ok (some (.audit entry))
  once : (recorded.map Prod.snd).Nodup

/-- In every state of a run of the node from nothing, its audit records are the ones from the first
not kept up to the next number, where each batch that panicked with numbers taken and not written
has the sequence read again. -/
theorem audit_in_hand (hruns : fresh.Recovering codec sha digest acts) :
    ∃ kept next, InHand (fresh.run codec sha digest acts)
      (fresh.recordedOver codec sha digest acts) kept next := by
  obtain ⟨kept, entries, h, hrecorded⟩ := run_stepped fresh_sequenced hruns
  have hstored := fun n => h.writer.stored n
  refine ⟨kept, _, h.writer.inSequence.keptAt, h.writer.nextAt, hstored, fun keeping hk => ?_, ?_⟩
  · obtain ⟨hnumber, hlt, hle⟩ := h.keeping keeping hk
    exact (hstored keeping.number).mpr ⟨hnumber.ge, hlt.trans_le hle⟩
  · rw [hrecorded, List.zipIdx_map_snd]
    exact List.nodup_range'

/-- A record written and one whose batch panicked before its write, read again; one whose batch
panicked after it, not read again; and the first moved by the keeper. -/
def panickedAndRead : List Act :=
  let at' (now : ℤ) : Moment := ⟨now, 3, .asWritten, none⟩
  [.step (.group (at' 0) [.audit { id := 1 }]),
    .panicked (at' 1) [.audit { id := 2 }] (.deciding 0 true) true,
    .panicked (at' 2) [.audit { id := 3 }] .written false,
    .keep 10 64, .look, .write 3, .write 3, .step (.group (at' 3) [.kept 0])]

/-- A record whose batch panicked before its write, the sequence then not read again, and one
written after it. -/
def panickedAndUnread : List Act :=
  let at' (now : ℤ) : Moment := ⟨now, 3, .asWritten, none⟩
  [.panicked (at' 0) [.audit { id := 1 }] (.deciding 1 false) false,
    .step (.group (at' 1) [.audit { id := 2 }])]

theorem audit_in_hand_read :
    ∃ kept next, InHand (fresh.run ⟨fun _ => [], id⟩ (fun _ => []) (fun _ => []) panickedAndRead)
      (fresh.recordedOver ⟨fun _ => [], id⟩ (fun _ => []) (fun _ => []) panickedAndRead)
      kept next := by
  have hkept : (fresh.run ⟨fun _ => [], id⟩ (fun _ => []) (fun _ => [])
      (panickedAndRead.take 7)).keeping.map (fun k => (k.number, k.writes.map List.length)) =
        some (0, some 0) := by
    decide +kernel
  obtain ⟨keeping, hkeeping, hk⟩ := Option.map_eq_some_iff.mp hkept
  obtain ⟨hnumber, hwrites⟩ := Prod.mk.inj hk
  obtain ⟨writes, hsome, hlength⟩ := Option.map_eq_some_iff.mp hwrites
  obtain rfl := List.length_eq_zero_iff.mp hlength
  have hasked : ∀ n, Op.kept n ∈ [Op.kept 0] → ∃ keeping, (fresh.run ⟨fun _ => [], id⟩
      (fun _ => []) (fun _ => []) (panickedAndRead.take 7)).keeping = some keeping ∧
        keeping.number = n ∧ keeping.writes = some [] := by
    intro n hn
    obtain rfl : n = 0 := by simpa using hn
    exact ⟨keeping, hkeeping, hnumber, hsome⟩
  refine audit_in_hand ⟨⟨⟨?_, ?_⟩, ?_⟩, ⟨⟨?_, ?_⟩, .inl rfl⟩, ⟨⟨?_, ?_⟩, ?_⟩, ⟨⟨?_, ?_⟩, ?_⟩,
    ⟨⟨?_, ?_⟩, ?_⟩, ⟨⟨?_, ?_⟩, ?_⟩, ⟨⟨?_, ?_⟩, ?_⟩, ⟨⟨?_, hasked⟩, ?_⟩, trivial⟩
  all_goals simp [Act.ops, Op.Made, Recovers]

theorem audit_hole :
    ¬∀ (codec : Codec) (sha : Bytes → Bytes) (digest : Publication → Bytes) (acts : List Act),
      EachStep (after codec sha digest) Makes fresh acts →
        ∃ kept next, InHand (fresh.run codec sha digest acts)
          (fresh.recordedOver codec sha digest acts) kept next := by
  intro hall
  have hmakes : EachStep (after ⟨fun _ => [], id⟩ (fun _ => []) (fun _ => [])) Makes fresh
      panickedAndUnread := by
    refine ⟨⟨?_, ?_⟩, ⟨?_, ?_⟩, trivial⟩ <;> simp [Act.ops, Op.Made]
  obtain ⟨kept, next, h⟩ := hall _ _ _ _ hmakes
  have hkept : (fresh.run ⟨fun _ => [], id⟩ (fun _ => []) (fun _ => [])
      panickedAndUnread).writer.store.get (.sequence, .kept) >>= numbered = .ok 0 := by
    decide +kernel
  have hnext : (fresh.run ⟨fun _ => [], id⟩ (fun _ => []) (fun _ => [])
      panickedAndUnread).writer.store.get (.sequence, .next) >>= numbered = .ok 2 := by
    decide +kernel
  have hgone : (fresh.run ⟨fun _ => [], id⟩ (fun _ => []) (fun _ => [])
      panickedAndUnread).writer.store.get (.audit, .id 0) = .ok none := by
    decide +kernel
  generalize fresh.run ⟨fun _ => [], id⟩ (fun _ => []) (fun _ => []) panickedAndUnread = node
    at h hkept hnext hgone
  obtain rfl : kept = 0 := Except.ok.inj (h.keptAt.symm.trans hkept)
  obtain rfl : next = 2 := Except.ok.inj (h.nextAt.symm.trans hnext)
  obtain ⟨entry, hentry⟩ := (h.stored 0).mpr ⟨le_rfl, by decide⟩
  cases hgone.symm.trans hentry

end Embedded

end XmipPersist
