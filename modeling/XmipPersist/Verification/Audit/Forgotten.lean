import XmipPersist.Model.CopiedNode
import XmipPersist.Verification.Audit.Keeping

/-! # What is forgotten is settled

A record is forgotten in the runtime database only once its row is in the audit database. From
then on nothing that is kept of it is written again: the keeper writes of the record it moves,
and no record it moves has its row there.
-/

namespace XmipPersist

variable {digest : Publication → Bytes} {codec : Codec} {sha : Bytes → Bytes}

/-! ## What is laid out -/

theorem EngineWrite.apply_eq (w : EngineWrite) (audit : Store) (now : ℤ) :
    w.apply audit now =
      (w.laid audit now).map fun laid => audit.applyIndexed laid.1 laid.2 := by
  cases w with
  | deferred change => rfl
  | indexed changes =>
      simp only [apply, laid]
      cases writtenOver audit.get (nanos now) [] changes <;> rfl

/-- A write is laid out over its own places, and where it puts something something is put. -/
theorem EngineWrite.laid_forall₂ {w : EngineWrite} {audit : Store} {now : ℤ} {laid : Laid}
    (h : w.laid audit now = .ok laid) :
    List.Forall₂ (fun c c' : Change => c'.place = c.place ∧
      c'.value.map Content.bare = c.value.map Content.bare) w.changes laid.1 := by
  cases w with
  | deferred change =>
      obtain rfl := Except.ok.inj h
      exact .cons ⟨rfl, rfl⟩ .nil
  | indexed changes =>
      obtain ⟨cs, es⟩ := laid
      exact writtenOver_laid h

theorem Writer.committed_store (w : Writer) (m : Moment) (ops : List Op) :
    (w.committed digest m ops).writer.store =
      match w.wrote digest m ops with
      | some laid => w.store.applyIndexed laid.1 laid.2
      | none => w.store := by
  simp only [committed, laid, wrote]
  by_cases hidle : w.idle (decideEach digest m (Batch.over' w.store w.next) ops).2
  · simp [hidle]
  · simp only [hidle, if_false]
    cases hlaying : w.laying m (decideEach digest m (Batch.over' w.store w.next) ops).2 with
    | error e => cases m.refused <;> simp [bind, Except.bind, Except.toOption]
    | ok laid =>
        cases m.refused <;>
          simp [bind, Except.bind, pure, Except.pure, throw, throwThe, MonadExceptOf.throw,
            Except.toOption]

/-! ## What the keeper has still to write -/

/-- Whether a record of an identifier has its row in the audit database. -/
def Store.HasRow (audit : Store) (id : ℕ) : Prop :=
  (audit.records (.keptAudit, .id id)).isSome

namespace Keeper

/-- What is still to be written of a record without a row: its own places and its chain's head,
the row last. -/
structure Outstanding (id : ℕ) (ws : List EngineWrite) : Prop where
  places : ∀ w ∈ ws, ∀ c ∈ w.changes, c.place.keptOf = some id ∨ c.kind = .chain
  rows : ∀ w ∈ ws, ∀ c ∈ w.changes, c.kind = .keptAudit → c.value.isSome
  last : ∃ plain own, ws = plain ++ [own] ∧
    (∀ w ∈ plain, ∀ c ∈ w.changes, c.kind ≠ .keptAudit) ∧
      ∃ c ∈ own.changes, c.place = (.keptAudit, .id id)

variable {runtime audit : Store} {number chunk id : ℕ} {w : EngineWrite}
  {ws rest : List EngineWrite}

theorem Outstanding.ne_nil (h : Outstanding id ws) : ws ≠ [] := by
  obtain ⟨plain, own, rfl, -⟩ := h.last
  simp

/-- The last of them writes the row, and none before it writes one. -/
theorem Outstanding.tail (h : Outstanding id (w :: rest)) :
    rest = [] ∧ (∃ c ∈ w.changes, c.place = (.keptAudit, .id id)) ∨
      Outstanding id rest ∧ ∀ c ∈ w.changes, c.kind ≠ .keptAudit := by
  obtain ⟨plain, own, hws, hplain, hrow⟩ := h.last
  cases plain with
  | nil =>
      obtain ⟨rfl, rfl⟩ := List.cons.inj hws
      exact .inl ⟨rfl, hrow⟩
  | cons first plain =>
      obtain ⟨rfl, rfl⟩ := List.cons.inj hws
      refine .inr ⟨⟨fun w hw => h.places w (List.mem_cons_of_mem _ hw),
        fun w hw => h.rows w (List.mem_cons_of_mem _ hw), plain, own, rfl,
        fun w hw => hplain w (List.mem_cons_of_mem _ hw), hrow⟩, hplain w (by simp)⟩

theorem writes_outstanding (h : writes codec sha chunk runtime audit number = .ok ws) :
    ∃ entry, runtime.get (.audit, .id number) = .ok (some (.audit entry)) ∧
      (ws = [] ∧ audit.HasRow entry.id ∨ ¬audit.HasRow entry.id ∧ Outstanding entry.id ws) := by
  obtain ⟨entry, hentry, hwrites⟩ := writes_spec h
  refine ⟨entry, hentry, ?_⟩
  rcases hwrites with ⟨⟨found, hfound⟩, rfl⟩ | ⟨hnone, chunks, streams, head, kept, hchunks, hlink,
    rfl⟩
  · refine .inl ⟨rfl, ?_⟩
    rw [Store.HasRow, Option.isSome_iff_ne_none]
    intro hnone
    simp [Store.get, hnone] at hfound
  · have hhead : head.kind = .chain := by
      simp only [link, bind_eq_ok] at hlink
      obtain ⟨last, -, hlink⟩ := hlink
      exact congrArg Change.kind (Prod.mk.inj (Except.ok.inj hlink)).1.symm
    have hbefore : ∀ w ∈ chunks ++ bodyKept codec chunk entry, ∀ c ∈ w.changes,
        c.place.keptOf = some entry.id ∧ c.kind ≠ .keptAudit := by
      intro w hw c hc
      rcases List.mem_append.mp hw with hw | hw
      · obtain ⟨hkind, hplace⟩ := streamsKept_plain hchunks w hw c hc
        exact ⟨hplace, by rw [hkind]; simp⟩
      · obtain ⟨index, hindex, rfl⟩ := List.mem_mapIdx.mp hw
        obtain rfl := List.mem_singleton.mp hc
        exact ⟨rfl, by simp⟩
    have hown : ∀ c ∈ streamRows entry.id streams ++
        [head, ⟨.keptAudit, .id entry.id, some (Form.bytes kept)⟩],
        (c.place.keptOf = some entry.id ∨ c.kind = .chain) ∧
          (c.kind = .keptAudit → c.value.isSome) := by
      intro c hc
      rcases List.mem_append.mp hc with hc | hc
      · obtain ⟨stream, -, rfl⟩ := List.mem_map.mp hc
        exact ⟨.inl rfl, by simp⟩
      · rcases List.mem_pair.mp hc with rfl | rfl
        · exact ⟨.inr hhead, by simp [hhead]⟩
        · exact ⟨.inl rfl, by simp⟩
    refine .inr ⟨?_, fun w hw c hc => ?_, fun w hw c hc hkind => ?_, _, _, rfl,
      fun w hw c hc => (hbefore w hw c hc).2, ?_⟩
    · intro hrow
      obtain ⟨found, hfound⟩ := Option.isSome_iff_exists.mp hrow
      cases found <;> simp [Store.get, hfound] at hnone
    · rcases List.mem_append.mp hw with hw | hw
      · exact .inl (hbefore w hw c hc).1
      · obtain rfl := List.mem_singleton.mp hw
        exact (hown c hc).1
    · rcases List.mem_append.mp hw with hw | hw
      · exact absurd hkind (hbefore w hw c hc).2
      · obtain rfl := List.mem_singleton.mp hw
        exact (hown c hc).2 hkind
    · exact ⟨⟨.keptAudit, .id entry.id, some (Form.bytes kept)⟩, by simp [EngineWrite.changes],
        rfl⟩

end Keeper

/-- What a pending write leaves of the rows: those there stay, and its own where it writes one. -/
theorem EngineWrite.hasRow {w : EngineWrite} {audit : Store} {now : ℤ} {laid : Laid}
    (h : w.laid audit now = .ok laid)
    (hrows : ∀ c ∈ w.changes, c.kind = .keptAudit → c.value.isSome) (id : ℕ) :
    (audit.applyIndexed laid.1 laid.2).HasRow id ↔
      audit.HasRow id ∨ ∃ c ∈ w.changes, c.place = (.keptAudit, .id id) := by
  have hlaid := laid_forall₂ h
  simp only [Store.HasRow, Store.applyIndexed]
  cases hw : written laid.1 (.keptAudit, .id id) with
  | none =>
      have hnone := written_eq_none.mp hw
      simp only [Option.getD_none]
      refine ⟨.inl, ?_⟩
      rintro (hrow | ⟨c, hc, hplace⟩)
      · exact hrow
      · obtain ⟨c', hc', hsame, -⟩ := forall₂_exists hlaid hc
        exact absurd (hsame.trans hplace) (hnone c' hc')
  | some value =>
      obtain ⟨c', hc', hplace, rfl⟩ := exists_of_written hw
      have hflip : List.Forall₂ (fun c' c : Change => c'.place = c.place ∧
          c'.value.map Content.bare = c.value.map Content.bare) laid.1 w.changes :=
        List.Forall₂.flip hlaid
      obtain ⟨c, hc, hsame, hvalue⟩ := forall₂_exists hflip hc'
      have hrow := hsame.symm.trans hplace
      have hsome := hrows c hc (congrArg Prod.fst hrow)
      have hput : c'.value.isSome := by
        rw [← Option.isSome_map (f := Content.bare), hvalue, Option.isSome_map]
        exact hsome
      exact ⟨fun _ => .inr ⟨c, hc, hrow⟩, fun _ => hput⟩

/-! ## The node -/

namespace Embedded

open Keeper

variable {node : Embedded} {kept id : ℕ} {entries : List AuditEntry} {act : Act} {acts : List Act}

/-- What a step that lays out a write leaves in the node's databases. -/
def Lays (node node' : Embedded) : Option (Standby.Database × Laid) → Prop
  | none => node'.writer.store = node.writer.store ∧ node'.audit = node.audit
  | some (d, laid) =>
      d = 0 ∧ node'.writer.store = node.writer.store.applyIndexed laid.1 laid.2 ∧
          node'.audit = node.audit ∨
        d = 2 ∧ node'.writer.store = node.writer.store ∧
          node'.audit = node.audit.applyIndexed laid.1 laid.2

theorem recover_store (w : Writer) (reads : Bool) : (w.recover reads).store = w.store := by
  unfold Writer.recover
  split
  · split <;> rfl
  · rfl

theorem after_lays (node : Embedded) (act : Act) :
    node.Lays (node.after codec sha digest act) (node.wrote digest act) := by
  have hgroup : ∀ (node' : Embedded) (m : Moment) (ops : List Op),
      node'.writer.store = (node.writer.committed digest m ops).writer.store →
        node'.audit = node.audit →
          node.Lays node' ((node.writer.wrote digest m ops).map (0, ·)) := by
    intro node' m ops hstore haudit
    rw [Writer.committed_store] at hstore
    cases hw : node.writer.wrote digest m ops with
    | none =>
        rw [hw] at hstore
        exact ⟨hstore, haudit⟩
    | some laid =>
        rw [hw] at hstore
        exact .inl ⟨rfl, hstore, haudit⟩
  cases act with
  | step step =>
      cases step with
      | group m ops => exact hgroup _ m ops rfl rfl
      | chunk chunk => exact .inl ⟨rfl, rfl, rfl⟩
      | stream last stream now => exact .inl ⟨rfl, rfl, rfl⟩
      | restart =>
          refine ⟨?_, rfl⟩
          simp only [after, Writer.after, Writer.start]
          cases node.writer.store.get (.sequence, .next) >>= numbered <;> rfl
  | panicked m ops struck reads =>
      cases struck with
      | deciding decided numbered => exact ⟨recover_store _ reads, rfl⟩
      | written => exact hgroup _ m ops (recover_store _ reads) rfl
  | keep most chunk =>
      refine ⟨?_, ?_⟩ <;> simp only [after, keep] <;> split <;> rfl
  | look =>
      refine ⟨congrArg Writer.store look_writer, ?_⟩
      simp only [after, look]
      split
      · split <;> rfl
      · rfl
  | write now =>
      rcases hk : node.keeping with _ | ⟨number, upto, chunk, _ | _ | ⟨next, rest⟩⟩
      · simp [Lays, after, Embedded.write, wrote, hk]
      · simp [Lays, after, Embedded.write, wrote, hk]
      · simp [Lays, after, Embedded.write, wrote, hk]
      · cases hlaid : next.laid node.audit now <;>
          simp [Lays, after, Embedded.write, wrote, hk, EngineWrite.apply_eq, hlaid, Except.map,
            Except.toOption]
  | cut => exact ⟨rfl, rfl⟩

/-- What the keeper has to write after a step that is none of its writes: what it had, or what it
read. -/
theorem after_keeping (hwrite : ∀ now, act ≠ .write now) {keeping : Keeping}
    (hk : (node.after codec sha digest act).keeping = some keeping) {ws : List EngineWrite}
    (hws : keeping.writes = some ws) :
    node.keeping = some keeping ∨ Keeper.writes codec sha keeping.chunk node.writer.store
      node.audit keeping.number = .ok ws := by
  cases act with
  | step step =>
      cases step with
      | group m ops =>
          rcases heard_eq hk with hsame | ⟨hnone, -⟩
          · exact .inl hsame
          · rw [hnone] at hws
            cases hws
      | chunk chunk => exact .inl hk
      | stream last stream now => exact .inl hk
      | restart => cases hk
  | panicked m ops struck reads => exact .inl (Option.filter_eq_some_iff.mp hk).1
  | keep most chunk =>
      simp only [after, keep] at hk
      split at hk
      · split at hk
        · obtain rfl := Option.some.inj hk
          cases hws
        · cases hk
      · exact .inl hk
  | look =>
      simp only [after, look] at hk
      split at hk
      · next number upto chunk hbefore =>
          split at hk
          · next writes hwrites =>
              obtain rfl := Option.some.inj hk
              obtain rfl := Option.some.inj hws
              exact .inr hwrites
          · cases hk
      · exact .inl hk
  | write now => exact absurd rfl (hwrite now)
  | cut => cases hk

/-- A node every record of which it has forgotten has its row in its audit database, and that
writes only of a record without one. -/
structure Forgets (node : Embedded) (kept : ℕ) (entries : List AuditEntry) : Prop where
  sequenced : node.Sequenced kept entries
  rows : ∀ n < kept, ∀ entry, entries[n]? = some entry → node.audit.HasRow entry.id
  keeping : ∀ keeping ws, node.keeping = some keeping → keeping.writes = some ws →
    ∃ entry, entries[keeping.number]? = some entry ∧
      (ws = [] ∧ node.audit.HasRow entry.id ∨
        ¬node.audit.HasRow entry.id ∧ Outstanding entry.id ws)

theorem fresh_forgets : fresh.Forgets 0 [] :=
  ⟨fresh_sequenced, fun n hn => absurd hn (Nat.not_lt_zero n), nofun⟩

variable (digest) in
/-- A write of the keeper's: none, or the next of those of a record that has no row before. -/
theorem Forgets.write (h : node.Forgets kept entries) (now : ℤ) :
    node.wrote digest (.write now) = none ∧ (node.write now).audit = node.audit ∧
        ((node.write now).keeping = none ∨ (node.write now).keeping = node.keeping) ∨
      ∃ number upto chunk next rest entry laid,
        node.wrote digest (.write now) = some (2, laid) ∧
          node.write now = ⟨node.writer, node.audit.applyIndexed laid.1 laid.2,
            some ⟨number, upto, chunk, some rest⟩⟩ ∧
          next.laid node.audit now = .ok laid ∧ entries[number]? = some entry ∧
            ¬node.audit.HasRow entry.id ∧ Outstanding entry.id (next :: rest) := by
  rcases hk : node.keeping with _ | ⟨number, upto, chunk, _ | _ | ⟨next, rest⟩⟩
  · exact .inl (by simp [Embedded.write, wrote, hk])
  · exact .inl (by simp [Embedded.write, wrote, hk])
  · exact .inl (by simp [Embedded.write, wrote, hk])
  · cases hlaid : next.laid node.audit now with
    | error e =>
        exact .inl (by
          simp [Embedded.write, wrote, hk, EngineWrite.apply_eq, hlaid, Except.map,
            Except.toOption])
    | ok laid =>
        obtain ⟨entry, hentry, hpending⟩ := h.keeping _ _ hk rfl
        rcases hpending with ⟨hnil, -⟩ | ⟨hrow, hpending⟩
        · cases hnil
        · refine .inr ⟨number, upto, chunk, next, rest, entry, laid, ?_, ?_, hlaid, hentry, hrow,
            hpending⟩
          · simp [wrote, hk, hlaid, Except.toOption]
          · simp [Embedded.write, hk, EngineWrite.apply_eq, hlaid, Except.map]

/-- No row is taken out. -/
theorem Forgets.row_stays (h : node.Forgets kept entries) (hrow : node.audit.HasRow id) :
    (node.after codec sha digest act).audit.HasRow id := by
  by_cases hwrite : ∃ now, act = .write now
  · obtain ⟨now, rfl⟩ := hwrite
    change (node.write now).audit.HasRow id
    rcases h.write digest now with ⟨-, hsame, -⟩ |
      ⟨number, upto, chunk, next, rest, entry, laid, -, hafter, hlaid, -, -, hpending⟩
    · rwa [hsame]
    · rw [hafter]
      exact (EngineWrite.hasRow hlaid (hpending.rows next (by simp)) id).mpr (.inl hrow)
  · rw [after_audit fun now he => hwrite ⟨now, he⟩]
    exact hrow

/-- What the keeper has still to write after a step. -/
theorem Forgets.keeping_after (h : node.Forgets kept entries) {keeping : Keeping}
    {ws : List EngineWrite} (hk : (node.after codec sha digest act).keeping = some keeping)
    (hws : keeping.writes = some ws) :
    ∃ entry, entries[keeping.number]? = some entry ∧
      (ws = [] ∧ (node.after codec sha digest act).audit.HasRow entry.id ∨
        ¬(node.after codec sha digest act).audit.HasRow entry.id ∧ Outstanding entry.id ws) := by
  by_cases hwrite : ∃ now, act = .write now
  · obtain ⟨now, rfl⟩ := hwrite
    change (node.write now).keeping = some keeping at hk
    change ∃ entry, entries[keeping.number]? = some entry ∧
      (ws = [] ∧ (node.write now).audit.HasRow entry.id ∨
        ¬(node.write now).audit.HasRow entry.id ∧ Outstanding entry.id ws)
    rcases h.write digest now with ⟨-, haudit, hnone | hsame⟩ |
      ⟨number, upto, chunk, next, rest, entry, laid, -, hafter, hlaid, hentry, hrow, hpending⟩
    · rw [hnone] at hk
      cases hk
    · rw [haudit]
      exact h.keeping keeping ws (hsame ▸ hk) hws
    · rw [hafter] at hk ⊢
      obtain rfl := Option.some.inj hk
      obtain rfl := Option.some.inj hws
      have hrows := EngineWrite.hasRow hlaid (hpending.rows next (by simp)) entry.id
      refine ⟨entry, hentry, ?_⟩
      rcases hpending.tail with ⟨rfl, hown⟩ | ⟨hrest, hplain⟩
      · exact .inl ⟨rfl, hrows.mpr (.inr hown)⟩
      · refine .inr ⟨fun hnew => ?_, hrest⟩
        rcases hrows.mp hnew with hold | ⟨c, hc, hplace⟩
        · exact hrow hold
        · exact hplain c hc (congrArg Prod.fst hplace)
  · have hother : ∀ now, act ≠ .write now := fun now he => hwrite ⟨now, he⟩
    rw [after_audit hother]
    rcases after_keeping hother hk hws with hsame | hread
    · exact h.keeping keeping ws hsame hws
    · obtain ⟨entry, hentry, hpending⟩ := writes_outstanding hread
      exact ⟨entry, ((h.sequenced.writer.inSequence.stored _ _).mp hentry).2, hpending⟩

/-- Each step keeps a node's rows. -/
theorem Forgets.after (h : node.Forgets kept entries) (hmakes : node.Makes act)
    (hrecovers : node.Recovers digest act) :
    ∃ kept' more, (node.after codec sha digest act).Forgets kept' (entries ++ more) ∧
      node.recorded digest act = more.zipIdx entries.length := by
  obtain ⟨kept', more, hstep⟩ : ∃ kept' more, Stepped digest node
      (node.after codec sha digest act) act kept kept' entries more :=
    after_stepped h.sequenced hmakes hrecovers
  have hle := h.sequenced.writer.inSequence.le
  have hbefore : ∀ n < kept, ∀ entry, (entries ++ more)[n]? = some entry →
      (node.after codec sha digest act).audit.HasRow entry.id := by
    intro n hn entry hentry
    rw [List.getElem?_append_left (by omega)] at hentry
    exact h.row_stays (h.rows n hn entry hentry)
  refine ⟨kept', more, ⟨hstep.sequenced, ?_, fun keeping ws hk hws => ?_⟩, hstep.recorded⟩
  · rcases hstep.either with rfl | ⟨hasked, rfl⟩
    · exact hbefore
    · intro n hn entry hentry
      by_cases hlt : n < kept
      · exact hbefore n hlt entry hentry
      · obtain rfl : n = kept := by omega
        obtain ⟨keeping, hk, rfl, hwrites⟩ := hmakes.asked n hasked
        obtain ⟨entry', hentry', hpending⟩ := h.keeping keeping [] hk hwrites
        have hin := (List.getElem?_eq_some_iff.mp hentry').1
        rw [List.getElem?_append_left hin, hentry'] at hentry
        obtain rfl := Option.some.inj hentry
        rcases hpending with ⟨-, hrow⟩ | ⟨-, hpending⟩
        · exact h.row_stays hrow
        · exact absurd rfl hpending.ne_nil
  · obtain ⟨entry, hentry, hpending⟩ := h.keeping_after hk hws
    refine ⟨entry, ?_, hpending⟩
    rw [List.getElem?_append_left (List.getElem?_eq_some_iff.mp hentry).1, hentry]

/-- Nothing kept of a record that has its row is written. -/
theorem Forgets.untouched (h : node.Forgets kept entries) (hrow : node.audit.HasRow id)
    {laid : Laid} (hw : node.wrote digest act = some (2, laid)) :
    ∀ c ∈ laid.1, c.place.keptOf ≠ some id := by
  cases act with
  | write now =>
      rcases h.write digest now with ⟨hnone, -⟩ |
        ⟨number, upto, chunk, next, rest, entry, laid', hlaid', -, hlaid, -, hnorow, hpending⟩
      · rw [hnone] at hw
        cases hw
      · obtain rfl : laid' = laid := (Prod.mk.inj (Option.some.inj (hlaid'.symm.trans hw))).2
        intro c hc hid
        have hflip : List.Forall₂ (fun c' c : Change => c'.place = c.place ∧
            c'.value.map Content.bare = c.value.map Content.bare) laid'.1 next.changes :=
          List.Forall₂.flip (EngineWrite.laid_forall₂ hlaid)
        obtain ⟨d, hd, hplace, -⟩ := forall₂_exists hflip hc
        rw [hplace] at hid
        rcases hpending.places next (by simp) d hd with hof | hchain
        · obtain rfl : entry.id = id := Option.some.inj (hof.symm.trans hid)
          exact hnorow hrow
        · rw [Change.place, hchain] at hid
          cases hid
  | step step =>
      cases step with
      | group m ops =>
          obtain ⟨out, -, hout⟩ := Option.map_eq_some_iff.mp hw
          cases (Prod.mk.inj hout).1
      | _ => cases hw
  | panicked m ops struck reads =>
      cases struck with
      | deciding decided numbered => cases hw
      | written =>
          obtain ⟨out, -, hout⟩ := Option.map_eq_some_iff.mp hw
          cases (Prod.mk.inj hout).1
  | _ => cases hw

/-! ## Its runs -/

theorem run_forgets (h : node.Forgets kept entries)
    (hruns : node.Recovering codec sha digest acts) :
    ∃ kept' more, (node.run codec sha digest acts).Forgets kept' (entries ++ more) ∧
      node.recordedOver codec sha digest acts = more.zipIdx entries.length := by
  induction acts generalizing node kept entries with
  | nil => exact ⟨kept, [], by rwa [List.append_nil], rfl⟩
  | cons act acts ih =>
      obtain ⟨kept₁, first, hstep, hfirst⟩ := h.after hruns.head.1 hruns.head.2
      obtain ⟨kept', more, hlast, hmore⟩ := ih hstep hruns.tail
      refine ⟨kept', first ++ more, by rwa [← List.append_assoc], ?_⟩
      rw [recordedOver, hfirst, hmore, List.zipIdx_append, List.length_append]

end Embedded

end XmipPersist
