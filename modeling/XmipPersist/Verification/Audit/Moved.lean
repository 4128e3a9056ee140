import XmipPersist.Verification.Audit.Keeping

/-! # The keeper run to its end

Nothing the keeper writes fails where the Streams its records carry are whole. So from any state
it was cut short in, it moves all that is left.
-/

namespace XmipPersist

variable {digest : Publication → Bytes} {codec : Codec} {sha : Bytes → Bytes} {ledger : Ledger}

/-! ## What is laid out -/

theorem goneEntries_ok {kind : Kind} {key : Key} {searched : Searched} {before : Option Content}
    (hs : Searched.of kind = some searched)
    (hbefore : ∀ content, before = some content → kind.holds key content) :
    ∃ gone, goneEntries searched before = .ok gone := by
  cases before with
  | none => exact ⟨[], rfl⟩
  | some content =>
      have hholds := hbefore content rfl
      cases kind <;> simp only [Searched.of, Option.some.injEq, reduceCtorEq] at hs <;>
        subst hs <;> cases key <;> cases content <;> first | exact hholds.elim | exact ⟨_, rfl⟩

theorem stamped_ok {kind : Kind} {key : Key} {searched : Searched} {before : Option Content}
    {content : Content} {now : ℕ} (hs : Searched.of kind = some searched)
    (hcontent : kind.holds key content)
    (hbefore : ∀ content, before = some content → kind.holds key content) :
    ∃ stamped, searched.stamped content before now = .ok stamped := by
  have hread : ∀ {α : Type} [Form α], (∀ content, kind.holds key content →
      ∃ a : α, content = Form.bytes a) → ∃ a : Option α, decoded before = .ok a := by
    intro α _ hform
    cases hb : before with
    | none => exact ⟨none, rfl⟩
    | some found =>
        obtain ⟨a, rfl⟩ := hform found (hbefore found hb)
        exact ⟨some a, by simp [decoded, Except.map]⟩
  have hstamp : ∀ {α : Type} [Columned α], (∀ content, kind.holds key content →
      ∃ a : α, content = Form.bytes a) → ∃ out, stamp α content before now = .ok out := by
    intro α _ hform
    obtain ⟨a, rfl⟩ := hform content hcontent
    obtain ⟨b, hb⟩ := hread hform
    exact ⟨(Form.bytes (Columned.stamp a now b), Columned.row (Columned.stamp a now b),
      Columned.id (Columned.stamp a now b)), by simp [stamp, hb, bind, Except.bind, pure,
        Except.pure]⟩
  cases kind <;> simp only [Searched.of, Option.some.injEq, reduceCtorEq] at hs <;>
    subst hs <;> refine hstamp fun content hcontent => ?_ <;> cases key <;> cases content <;>
      first | exact hcontent.elim | exact ⟨_, rfl⟩

theorem laidOut_ok {c : Change} {before : Option Content} (now : ℕ) (hc : c.Proper)
    (hbefore : ∀ content, before = some content → c.kind.holds c.key content) :
    ∃ out, laidOut c before now = .ok out := by
  cases hs : Searched.of c.kind with
  | none => exact ⟨(c, []), by simp [laidOut, hs]⟩
  | some searched =>
      obtain ⟨gone, hgone⟩ := goneEntries_ok hs hbefore
      cases hv : c.value with
      | none =>
          exact ⟨(c, gone), by simp [laidOut, hs, hgone, hv, bind, Except.bind, pure, Except.pure]⟩
      | some content =>
          rw [Change.Proper, hv] at hc
          obtain ⟨⟨bytes, row, id⟩, hstamped⟩ :
              ∃ stamped, searched.stamped content before now = .ok stamped :=
            stamped_ok hs hc hbefore
          have hlaid : laidOut c before now = .ok ({ c with value := some bytes },
              gone ++ (entries searched row id).map fun key => (key, some id)) := by
            simp [laidOut, hs, hgone, hv, hstamped, bind, Except.bind, pure, Except.pure]
          exact ⟨_, hlaid⟩

theorem writtenOver_ok {s : Store} (hproper : s.Proper) (now : ℕ) {done cs : List Change}
    (hdone : ∀ c ∈ done, c.Proper) (hcs : ∀ c ∈ cs, c.Proper) :
    ∃ out, writtenOver s.get now done cs = .ok out := by
  induction cs generalizing done with
  | nil => exact ⟨([], []), rfl⟩
  | cons c cs ih =>
      have hc : c.Proper := hcs c (by simp)
      obtain ⟨before, hreplaced, hbefore⟩ : ∃ before, replaced s.get done c = .ok before ∧
          ∀ content, before = some content → c.kind.holds c.key content := by
        unfold replaced
        split
        · exact ⟨none, rfl, fun content h => by cases h⟩
        · cases hw : written done c.place with
          | none => exact ⟨_, hproper.get c.place, fun content h => hproper c.place content h⟩
          | some value =>
              refine ⟨value, rfl, ?_⟩
              rintro content rfl
              obtain ⟨d, hd, hplace, hvalue⟩ := exists_of_written hw
              have hproper := hdone d hd
              rw [Change.Proper, hvalue] at hproper
              obtain ⟨hkind, hkey⟩ := Prod.mk.inj hplace
              rwa [hkind, hkey] at hproper
      obtain ⟨⟨c', entries⟩, hlaid⟩ := laidOut_ok now hc hbefore
      have hdone' : ∀ d ∈ done ++ [c'], d.Proper := by
        intro d hd
        rcases List.mem_append.mp hd with hd | hd
        · exact hdone d hd
        · rw [List.mem_singleton.mp hd]
          exact laidOut_proper hlaid hc
      obtain ⟨⟨rest, more⟩, hrest⟩ := ih hdone' fun d hd => hcs d (by simp [hd])
      exact ⟨(c' :: rest, entries ++ more), by
        simp [writtenOver, hreplaced, hlaid, hrest, bind, Except.bind, pure, Except.pure]⟩

theorem EngineWrite.apply_ok {w : EngineWrite} {audit : Store} (hproper : audit.Proper)
    (hchanges : ∀ c ∈ w.changes, c.Proper) (now : ℤ) :
    ∃ audit', w.apply audit now = .ok audit' := by
  cases w with
  | deferred change => exact ⟨_, rfl⟩
  | indexed cs =>
      have hnone : ∀ c ∈ ([] : List Change), c.Proper := by simp
      obtain ⟨⟨laid, entries⟩, hlaid⟩ := writtenOver_ok hproper (nanos now) hnone hchanges
      rw [EngineWrite.changes] at hlaid
      exact ⟨audit.applyIndexed laid entries, by
        simp [apply, hlaid, bind, Except.bind, pure, Except.pure]⟩

/-! ## A record forgotten -/

section Forgotten

variable {w : Writer} {kept : ℕ} {entries : List AuditEntry} {m : Moment}

theorem Due.settle_of_none {s : Store} {order : Due.Arrangement} {b : Batch}
    (h : Due.heldPlaces b.changes = []) : Due.settle s order b = .ok b := by
  have hnone : order.arrange (Due.heldPlaces b.changes) = [] := by
    have hperm := order.perm (Due.heldPlaces b.changes)
    rw [h] at hperm ⊢
    exact hperm.eq_nil
  rw [Due.settle, hnone]
  rfl

theorem decideEach_kept (hkept : w.store.get (.sequence, .kept) >>= numbered = .ok kept) :
    decideEach digest m (Batch.over' w.store w.next) [.kept kept] =
      ([.ok (.yes true)], ⟨w.store.get, [⟨.audit, .id kept, none⟩,
        ⟨.sequence, .kept, some (.number (kept + 1))⟩], w.next⟩) := by
  have hrun : (forgetKept kept).run (Batch.over' w.store w.next).staged = .ok (true,
      ⟨w.store.get, [⟨.audit, .id kept, none⟩,
        ⟨.sequence, .kept, some (.number (kept + 1))⟩], w.next⟩) := by
    unfold forgetKept
    have hread : (reading fun b => b.read (.sequence, .kept) >>= numbered).run
        (Batch.over' w.store w.next).staged =
          .ok (kept, (Batch.over' w.store w.next).staged) := by
      change (w.store.get (.sequence, .kept) >>= numbered).map _ = _
      rw [hkept]
      rfl
    rw [Decision.run_bind_ok hread, if_neg (by simp)]
    rfl
  have hdone : (Op.decide digest m (.kept kept)).run (Batch.over' w.store w.next).staged = .ok
      (.yes true, ⟨w.store.get, [⟨.audit, .id kept, none⟩,
        ⟨.sequence, .kept, some (.number (kept + 1))⟩], w.next⟩) := Decision.run_bind_ok hrun
  rw [decideEach, hdone]
  rfl

theorem committed_kept (hkept : w.store.get (.sequence, .kept) >>= numbered = .ok kept)
    (hrefused : m.refused = none) :
    w.committed digest m [.kept kept] =
      { writer := ⟨w.store.applyIndexed [⟨.audit, .id kept, none⟩,
          ⟨.sequence, .kept, some (.number (kept + 1))⟩] [], w.next⟩
        answers := [.ok (.yes true)]
        durable := .pending } := by
  have hunsearched : ∀ now, writtenOver w.store.get now [] [⟨.audit, .id kept, none⟩,
      ⟨.sequence, .kept, some (.number (kept + 1))⟩] = .ok ([⟨.audit, .id kept, none⟩,
        ⟨.sequence, .kept, some (.number (kept + 1))⟩], []) := fun now =>
    writtenOver_unsearched (by simp [Searched.of])
  have hlaid : w.laid m ⟨w.store.get, [⟨.audit, .id kept, none⟩,
      ⟨.sequence, .kept, some (.number (kept + 1))⟩], w.next⟩ =
        .ok (w.store.applyIndexed [⟨.audit, .id kept, none⟩,
          ⟨.sequence, .kept, some (.number (kept + 1))⟩] []) := by
    have hsettled : Due.settle w.store m.order ⟨w.store.get, [⟨.audit, .id kept, none⟩,
        ⟨.sequence, .kept, some (.number (kept + 1))⟩], w.next⟩ = .ok ⟨w.store.get,
          [⟨.audit, .id kept, none⟩, ⟨.sequence, .kept, some (.number (kept + 1))⟩], w.next⟩ :=
      Due.settle_of_none rfl
    simp [Writer.laid, Writer.idle, Writer.laying, hsettled, hunsearched, hrefused, bind,
      Except.bind, pure, Except.pure]
  simp [Writer.committed, decideEach_kept hkept, hlaid, Writer.idle]

end Forgotten

/-! ## The keeper's own steps -/

namespace Embedded

open Keeper

section Runs

variable (codec : Codec) (sha : Bytes → Bytes) (digest : Publication → Bytes) (ledger : Ledger)
  (sizes : Set ℕ)

/-- A run of the node whose Ledger keeps whole the Streams its audit records carry, the keeper
keeping bodies in chunks of these sizes. -/
def RunsOver (node : Embedded) (acts : List Act) : Prop :=
  EachStep (after codec sha digest) (fun node act => node.Makes act ∧ node.Recovers digest act ∧
    node.Whole ledger ∧ ∀ most chunk, act = .keep most chunk → chunk ∈ sizes) node acts

/-- A step of the keeper's own. -/
def Act.keepers : Act → Bool
  | .keep _ _ | .look | .write _ | .step (.group _ [.kept _]) => true
  | _ => false

/-- The keeper's own steps from one state of the node to another. -/
structure Goes (node node' : Embedded) (acts : List Act) : Prop where
  keepers : ∀ act ∈ acts, act.keepers = true
  runs : node.RunsOver codec sha digest ledger sizes acts
  run : node.run codec sha digest acts = node'
  recorded : node.recordedOver codec sha digest acts = []

end Runs

variable {sizes : Set ℕ} {node node' node'' : Embedded} {kept : ℕ} {entries : List AuditEntry}
  {moved : List MovedRecord} {act : Act} {acts acts' : List Act}

theorem recordedOver_append : node.recordedOver codec sha digest (acts ++ acts') =
    node.recordedOver codec sha digest acts ++
      (node.run codec sha digest acts).recordedOver codec sha digest acts' := by
  induction acts generalizing node with
  | nil => rfl
  | cons act acts ih =>
      rw [List.cons_append, recordedOver, recordedOver, ih, List.append_assoc]
      rfl

namespace Goes

theorem refl (node : Embedded) : Goes codec sha digest ledger sizes node node [] :=
  ⟨by simp, trivial, rfl, rfl⟩

theorem trans (h : Goes codec sha digest ledger sizes node node' acts)
    (h' : Goes codec sha digest ledger sizes node' node'' acts') :
    Goes codec sha digest ledger sizes node node'' (acts ++ acts') := by
  refine ⟨fun act hact => ?_, h.runs.append ?_, ?_, ?_⟩
  · rcases List.mem_append.mp hact with hact | hact
    · exact h.keepers act hact
    · exact h'.keepers act hact
  · have hruns := h'.runs
    rwa [← h.run] at hruns
  · rw [← h'.run, ← h.run]
    exact List.foldl_append
  · rw [recordedOver_append, h.recorded, h.run, h'.recorded]
    rfl

theorem single (act : Act) (hkeepers : act.keepers = true) (hops : act.ops = [])
    (hwhole : node.Whole ledger)
    (hsizes : ∀ most chunk, act = .keep most chunk → chunk ∈ sizes) :
    Goes codec sha digest ledger sizes node (node.after codec sha digest act) [act] := by
  have hmakes : node.Makes act := ⟨by simp [hops], by simp [hops]⟩
  refine ⟨by simpa, ⟨⟨hmakes, ?_, hwhole, hsizes⟩, trivial⟩, rfl, ?_⟩
  · cases act <;> trivial
  · cases act with
    | step step =>
        cases step with
        | group m ops =>
            have hnone : ops = [] := hops
            subst hnone
            cases hkeepers
        | _ => cases hkeepers
    | panicked m ops struck reads => cases hkeepers
    | _ => rfl

end Goes

theorem look_goes (h : node.Kept codec sha ledger sizes kept entries moved)
    (hwhole : node.Whole ledger) {upto chunk : ℕ}
    (hk : node.keeping = some ⟨kept, upto, chunk, none⟩) :
    ∃ writes,
      node.look codec sha = { node with keeping := some ⟨kept, upto, chunk, some writes⟩ } ∧
      (node.look codec sha).Kept codec sha ledger sizes kept entries moved := by
  have hat : Keeping.At kept node.writer.next ⟨kept, upto, chunk, none⟩ := h.sequenced.keeping _ hk
  have hbound : kept < entries.length := by
    have hnext := h.sequenced.writer.next
    have hlt := hat.2.1
    have hle := hat.2.2
    simp only at hlt hle
    omega
  have hstored := (h.sequenced.writer.inSequence.stored _ _).mpr
    ⟨le_rfl, List.getElem?_eq_getElem hbound⟩
  obtain ⟨writes, hwrites⟩ : ∃ writes, Keeper.writes codec sha chunk node.writer.store node.audit
      kept = .ok writes := by
    by_cases hid : entries[kept].id ∈ movedIds moved
    · obtain ⟨found, hrow⟩ := h.keeps.row_of_moved h.movedTo.nodup hid
      exact ⟨_, Keeper.writes_kept hstored hrow⟩
    · exact ⟨_, Keeper.writes_ok hstored (hwhole _ _ hstored) (h.keeps.no_row hid)
        (h.keeps.head_ok _)⟩
  have hlook : node.look codec sha =
      { node with keeping := some ⟨kept, upto, chunk, some writes⟩ } := by
    simp [Embedded.look, hk, hwrites]
  refine ⟨writes, hlook, ?_⟩
  rw [hlook]
  refine ⟨⟨h.sequenced.writer, ?_⟩, h.keeps, h.movedTo, ?_⟩
  · rintro keeping ⟨⟩
    exact hat
  · rintro keeping ⟨⟩
    refine ⟨(h.keeping _ hk).1, ?_⟩
    rintro _ ⟨⟩
    exact look_doing h hwhole hk hwrites

theorem doing_proper {audit : Store} {entry : AuditEntry} {chunk : ℕ} {next : EngineWrite}
    {rest : List EngineWrite}
    (h : audit.Doing codec sha ledger moved entry chunk (next :: rest)) :
    ∀ c ∈ next.changes, c.Proper := by
  rcases h with ⟨hnil, -⟩ | ⟨-, done, todo, hbeside, hwrites, -⟩
  · cases hnil
  · cases todo with
    | nil =>
        obtain ⟨rfl, -⟩ := List.cons.inj hwrites
        exact fun c hc => proper_of_mem (List.mem_append_right _ hc)
    | cons c todo =>
        obtain ⟨rfl, -⟩ := List.cons.inj hwrites
        have hmem : c ∈ changes codec sha ledger chunk none entry :=
          List.mem_append_left _ (by simp [hbeside])
        simpa [EngineWrite.changes] using proper_of_mem hmem

theorem writes_goes (h : node.Kept codec sha ledger sizes kept entries moved)
    (hwhole : node.Whole ledger) {upto chunk : ℕ} {writes : List EngineWrite}
    (hk : node.keeping = some ⟨kept, upto, chunk, some writes⟩) :
    ∃ acts node' moved', Goes codec sha digest ledger sizes node node' acts ∧
      node'.Kept codec sha ledger sizes kept entries moved' ∧ node'.writer = node.writer ∧
      node'.keeping = some ⟨kept, upto, chunk, some []⟩ := by
  induction writes generalizing node moved with
  | nil => exact ⟨[], node, moved, .refl node, h, rfl, hk⟩
  | cons next rest ih =>
      obtain ⟨entry, -, hdoing⟩ := (h.keeping _ hk).2 _ rfl
      obtain ⟨audit, happly⟩ := EngineWrite.apply_ok h.keeps.proper (doing_proper hdoing) 0
      have hwrite : node.write 0 =
          { node with audit, keeping := some ⟨kept, upto, chunk, some rest⟩ } := by
        simp [Embedded.write, hk, happly]
      have hgoes : Goes codec sha digest ledger sizes node (node.write 0) [.write 0] :=
        .single (.write 0) rfl rfl hwhole (by simp)
      obtain ⟨moved', hkept⟩ := write_kept h 0
      rw [hwrite] at hkept hgoes
      obtain ⟨acts, node', moved'', hrest, hkept', hwriter, hk'⟩ := ih hkept hwhole rfl
      exact ⟨_, node', moved'', hgoes.trans hrest, hkept', hwriter, hk'⟩

theorem kept_goes (h : node.Kept codec sha ledger sizes kept entries moved)
    (hwhole : node.Whole ledger) {upto chunk : ℕ}
    (hk : node.keeping = some ⟨kept, upto, chunk, some []⟩) :
    ∃ acts node' moved', Goes codec sha digest ledger sizes node node' acts ∧
      node'.Kept codec sha ledger sizes (kept + 1) entries moved' ∧ node'.Whole ledger ∧
      node'.keeping = if kept + 1 < upto then some ⟨kept + 1, upto, chunk, none⟩ else none := by
  let m : Moment := ⟨0, 0, .asWritten, none⟩
  have hin := h.sequenced.writer.inSequence
  have hcommitted : node.writer.committed digest m [.kept kept] =
      { writer := ⟨node.writer.store.applyIndexed [⟨.audit, .id kept, none⟩,
          ⟨.sequence, .kept, some (.number (kept + 1))⟩] [], node.writer.next⟩
        answers := [.ok (.yes true)]
        durable := .pending } := committed_kept hin.keptAt rfl
  have hmakes : node.Makes (.step (.group m [.kept kept])) := by
    refine ⟨by simp [Act.ops, Op.Made], fun n hn => ⟨_, hk, ?_, rfl⟩⟩
    have hn : Op.kept n = .kept kept := List.mem_singleton.mp hn
    exact (Op.kept.inj hn).symm
  have hafter : node.after codec sha digest (.step (.group m [.kept kept])) =
      { node with
        writer := ⟨node.writer.store.applyIndexed [⟨.audit, .id kept, none⟩,
          ⟨.sequence, .kept, some (.number (kept + 1))⟩] [], node.writer.next⟩
        keeping := if kept + 1 < upto then some ⟨kept + 1, upto, chunk, none⟩ else none } := by
    simp [Embedded.after, Writer.after, heard, hk, answered, told, hcommitted]
  have hrecorded : node.recorded digest (.step (.group m [.kept kept])) = [] := by
    simp only [recorded, Writer.recorded, decideEach_kept hin.keptAt]
    split <;> rfl
  have hgoes : Goes codec sha digest ledger sizes node
      (node.after codec sha digest (.step (.group m [.kept kept])))
        [.step (.group m [.kept kept])] := by
    refine ⟨by simp [Act.keepers], ⟨⟨hmakes, trivial, hwhole, fun _ _ h => by cases h⟩, trivial⟩,
      rfl, ?_⟩
    rw [recordedOver, hrecorded]
    rfl
  obtain ⟨kept', more, moved', hkept', hmore⟩ :
      ∃ kept' more moved', (node.after codec sha digest (.step (.group m [.kept kept]))).Kept codec
        sha ledger sizes kept' (entries ++ more) moved' ∧
          node.recorded digest (.step (.group m [.kept kept])) = more.zipIdx entries.length :=
    after_kept h hmakes trivial hwhole fun _ _ h => by cases h
  have hnone : more = [] := by
    rw [hrecorded] at hmore
    simpa using hmore.symm
  rw [hafter] at hkept' hgoes
  rw [hnone, List.append_nil] at hkept'
  have hin' := hkept'.sequenced.writer.inSequence
  have hnext : kept' = kept + 1 := by
    have hat := hin'.keptAt
    rw [hkept'.sequenced.writer.proper.get] at hat
    exact (Except.ok.inj hat).symm
  subst hnext
  refine ⟨_, _, moved', hgoes, hkept', fun n entry hentry => ?_, rfl⟩
  obtain ⟨hle, hentry⟩ := (hin'.stored n entry).mp hentry
  have hholds := hwhole n entry ((hin.stored n entry).mpr ⟨Nat.le_of_succ_le hle, hentry⟩)
  have hsame : ∀ p : Place, p.1 = .stream ∨ p.1 = .chunk →
      (node.writer.store.applyIndexed [⟨.audit, .id kept, none⟩,
        ⟨.sequence, .kept, some (.number (kept + 1))⟩] []).get p = node.writer.store.get p := by
    intro p hp
    refine Store.get_applyIndexed_of_ne ?_
    rintro c hc rfl
    rcases List.mem_pair.mp hc with rfl | rfl <;> rcases hp with hp | hp <;> cases hp
  intro stream hstream
  obtain ⟨hrecord, hchunks⟩ := hholds stream hstream
  refine ⟨?_, fun index hindex => ?_⟩
  · exact (hsame _ (.inl rfl)).trans hrecord
  · exact (hsame _ (.inr rfl)).trans (hchunks index hindex)

theorem moves_goes (h : node.Kept codec sha ledger sizes kept entries moved)
    (hwhole : node.Whole ledger) {upto chunk : ℕ}
    (hk : node.keeping = some ⟨kept, upto, chunk, none⟩) :
    ∃ acts node' moved', Goes codec sha digest ledger sizes node node' acts ∧
      node'.Kept codec sha ledger sizes (kept + 1) entries moved' ∧ node'.Whole ledger ∧
      node'.keeping = if kept + 1 < upto then some ⟨kept + 1, upto, chunk, none⟩ else none := by
  obtain ⟨writes, hlook, hlooked⟩ := look_goes h hwhole hk
  have hgoes : Goes codec sha digest ledger sizes node (node.look codec sha) [.look] :=
    .single .look rfl rfl hwhole (by simp)
  rw [hlook] at hlooked hgoes
  obtain ⟨acts, node₁, moved₁, hwrites, hkept₁, hwriter, hk₁⟩ := writes_goes hlooked hwhole rfl
  have hwhole₁ : node₁.Whole ledger := by
    rw [Whole, hwriter]
    exact hwhole
  obtain ⟨acts', node', moved', hforgets, hkept', hwhole', hk'⟩ := kept_goes hkept₁ hwhole₁ hk₁
  exact ⟨_, node', moved', (hgoes.trans hwrites).trans hforgets, hkept', hwhole', hk'⟩

/-- The keeper moves every record up to the last it was to move. -/
theorem keeping_goes (h : node.Kept codec sha ledger sizes kept entries moved)
    (hwhole : node.Whole ledger) {upto chunk : ℕ}
    (hk : node.keeping = some ⟨kept, upto, chunk, none⟩) :
    ∃ acts node' moved', Goes codec sha digest ledger sizes node node' acts ∧
      node'.Kept codec sha ledger sizes upto entries moved' := by
  have hlt : kept < upto := (h.sequenced.keeping _ hk).2.1
  obtain ⟨left, hleft⟩ := Nat.exists_eq_add_of_lt hlt
  induction left generalizing node kept moved with
  | zero =>
      obtain ⟨acts, node', moved', hgoes, hkept', -, -⟩ := moves_goes h hwhole hk
      rw [hleft]
      exact ⟨acts, node', moved', hgoes, hkept'⟩
  | succ left ih =>
      obtain ⟨acts, node₁, moved₁, hgoes, hkept₁, hwhole₁, hk₁⟩ := moves_goes h hwhole hk
      have hmore : kept + 1 < upto := by omega
      rw [if_pos hmore] at hk₁
      obtain ⟨acts', node', moved', hgoes', hkept'⟩ := ih hkept₁ hwhole₁ hk₁ hmore (by omega)
      exact ⟨_, node', moved', hgoes.trans hgoes', hkept'⟩

/-- Started again from any state, and not cut short, the keeper moves all that is left. -/
theorem keep_goes (h : node.Kept codec sha ledger sizes kept entries moved)
    (hwhole : node.Whole ledger) {chunk : ℕ} (hchunk : chunk ∈ sizes)
    (hidle : node.keeping = none) :
    ∃ acts node' moved', Goes codec sha digest ledger sizes node node' acts ∧
      node'.Kept codec sha ledger sizes entries.length entries moved' := by
  have hle := h.sequenced.writer.inSequence.le
  by_cases hlt : kept < entries.length
  · let most := entries.length - kept
    have hkeep : node.keep most chunk =
        { node with keeping := some ⟨kept, entries.length, chunk, none⟩ } := by
      have hupto : min node.writer.next (kept + most) = entries.length := by
        have hnext := h.sequenced.writer.next
        omega
      simp [Embedded.keep, hidle, h.sequenced.writer.inSequence.keptAt, h.sequenced.writer.nextAt,
        hupto, hlt]
    have hgoes : Goes codec sha digest ledger sizes node (node.keep most chunk)
        [.keep most chunk] :=
      .single (.keep most chunk) rfl rfl hwhole fun most' chunk' hsame => by
        obtain ⟨-, rfl⟩ := Act.keep.inj hsame
        exact hchunk
    rw [hkeep] at hgoes
    have hkept : Kept codec sha ledger sizes
        { node with keeping := some ⟨kept, entries.length, chunk, none⟩ } kept entries moved := by
      refine ⟨⟨h.sequenced.writer, ?_⟩, h.keeps, h.movedTo, ?_⟩
      · rintro keeping ⟨⟩
        exact ⟨rfl, hlt, h.sequenced.writer.next.le⟩
      · rintro keeping ⟨⟩
        exact ⟨hchunk, fun _ hlast => by cases hlast⟩
    obtain ⟨acts, node', moved', hgoes', hkept'⟩ := keeping_goes hkept hwhole rfl
    exact ⟨_, node', moved', hgoes.trans hgoes', hkept'⟩
  · obtain rfl : kept = entries.length := by omega
    exact ⟨[], node, moved, .refl node, h⟩

end Embedded

end XmipPersist
