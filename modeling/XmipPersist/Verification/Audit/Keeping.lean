import XmipPersist.Verification.Audit.Rows
import XmipPersist.Verification.Audit.Runs
import XmipPersist.Verification.Index.Range

/-! # The keeper, cut short anywhere

What the audit database holds is what is kept of the records moved, and beside it chunks of
records not kept yet. A record's own write ends it, and until then it is where it was.
-/

namespace XmipPersist

variable {digest : Publication → Bytes} {codec : Codec} {sha : Bytes → Bytes} {ledger : Ledger}

/-! ## What the keeper is to write of a record -/

/-- The changes of a write. -/
def EngineWrite.changes : EngineWrite → List Change
  | .deferred change => [change]
  | .indexed changes => changes

/-- The Streams a record carries are in a store whole, as the Ledger keeps them. -/
def Ledger.Holds (ledger : Ledger) (s : Store) (entry : AuditEntry) : Prop :=
  ∀ stream ∈ entry.carriedStreams,
    s.get (.stream, .id stream) = .ok (some (Form.bytes (ledger.record stream))) ∧
      ∀ index < (ledger.record stream).chunks,
        s.get (.chunk, .pair stream index) = .ok (some (Form.bytes (ledger.chunk stream index)))

theorem decoded_eq_some {α : Type} [Form α] {found : Option Content} {a : α}
    (h : decoded found = .ok (some a)) : found = some (Form.bytes a) := by
  cases found with
  | none => cases h
  | some content =>
      cases hread : Form.fromBytes (α := α) content with
      | error e => simp [decoded, hread, Except.map] at h
      | ok b =>
          simp only [decoded, hread, Except.map, Except.ok.injEq, Option.some.injEq] at h
          rw [Form.bytes_of_fromBytes _ _ hread, h]

namespace Keeper

variable {runtime audit : Store} {entry : AuditEntry} {chunk number : ℕ}

theorem streamKept_ok {stream : ℕ}
    (hrecord : runtime.get (.stream, .id stream) = .ok (some (Form.bytes (ledger.record stream))))
    (hchunks : ∀ index < (ledger.record stream).chunks,
      runtime.get (.chunk, .pair stream index) =
        .ok (some (Form.bytes (ledger.chunk stream index)))) :
    streamKept runtime entry.id stream =
      .ok ((List.range (ledger.record stream).chunks).map fun index =>
        .deferred ⟨.keptAuditStream, .triple entry.id stream index,
          some (Form.bytes (ledger.chunk stream index))⟩, ledger.record stream) := by
  unfold streamKept
  rw [hrecord]
  change ((List.range (ledger.record stream).chunks).mapM _ >>=
    fun chunks => (.ok (chunks, ledger.record stream) :
      Except PersistError (List EngineWrite × StreamRecord))) = _
  rw [mapM_eq_map (g := fun index => .deferred ⟨.keptAuditStream, .triple entry.id stream index,
    some (Form.bytes (ledger.chunk stream index))⟩)]
  · rfl
  · intro index hindex
    rw [hchunks index (List.mem_range.mp hindex)]
    rfl

theorem streamsKept_ok (h : ledger.Holds runtime entry) :
    streamsKept runtime entry =
      .ok (entry.carriedStreams.flatMap fun stream =>
        (List.range (ledger.record stream).chunks).map fun index =>
          .deferred ⟨.keptAuditStream, .triple entry.id stream index,
            some (Form.bytes (ledger.chunk stream index))⟩, streams ledger entry) := by
  have hkept : ∀ stream ∈ entry.carriedStreams, streamKept runtime entry.id stream =
      .ok ((List.range (ledger.record stream).chunks).map fun index =>
        .deferred ⟨.keptAuditStream, .triple entry.id stream index,
          some (Form.bytes (ledger.chunk stream index))⟩, ledger.record stream) :=
    fun stream hstream => streamKept_ok (h stream hstream).1 (h stream hstream).2
  rw [streamsKept, mapM_eq_map hkept]
  simp [bind, Except.bind, pure, Except.pure, List.flatMap_map, streams, Function.comp_def]

theorem bodyKept_eq : bodyKept codec chunk entry =
    ((pieces (max chunk 1) (entry.bodyBytes codec)).mapIdx fun index piece =>
      (⟨.keptAuditBody, .pair entry.id index, some (.body piece)⟩ : Change)).map .deferred := by
  simp [bodyKept, List.mapIdx_eq_zipIdx_map, Function.comp_def]

/-- A record whose identifier is not kept is kept in its chunks, one write each, and its own. -/
theorem writes_ok {head : Option ChainHead}
    (hentry : runtime.get (.audit, .id number) = .ok (some (.audit entry)))
    (hholds : ledger.Holds runtime entry)
    (hrow : audit.get (.keptAudit, .id entry.id) = .ok none)
    (hhead : audit.get (.chain, .name entry.facts.writer) >>= decoded = .ok head) :
    writes codec sha chunk runtime audit number =
      .ok ((beside codec ledger chunk entry).map .deferred ++
        [.indexed (own codec sha ledger chunk head entry)]) := by
  have hlink : link codec sha audit (row codec sha chunk entry) (streams ledger entry) =
      .ok (⟨.chain, .name entry.facts.writer,
        some (Form.bytes (linked codec sha ledger chunk head entry).head)⟩,
        linked codec sha ledger chunk head entry) := by
    unfold link
    change (audit.get (.chain, .name entry.facts.writer) >>= decoded) >>= _ = _
    rw [hhead]
    rfl
  unfold writes
  rw [hentry]
  change (audit.get (.keptAudit, .id entry.id) >>= fun found => _) = _
  rw [hrow]
  change (streamsKept runtime entry >>= fun kept => _) = _
  rw [streamsKept_ok hholds]
  change (link codec sha audit (row codec sha chunk entry) (streams ledger entry) >>= _) = _
  rw [hlink]
  simp [bind, Except.bind, pure, Except.pure, beside, own, bodyKept_eq, List.map_flatMap,
    Function.comp_def]

/-- A record whose identifier is kept is not kept again. -/
theorem writes_kept {found : Content}
    (hentry : runtime.get (.audit, .id number) = .ok (some (.audit entry)))
    (hrow : audit.get (.keptAudit, .id entry.id) = .ok (some found)) :
    writes codec sha chunk runtime audit number = .ok [] := by
  unfold writes
  rw [hentry]
  change (audit.get (.keptAudit, .id entry.id) >>= fun found => _) = _
  rw [hrow]
  rfl

theorem streamKept_plain {stream : ℕ} {kept : List EngineWrite × StreamRecord}
    (h : streamKept runtime entry.id stream = .ok kept) :
    ∀ w ∈ kept.1, ∀ c ∈ w.changes,
      c.kind = .keptAuditStream ∧ c.place.keptOf = some entry.id := by
  simp only [streamKept, bind_eq_ok] at h
  obtain ⟨found, -, h⟩ := h
  cases found with
  | none => cases h
  | some record =>
      simp only [bind_eq_ok] at h
      obtain ⟨chunks, hchunks, h⟩ := h
      obtain rfl := Except.ok.inj h
      intro w hw
      obtain ⟨index, -, hindex⟩ := mem_of_mapM_ok hchunks hw
      simp only [bind_eq_ok] at hindex
      obtain ⟨chunk, -, hindex⟩ := hindex
      cases chunk with
      | none => cases hindex
      | some chunk =>
          obtain rfl := Except.ok.inj hindex
          intro c hc
          obtain rfl := List.mem_singleton.mp hc
          exact ⟨rfl, rfl⟩

theorem streamsKept_plain {kept : List EngineWrite × List StreamRecord}
    (h : streamsKept runtime entry = .ok kept) :
    ∀ w ∈ kept.1, ∀ c ∈ w.changes,
      c.kind = .keptAuditStream ∧ c.place.keptOf = some entry.id := by
  simp only [streamsKept, bind_eq_ok] at h
  obtain ⟨each, heach, h⟩ := h
  obtain rfl := Except.ok.inj h
  intro w hw
  obtain ⟨one, hone, hw⟩ := List.mem_flatMap.mp hw
  obtain ⟨stream, -, hstream⟩ := mem_of_mapM_ok heach hone
  exact streamKept_plain hstream w hw

/-- What the keeper is to write of the record it reads: nothing where its identifier is kept, else
its chunks, and last its row with its chain's head. -/
theorem writes_spec {ws : List EngineWrite}
    (h : writes codec sha chunk runtime audit number = .ok ws) :
    ∃ entry, runtime.get (.audit, .id number) = .ok (some (.audit entry)) ∧
      ((∃ found, audit.get (.keptAudit, .id entry.id) = .ok (some found)) ∧ ws = [] ∨
        audit.get (.keptAudit, .id entry.id) = .ok none ∧ ∃ chunks streams head kept,
          streamsKept runtime entry = .ok (chunks, streams) ∧
          link codec sha audit (row codec sha chunk entry) streams = .ok (head, kept) ∧
          ws = chunks ++ bodyKept codec chunk entry ++ [.indexed (streamRows entry.id streams ++
            [head, ⟨.keptAudit, .id entry.id, some (Form.bytes kept)⟩])]) := by
  simp only [writes, bind_eq_ok] at h
  obtain ⟨read, hread, h⟩ := h
  cases read with
  | none => cases h
  | some entry =>
      obtain ⟨found, hfound, hdecoded⟩ := hread
      have hentry : found = some (Content.audit entry) := decoded_eq_some hdecoded
      refine ⟨entry, by rw [hfound, hentry], ?_⟩
      simp only [bind_eq_ok] at h
      obtain ⟨held, hheld, h⟩ := h
      cases held with
      | some held => exact .inl ⟨⟨held, hheld⟩, (Except.ok.inj h).symm⟩
      | none =>
          simp only [bind_eq_ok] at h
          obtain ⟨⟨chunks, streams⟩, hchunks, ⟨head, kept⟩, hlink, h⟩ := h
          exact .inr ⟨hheld, chunks, streams, head, kept, hchunks, hlink,
            (Except.ok.inj h).symm⟩

end Keeper

/-! ## What one write leaves -/

/-- A write is seen as its changes, the times they are stamped with aside. -/
theorem EngineWrite.apply_view {w : EngineWrite} {audit audit' : Store} {now : ℤ}
    (h : w.apply audit now = .ok audit') : audit'.view = audit.view.after w.changes := by
  cases w with
  | deferred change =>
      obtain rfl := Except.ok.inj h
      exact Store.view_applyIndexed _ _ _
  | indexed changes =>
      simp only [apply, bind_eq_ok] at h
      obtain ⟨⟨laid, indexes⟩, hlaid, h⟩ := h
      obtain rfl := Except.ok.inj h
      rw [Store.view_applyIndexed, View.after_congr (writtenOver_laid hlaid)]
      rfl

theorem EngineWrite.apply_proper {w : EngineWrite} {audit audit' : Store} {now : ℤ}
    (h : w.apply audit now = .ok audit') (hproper : audit.Proper)
    (hchanges : ∀ c ∈ w.changes, c.Proper) : audit'.Proper := by
  cases w with
  | deferred change =>
      obtain rfl := Except.ok.inj h
      exact hproper.applyIndexed hchanges
  | indexed changes =>
      simp only [apply, bind_eq_ok] at h
      obtain ⟨⟨laid, indexes⟩, hlaid, h⟩ := h
      obtain rfl := Except.ok.inj h
      exact hproper.applyIndexed (writtenOver_proper hlaid hchanges)

/-! ## What the audit database holds -/

/-- The identifiers of the records moved. -/
def movedIds (moved : List MovedRecord) : List ℕ := moved.map fun x => x.1.id

section AuditStore

open Keeper

variable (codec : Codec) (sha : Bytes → Bytes) (ledger : Ledger) (sizes : Set ℕ)

/-- The audit database holds all that is kept of the records moved, and beside it only chunks, of
these sizes, of first records. -/
structure Store.Keeps (audit : Store) (entries : List AuditEntry) (moved : List MovedRecord) :
    Prop where
  proper : audit.Proper
  sized : ∀ x ∈ moved, x.2 ∈ sizes
  holds : ∀ p v, keptView codec sha ledger moved p = some v → audit.view p = some v
  only : ∀ p, audit.view p ≠ none → keptView codec sha ledger moved p ≠ none ∨
    ∃ entry ∈ firsts entries, ∃ chunk ∈ sizes, ∃ c ∈ beside codec ledger chunk entry, c.place = p

/-- What the keeper has still to write of a record: nothing, where its identifier is kept, or what
it has not written yet, its own write last. -/
def Store.Doing (audit : Store) (moved : List MovedRecord) (entry : AuditEntry) (chunk : ℕ)
    (writes : List EngineWrite) : Prop :=
  (writes = [] ∧ entry.id ∈ movedIds moved) ∨
    (entry.id ∉ movedIds moved ∧ ∃ done todo, beside codec ledger chunk entry = done ++ todo ∧
      writes = todo.map .deferred ++ [.indexed (own codec sha ledger chunk
        ((keptView codec sha ledger moved).headOf entry.facts.writer) entry)] ∧
      ∀ p value, written done p = some value → audit.view p = value.map Content.bare)

end AuditStore

namespace Store.Keeps

open Keeper

variable {sizes : Set ℕ} {audit audit' : Store} {entries : List AuditEntry}
  {moved : List MovedRecord} {entry : AuditEntry} {chunk : ℕ} {now : ℤ}

theorem empty : Store.Keeps codec sha ledger sizes .empty [] [] where
  proper := Store.empty_proper
  sized x h := nomatch h
  holds p v h := by
    have hnone : (none : Option Content) = some v := h
    cases hnone
  only p h := by simp [Store.view, Store.empty] at h

theorem mono (h : audit.Keeps codec sha ledger sizes entries moved) (more : List AuditEntry) :
    audit.Keeps codec sha ledger sizes (entries ++ more) moved := by
  refine ⟨h.proper, h.sized, h.holds, fun p hp => ?_⟩
  rcases h.only p hp with hkept | ⟨entry, hentry, hrest⟩
  · exact .inl hkept
  · exact .inr ⟨entry, (firsts_append entries more).subset hentry, hrest⟩

/-- A place of a record not moved holds none of what is kept. -/
theorem not_kept {p : Place} (hid : entry.id ∉ movedIds moved) (hp : p.keptOf = some entry.id) :
    keptView codec sha ledger moved p = none := by
  by_contra hne
  rcases keptOf_of_kept hne with ⟨y, hy, hof⟩ | ⟨writer, rfl⟩
  · rw [hp] at hof
    exact hid (List.mem_map.mpr ⟨y, hy, (Option.some.inj hof).symm⟩)
  · cases hp

/-- A place of an own write holds nothing but what is kept. -/
theorem view_eq (h : audit.Keeps codec sha ledger sizes entries moved) {p : Place}
    (hstream : p.1 ≠ .keptAuditStream) (hbody : p.1 ≠ .keptAuditBody) :
    audit.view p = keptView codec sha ledger moved p := by
  cases hv : keptView codec sha ledger moved p with
  | some v => exact h.holds p v hv
  | none =>
      by_contra hne
      rcases h.only p hne with hkept | ⟨entry, -, chunk, -, c, hc, rfl⟩
      · exact hkept hv
      · rcases mem_beside.mp hc with ⟨stream, -, index, -, rfl⟩ | ⟨index, piece, -, rfl⟩
        · exact hstream rfl
        · exact hbody rfl

/-- The head kept of a writer's chain is read as it is. -/
theorem head_ok (h : audit.Keeps codec sha ledger sizes entries moved) (writer : String) :
    audit.get (.chain, .name writer) >>= decoded =
      .ok ((keptView codec sha ledger moved).headOf writer) := by
  have hview := h.view_eq (p := (.chain, .name writer)) (by simp) (by simp)
  rw [h.proper.get, View.headOf, ← hview]
  have hholds := h.proper (.chain, .name writer)
  simp only [Store.view, Kind.seen, if_true]
  cases hr : audit.records (.chain, .name writer) with
  | none => rfl
  | some content =>
      have hchain := hholds content hr
      cases content <;> first | exact hchain.elim | rfl

/-- The row of a record moved is there. -/
theorem row_of_moved (h : audit.Keeps codec sha ledger sizes entries moved)
    (hnodup : (movedIds moved).Nodup) {id : ℕ} (hid : id ∈ movedIds moved) :
    ∃ found, audit.get (.keptAudit, .id id) = .ok (some found) := by
  obtain ⟨x, hx, rfl⟩ := List.mem_map.mp hid
  have has : List.Forall₂ (KeptAs codec sha ledger (keptView codec sha ledger moved)) moved
      (keptLinks codec sha ledger moved) := keptLinks_as hnodup
  obtain ⟨link, -, -, head, -, hkept⟩ := forall₂_exists has hx
  have hrow := hkept _ (List.mem_append_right _ (mem_own.mpr (.inr (.inr rfl)))) rfl
  have hview := h.view_eq (p := (.keptAudit, .id x.1.id)) (by simp) (by simp)
  rw [h.proper.get]
  cases hr : audit.records (.keptAudit, .id x.1.id) with
  | some found => exact ⟨found, rfl⟩
  | none =>
      have hnone : audit.view (.keptAudit, .id x.1.id) = none := by simp [Store.view, hr]
      rw [hview, show (Kind.keptAudit, Key.id x.1.id) = _ from rfl] at hnone
      exact absurd (hnone.symm.trans hrow) (by simp)

/-- The row of one not moved is not. -/
theorem no_row (h : audit.Keeps codec sha ledger sizes entries moved)
    (hid : entry.id ∉ movedIds moved) : audit.get (.keptAudit, .id entry.id) = .ok none := by
  have hview := h.view_eq (p := (.keptAudit, .id entry.id)) (by simp) (by simp)
  rw [not_kept hid rfl] at hview
  rw [h.proper.get]
  cases hr : audit.records (.keptAudit, .id entry.id) with
  | none => rfl
  | some found => simp [Store.view, Kind.seen, hr] at hview

/-- A chunk written beside a first record that is not moved. -/
theorem deferred (h : audit.Keeps codec sha ledger sizes entries moved)
    (hentry : entry ∈ firsts entries) (hid : entry.id ∉ movedIds moved) (hchunk : chunk ∈ sizes)
    {c : Change} (hc : c ∈ beside codec ledger chunk entry)
    (happly : EngineWrite.apply audit now (.deferred c) = .ok audit') :
    audit'.Keeps codec sha ledger sizes entries moved := by
  have hmem : c ∈ changes codec sha ledger chunk none entry := List.mem_append_left _ hc
  have hview := EngineWrite.apply_view happly
  have hof : c.place.keptOf = some entry.id := by
    rcases mem_beside.mp hc with ⟨stream, -, index, -, rfl⟩ | ⟨index, piece, -, rfl⟩ <;> rfl
  have hread : ∀ p, audit'.view p = if c.place = p then c.value.map Content.bare
      else audit.view p := by
    intro p
    rw [hview, EngineWrite.changes, View.after_written (by simpa using seen_of_mem hmem),
      written_cons, written_nil, Option.none_or]
    split <;> rfl
  have hproper : ∀ d ∈ (EngineWrite.deferred c).changes, d.Proper := by
    rintro d hd
    rw [List.mem_singleton.mp hd]
    exact proper_of_mem hmem
  refine ⟨EngineWrite.apply_proper happly h.proper hproper, h.sized, fun p v hv => ?_,
    fun p hp => ?_⟩
  · rw [hread, if_neg, h.holds p v hv]
    rintro rfl
    rw [not_kept hid hof] at hv
    cases hv
  · rw [hread] at hp
    split at hp
    · next heq => exact .inr ⟨entry, hentry, chunk, hchunk, c, hc, heq⟩
    · exact h.only p hp

/-- A record's own write, all its chunks beside it: it is kept. -/
theorem indexed (h : audit.Keeps codec sha ledger sizes entries moved) (hchunk : chunk ∈ sizes)
    (hdone : ∀ p value, written (beside codec ledger chunk entry) p = some value →
      audit.view p = value.map Content.bare)
    (happly : EngineWrite.apply audit now (.indexed (own codec sha ledger chunk
      ((keptView codec sha ledger moved).headOf entry.facts.writer) entry)) = .ok audit') :
    audit'.Keeps codec sha ledger sizes entries (moved ++ [(entry, chunk)]) := by
  have hview := EngineWrite.apply_view happly
  have hproper : ∀ d ∈ (EngineWrite.indexed (own codec sha ledger chunk
      ((keptView codec sha ledger moved).headOf entry.facts.writer) entry)).changes, d.Proper :=
    fun d hd => proper_of_mem (List.mem_append_right _ hd)
  have hseen : ∀ d ∈ own codec sha ledger chunk
      ((keptView codec sha ledger moved).headOf entry.facts.writer) entry, d.kind.seen = true :=
    fun d hd => seen_of_mem (List.mem_append_right _ hd)
  have hown : ∀ p, audit'.view p = ((written (own codec sha ledger chunk
      ((keptView codec sha ledger moved).headOf entry.facts.writer) entry) p).map
        (Option.map Content.bare)).getD (audit.view p) := fun p => by
    rw [hview, EngineWrite.changes, View.after_written hseen]
  have hkept : ∀ p, keptView codec sha ledger (moved ++ [(entry, chunk)]) p =
      ((written (own codec sha ledger chunk
        ((keptView codec sha ledger moved).headOf entry.facts.writer) entry) p).map
          (Option.map Content.bare)).getD
        (((written (beside codec ledger chunk entry) p).map (Option.map Content.bare)).getD
          (keptView codec sha ledger moved p)) := by
    intro p
    rw [keptView_snoc, keptAfter, View.after_written fun d hd => seen_of_mem hd, changes,
      written_append]
    cases written (own codec sha ledger chunk
      ((keptView codec sha ledger moved).headOf entry.facts.writer) entry) p <;> rfl
  refine ⟨EngineWrite.apply_proper happly h.proper hproper, fun x hx => ?_, fun p v hv => ?_,
    fun p hp => ?_⟩
  · rcases List.mem_append.mp hx with hx | hx
    · exact h.sized x hx
    · rw [List.mem_singleton.mp hx]
      exact hchunk
  · rw [hown]
    rw [hkept] at hv
    cases hw : written (own codec sha ledger chunk
        ((keptView codec sha ledger moved).headOf entry.facts.writer) entry) p with
    | some value => simpa [hw] using hv
    | none =>
        rw [hw] at hv
        cases hb : written (beside codec ledger chunk entry) p with
        | some value =>
            rw [hb] at hv
            exact (hdone p value hb).trans hv
        | none =>
            rw [hb] at hv
            exact h.holds p v hv
  · rw [hown] at hp
    rw [hkept]
    cases hw : written (own codec sha ledger chunk
        ((keptView codec sha ledger moved).headOf entry.facts.writer) entry) p with
    | some value =>
        rw [hw] at hp
        exact .inl hp
    | none =>
        rw [hw] at hp
        rcases h.only p hp with hbefore | htried
        · cases hb : written (beside codec ledger chunk entry) p with
          | some value =>
              exact .inl fun hnone => hp ((hdone p value hb).trans hnone)
          | none => exact .inl hbefore
        · exact .inr htried

end Store.Keeps

/-- One chunk more is written beside its record. -/
theorem Store.deferred_done {audit audit' : Store} {now : ℤ} {c : Change} {done : List Change}
    (happly : EngineWrite.apply audit now (.deferred c) = .ok audit') (hseen : c.kind.seen = true)
    (hdone : ∀ p value, written done p = some value → audit.view p = value.map Content.bare) :
    ∀ p value, written (done ++ [c]) p = some value → audit'.view p = value.map Content.bare := by
  intro p value hw
  rw [EngineWrite.apply_view happly, EngineWrite.changes,
    View.after_written (by simpa using hseen), written_cons, written_nil, Option.none_or]
  rw [written_append, written_cons, written_nil, Option.none_or] at hw
  by_cases hp : c.place = p
  · rw [if_pos hp] at hw ⊢
    obtain rfl := Option.some.inj hw
    rfl
  · rw [if_neg hp] at hw ⊢
    exact hdone p value hw

/-! ## The node -/

namespace Embedded

open Keeper

variable {sizes : Set ℕ} {node : Embedded} {kept : ℕ} {entries : List AuditEntry}
  {moved : List MovedRecord} {act : Act} {acts : List Act}

/-- The records moved are the first of their identifiers up to the first not kept, or that one
too, where its own write is made and it is not forgotten yet. -/
def MovedTo (kept : ℕ) (entries : List AuditEntry) (moved : List MovedRecord) : Prop :=
  moved.map Prod.fst = firsts (entries.take kept) ∨
    kept < entries.length ∧ moved.map Prod.fst = firsts (entries.take (kept + 1))

section Kept

variable (codec : Codec) (sha : Bytes → Bytes) (ledger : Ledger) (sizes : Set ℕ)

/-- A node whose audit database holds what is kept of the records moved, its keeper amid one. -/
structure Kept (node : Embedded) (kept : ℕ) (entries : List AuditEntry)
    (moved : List MovedRecord) : Prop where
  sequenced : node.Sequenced kept entries
  keeps : node.audit.Keeps codec sha ledger sizes entries moved
  movedTo : MovedTo kept entries moved
  keeping : ∀ keeping, node.keeping = some keeping → keeping.chunk ∈ sizes ∧
    ∀ writes, keeping.writes = some writes → ∃ entry, entries[keeping.number]? = some entry ∧
      node.audit.Doing codec sha ledger moved entry keeping.chunk writes

/-- The Streams of every record in the runtime database are in it whole. -/
def Whole (node : Embedded) : Prop :=
  ∀ n entry, node.writer.store.get (.audit, .id n) = .ok (some (.audit entry)) →
    ledger.Holds node.writer.store entry

end Kept

theorem movedIds_eq (moved : List MovedRecord) :
    movedIds moved = (moved.map Prod.fst).map AuditEntry.id := by
  simp [movedIds]

/-- The first record not kept, where its identifier is kept: all before it are moved, and it. -/
theorem MovedTo.past (h : MovedTo kept entries moved) {entry : AuditEntry}
    (hentry : entries[kept]? = some entry) (hid : entry.id ∈ movedIds moved) :
    moved.map Prod.fst = firsts (entries.take (kept + 1)) := by
  rcases h with h | ⟨-, h⟩
  · rw [movedIds_eq, h] at hid
    rw [List.take_add_one, hentry, Option.toList_some, firsts_snoc, if_pos hid, h]
  · exact h

/-- The first record not kept, where its identifier is not: it is the first of it. -/
theorem MovedTo.first (h : MovedTo kept entries moved) {entry : AuditEntry}
    (hentry : entries[kept]? = some entry) (hid : entry.id ∉ movedIds moved) :
    firsts (entries.take (kept + 1)) = moved.map Prod.fst ++ [entry] := by
  have hnext : firsts (entries.take (kept + 1)) = if entry.id ∈
      (firsts (entries.take kept)).map AuditEntry.id then firsts (entries.take kept)
      else firsts (entries.take kept) ++ [entry] := by
    rw [List.take_add_one, hentry, Option.toList_some, firsts_snoc]
  rcases h with h | ⟨-, h⟩
  · rw [movedIds_eq, h] at hid
    rw [hnext, if_neg hid, h]
  · rw [movedIds_eq, h, mem_firsts_id, List.mem_map] at hid
    refine absurd ⟨entry, ?_, rfl⟩ hid
    rw [List.take_add_one, hentry]
    simp

/-- Its own write made, it is moved. -/
theorem MovedTo.past_own (h : MovedTo kept entries moved) {entry : AuditEntry}
    (hentry : entries[kept]? = some entry) (hid : entry.id ∉ movedIds moved) (chunk : ℕ) :
    MovedTo kept entries (moved ++ [(entry, chunk)]) := by
  obtain ⟨hlt, -⟩ := List.getElem?_eq_some_iff.mp hentry
  exact .inr ⟨hlt, by rw [h.first hentry hid]; simp⟩

theorem MovedTo.mem_firsts (h : MovedTo kept entries moved) {entry : AuditEntry}
    (hentry : entries[kept]? = some entry) (hid : entry.id ∉ movedIds moved) :
    entry ∈ firsts entries := by
  refine (firsts_take entries (kept + 1)).subset ?_
  rw [h.first hentry hid]
  simp

theorem MovedTo.append (h : MovedTo kept entries moved) (hle : kept ≤ entries.length)
    (more : List AuditEntry) : MovedTo kept (entries ++ more) moved := by
  rcases h with h | ⟨hlt, h⟩
  · exact .inl (by rw [List.take_append_of_le_length hle, h])
  · refine .inr ⟨by rw [List.length_append]; omega, ?_⟩
    rw [List.take_append_of_le_length hlt, h]

/-- Each identifier is moved once. -/
theorem MovedTo.nodup (h : MovedTo kept entries moved) : (movedIds moved).Nodup := by
  rw [movedIds_eq]
  rcases h with h | ⟨-, h⟩ <;> rw [h] <;> exact firsts_nodup _

theorem MovedTo.among (h : MovedTo kept entries moved) :
    moved.map Prod.fst <+: firsts entries := by
  rcases h with h | ⟨-, h⟩ <;> rw [h] <;> exact firsts_take _ _

/-! ### Its steps -/

theorem fresh_kept : fresh.Kept codec sha ledger sizes 0 [] [] :=
  ⟨fresh_sequenced, .empty, .inl rfl, nofun⟩

/-- What the keeper reads of the record it moves, where its Streams are whole. -/
theorem look_doing (h : node.Kept codec sha ledger sizes kept entries moved)
    (hwhole : node.Whole ledger) {keeping : Keeping} (hk : node.keeping = some keeping)
    {writes : List EngineWrite} (hwrites : Keeper.writes codec sha keeping.chunk node.writer.store
      node.audit keeping.number = .ok writes) :
    ∃ entry, entries[keeping.number]? = some entry ∧
      node.audit.Doing codec sha ledger moved entry keeping.chunk writes := by
  obtain ⟨hnumber, hlt, hle⟩ := h.sequenced.keeping keeping hk
  have hnext := h.sequenced.writer.next
  have hbound : keeping.number < entries.length := by omega
  have hentry : entries[keeping.number]? = some entries[keeping.number] :=
    List.getElem?_eq_getElem hbound
  have hstored := (h.sequenced.writer.inSequence.stored _ _).mpr ⟨hnumber.ge, hentry⟩
  generalize entries[keeping.number] = entry at hentry hstored
  refine ⟨entry, hentry, ?_⟩
  by_cases hid : entry.id ∈ movedIds moved
  · obtain ⟨found, hrow⟩ := h.keeps.row_of_moved h.movedTo.nodup hid
    rw [Keeper.writes_kept hstored hrow] at hwrites
    exact .inl ⟨(Except.ok.inj hwrites).symm, hid⟩
  · rw [Keeper.writes_ok hstored (hwhole _ _ hstored) (h.keeps.no_row hid) (h.keeps.head_ok _)]
      at hwrites
    refine .inr ⟨hid, [], _, rfl, (Except.ok.inj hwrites).symm, fun p value hw => ?_⟩
    rw [written_nil] at hw
    cases hw

/-- One write of the keeper's: a chunk beside its record, or the record's own, which is then
moved. -/
theorem write_kept (h : node.Kept codec sha ledger sizes kept entries moved) (now : ℤ) :
    ∃ moved', (node.write now).Kept codec sha ledger sizes kept entries moved' := by
  have hsequenced : (node.write now).Sequenced kept entries :=
    ⟨by rw [write_writer]; exact h.sequenced.writer, by
      rw [write_writer]
      exact fun _ => write_keeping h.sequenced⟩
  cases hk : node.keeping with
  | none =>
      have hsame : node.write now = node := by simp [Embedded.write, hk]
      exact ⟨moved, by rwa [hsame]⟩
  | some keeping =>
      obtain ⟨number, upto, chunk, writes⟩ := keeping
      rcases writes with _ | _ | ⟨next, rest⟩
      · have hsame : node.write now = node := by simp [Embedded.write, hk]
        exact ⟨moved, by rwa [hsame]⟩
      · have hsame : node.write now = node := by simp [Embedded.write, hk]
        exact ⟨moved, by rwa [hsame]⟩
      · have hchunk : chunk ∈ sizes := (h.keeping _ hk).1
        have hnumber : number = kept := (h.sequenced.keeping _ hk).1
        obtain ⟨entry, hentry, hdoing⟩ : ∃ entry, entries[number]? = some entry ∧
            node.audit.Doing codec sha ledger moved entry chunk (next :: rest) :=
          (h.keeping _ hk).2 _ rfl
        rcases hdoing with ⟨hnil, -⟩ | ⟨hid, done, todo, hsplit, hwrites, hdone⟩
        · cases hnil
        · subst hnumber
          cases happly : next.apply node.audit now with
          | error e =>
              have hstopped : node.write now = { node with keeping := none } := by
                simp [Embedded.write, hk, happly]
              exact ⟨moved, by rw [hstopped] at hsequenced ⊢; exact
                ⟨hsequenced, h.keeps, h.movedTo, nofun⟩⟩
          | ok audit =>
              have hwritten : node.write now =
                  { node with audit, keeping := some ⟨number, upto, chunk, some rest⟩ } := by
                simp [Embedded.write, hk, happly]
              rw [hwritten] at hsequenced ⊢
              cases todo with
              | nil =>
                  obtain ⟨rfl, rfl⟩ := List.cons.inj hwrites
                  rw [List.append_nil] at hsplit
                  subst hsplit
                  have hmoved := h.movedTo.past_own hentry hid chunk
                  refine ⟨_, hsequenced, h.keeps.indexed hchunk hdone happly, hmoved, ?_⟩
                  rintro keeping ⟨⟩
                  refine ⟨hchunk, ?_⟩
                  rintro writes ⟨⟩
                  exact ⟨entry, hentry, .inl ⟨rfl, by simp [movedIds]⟩⟩
              | cons c todo =>
                  obtain ⟨rfl, rfl⟩ := List.cons.inj hwrites
                  have hc : c ∈ beside codec ledger chunk entry := by simp [hsplit]
                  have hmem : c ∈ changes codec sha ledger chunk none entry :=
                    List.mem_append_left _ hc
                  have hkeeps := h.keeps.deferred (h.movedTo.mem_firsts hentry hid) hid hchunk hc
                    happly
                  refine ⟨moved, hsequenced, hkeeps, h.movedTo, ?_⟩
                  rintro keeping ⟨⟩
                  refine ⟨hchunk, ?_⟩
                  rintro writes ⟨⟩
                  exact ⟨entry, hentry, .inr ⟨hid, done ++ [c], todo, by simp [hsplit], rfl,
                    Store.deferred_done happly (seen_of_mem hmem) hdone⟩⟩

/-- The records moved once a step is made: one is forgotten only where it is moved. -/
theorem stepped_movedTo (h : node.Kept codec sha ledger sizes kept entries moved)
    (hmakes : node.Makes act) {node' : Embedded} {kept' : ℕ} {more : List AuditEntry}
    (hstep : Stepped digest node node' act kept kept' entries more) :
    MovedTo kept' (entries ++ more) moved := by
  have hle := h.sequenced.writer.inSequence.le
  rcases hstep.either with rfl | ⟨hasked, rfl⟩
  · exact h.movedTo.append hle more
  · obtain ⟨keeping, hk, rfl, hwrites⟩ := hmakes.asked kept hasked
    obtain ⟨entry, hentry, hdoing⟩ := (h.keeping keeping hk).2 [] hwrites
    rcases hdoing with ⟨-, hid⟩ | ⟨-, done, todo, -, hnil, -⟩
    · have hlt := (List.getElem?_eq_some_iff.mp hentry).1
      exact .inl (by rw [List.take_append_of_le_length hlt]; exact h.movedTo.past hentry hid)
    · simp at hnil

/-- A keeper that goes on as it was, or starts on a record with nothing read of it. -/
theorem heard_eq {m : Moment} {ops : List Op} {keeping : Keeping}
    (h : node.heard digest m ops = some keeping) :
    node.keeping = some keeping ∨
      keeping.writes = none ∧
        ∃ before, node.keeping = some before ∧ keeping.chunk = before.chunk := by
  unfold heard at h
  cases hk : node.keeping with
  | none => simp [hk] at h
  | some before =>
      simp only [hk] at h
      split at h
      · unfold told at h
        split at h
        · split at h
          · obtain rfl := Option.some.inj h
            exact .inr ⟨rfl, before, rfl, rfl⟩
          · cases h
        · cases h
      · exact .inl h

/-- What the keeper has to write after a step that is none of its writes. -/
theorem after_doing (h : node.Kept codec sha ledger sizes kept entries moved)
    (hwhole : node.Whole ledger) (hsizes : ∀ most chunk, act = .keep most chunk → chunk ∈ sizes)
    (hwrite : ∀ now, act ≠ .write now) {keeping : Keeping}
    (hk : (node.after codec sha digest act).keeping = some keeping) :
    keeping.chunk ∈ sizes ∧ ∀ writes, keeping.writes = some writes →
      ∃ entry, entries[keeping.number]? = some entry ∧
        node.audit.Doing codec sha ledger moved entry keeping.chunk writes := by
  cases act with
  | step step =>
      cases step with
      | group m ops =>
          rcases heard_eq hk with hsame | ⟨hnone, before, hbefore, hchunk⟩
          · exact h.keeping keeping hsame
          · refine ⟨hchunk ▸ (h.keeping before hbefore).1, fun writes hwrites => ?_⟩
            rw [hnone] at hwrites
            cases hwrites
      | chunk chunk => exact h.keeping keeping hk
      | stream last stream now => exact h.keeping keeping hk
      | restart => cases hk
  | panicked m ops struck reads =>
      exact h.keeping keeping (Option.filter_eq_some_iff.mp hk).1
  | keep most chunk =>
      have hchunk := hsizes most chunk rfl
      simp only [after, keep] at hk
      split at hk
      · split at hk
        · obtain rfl := Option.some.inj hk
          exact ⟨hchunk, nofun⟩
        · cases hk
      · exact h.keeping keeping hk
  | look =>
      simp only [after, look] at hk
      split at hk
      · next number upto chunk hbefore =>
          split at hk
          · next writes hwrites =>
              obtain rfl := Option.some.inj hk
              refine ⟨(h.keeping _ hbefore).1, ?_⟩
              rintro _ ⟨⟩
              exact look_doing h hwhole hbefore hwrites
          · cases hk
      · exact h.keeping keeping hk
  | write now => exact absurd rfl (hwrite now)
  | cut => cases hk

theorem after_audit (hwrite : ∀ now, act ≠ .write now) :
    (node.after codec sha digest act).audit = node.audit := by
  cases act with
  | step step => cases step <;> rfl
  | panicked m ops struck reads => rfl
  | keep most chunk =>
      simp only [after, keep]
      split <;> rfl
  | look =>
      simp only [after, look]
      split
      · split <;> rfl
      · rfl
  | write now => exact absurd rfl (hwrite now)
  | cut => rfl

/-- Each step keeps what is kept of the records moved, and may move one. -/
theorem after_kept (h : node.Kept codec sha ledger sizes kept entries moved)
    (hmakes : node.Makes act) (hrecovers : node.Recovers digest act) (hwhole : node.Whole ledger)
    (hsizes : ∀ most chunk, act = .keep most chunk → chunk ∈ sizes) :
    ∃ kept' more moved', (node.after codec sha digest act).Kept codec sha ledger sizes kept'
      (entries ++ more) moved' ∧ node.recorded digest act = more.zipIdx entries.length := by
  by_cases hwrite : ∃ now, act = .write now
  · obtain ⟨now, rfl⟩ := hwrite
    obtain ⟨moved', hkept⟩ := write_kept h now
    exact ⟨kept, [], moved', by rwa [List.append_nil], rfl⟩
  · have hother : ∀ now, act ≠ .write now := fun now he => hwrite ⟨now, he⟩
    obtain ⟨kept', more, hstep⟩ : ∃ kept' more, Stepped digest node
        (node.after codec sha digest act) act kept kept' entries more :=
      after_stepped h.sequenced hmakes hrecovers
    refine ⟨kept', more, moved, ⟨hstep.sequenced, ?_, stepped_movedTo h hmakes hstep,
      fun keeping hk => ?_⟩, hstep.recorded⟩
    · rw [after_audit hother]
      exact h.keeps.mono more
    · obtain ⟨hchunk, hdoing⟩ := after_doing h hwhole hsizes hother hk
      refine ⟨hchunk, fun writes hwrites => ?_⟩
      obtain ⟨entry, hentry, hdoing⟩ := hdoing writes hwrites
      refine ⟨entry, ?_, by rwa [after_audit hother]⟩
      rw [List.getElem?_append_left (List.getElem?_eq_some_iff.mp hentry).1, hentry]

/-! ### The steps of a node that only audits -/

/-- Whether a step that writes only audit records, or is the keeper's own, is one the node makes,
its bodies kept in chunks of one size. -/
def checkedAct (chunk : ℕ) (node : Embedded) : Act → Bool
  | .step (.group _ ops) => ops.all fun op =>
      match op with
      | .audit _ => true
      | .kept number => node.keeping.any fun k => k.number = number ∧ k.writes.any List.isEmpty
      | _ => false
  | .panicked _ _ _ _ => false
  | .keep _ size => size = chunk
  | _ => true

theorem checked_makes {chunk : ℕ} {act : Act} (h : node.checkedAct chunk act = true) :
    node.Makes act := by
  have hnone : act.ops = [] → node.Makes act := fun hops => ⟨by simp [hops], by simp [hops]⟩
  cases act with
  | step step =>
      cases step with
      | group m ops =>
          have hall := List.all_eq_true.mp h
          refine ⟨fun op hop => ?_, fun number hnumber => ?_⟩
          · have hop := hall op hop
            cases op <;> trivial
          · have hop := hall _ hnumber
            obtain ⟨keeping, hk, hkeeping⟩ := (Option.any_eq_true _ _).mp hop
            obtain ⟨hnumber, hwrites⟩ := of_decide_eq_true hkeeping
            obtain ⟨writes, hsome, hempty⟩ := (Option.any_eq_true _ _).mp hwrites
            exact ⟨keeping, hk, hnumber, hsome.trans (by rw [List.isEmpty_iff.mp hempty])⟩
      | _ => exact hnone rfl
  | panicked m ops struck reads => cases h
  | _ => exact hnone rfl

end Embedded

end XmipPersist
