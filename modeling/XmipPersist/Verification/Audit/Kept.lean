import XmipPersist.Verification.Audit.Moved

/-! # The audit as it is kept

Each identifier is kept once, as its first record said it, in its writer's chain, and a record is
forgotten in the runtime database only once its identifier is kept.
-/

namespace XmipPersist

variable {digest : Publication → Bytes} {codec : Codec} {sha : Bytes → Bytes} {ledger : Ledger}

/-! ## A record as it is kept -/

/-- What a record's facts say of its act: not its place in its chain, nor what the keeper sets of
its body and its time. -/
def AuditFacts.said (facts : AuditFacts) : AuditFacts :=
  { facts with
    position := 0, previous := [], digest := []
    bodyLength := 0, bodyChunks := 0, bodyDigest := [], keptUnixNanos := 0 }

/-- A record moved, kept as its entry said it, as this link of its writer's chain. -/
structure Store.Says (codec : Codec) (sha : Bytes → Bytes) (ledger : Ledger) (audit : Store)
    (entry : AuditEntry) (link : ChainLink) : Prop where
  row : audit.get (.keptAudit, .id entry.id) = .ok (some (.keptAudit link.1))
  carried : link.1.streams = entry.carriedStreams
  facts : link.1.facts.said = entry.facts.said
  bodyLength : link.1.facts.bodyLength = (entry.bodyBytes codec).length
  bodyDigest : link.1.facts.bodyDigest = sha (entry.bodyBytes codec)
  body : ∃ parts : List Bytes, parts.flatten = entry.bodyBytes codec ∧
    parts.length = link.1.facts.bodyChunks ∧ ∀ index part, parts[index]? = some part →
      audit.get (.keptAuditBody, .pair entry.id index) = .ok (some (.body part))
  records : link.2 = entry.carriedStreams.map ledger.record
  streamRow : ∀ stream ∈ entry.carriedStreams,
    audit.get (.keptAuditStreams, .pair entry.id stream) =
      .ok (some (.keptStream ⟨entry.id, ledger.record stream⟩))
  streamChunks : ∀ stream ∈ entry.carriedStreams, ∀ index < (ledger.record stream).chunks,
    audit.get (.keptAuditStream, .triple entry.id stream index) =
      .ok (some (.chunk (ledger.chunk stream index)))

section Said

open Keeper

variable {sizes : Set ℕ} {audit : Store} {entries : List AuditEntry} {moved : List MovedRecord}
  {x : MovedRecord} {link : ChainLink}

/-- A place that holds what is kept of it holds it but for the time it is stamped with. -/
theorem Store.Keeps.get_of_kept (h : audit.Keeps codec sha ledger sizes entries moved)
    {p : Place} {content : Content} (hp : keptView codec sha ledger moved p = some content) :
    ∃ found : Content, audit.get p = .ok (some found) ∧ found.bare = content := by
  have hview := h.holds p content hp
  rw [h.proper.get]
  unfold Store.view at hview
  split at hview
  · obtain ⟨found, hfound, hbare⟩ := Option.map_eq_some_iff.mp hview
    exact ⟨found, by rw [hfound], hbare⟩
  · cases hview

/-- Whether contents are stamped with a time as they are written. -/
def Content.timed : Content → Bool
  | .journey _ | .message _ | .held _ | .keptAudit _ | .administration _ | .secret _ => true
  | _ => false

theorem Content.timed_bare (content : Content) : content.bare.timed = content.timed := by
  cases content <;> rfl

theorem Content.bare_of_not_timed {content : Content} (h : content.timed = false) :
    content.bare = content := by
  cases content <;> first | rfl | cases h

/-- Contents without a time are told by what they are without it. -/
theorem Content.eq_of_bare {found content : Content} (h : found.bare = content.bare)
    (hplain : content.timed = false) : found = content := by
  have hfound : found.timed = false := by rw [← found.timed_bare, h, content.timed_bare, hplain]
  rw [← Content.bare_of_not_timed hfound, h, Content.bare_of_not_timed hplain]

/-- Contents that are a row but for the time it is stamped with. -/
theorem Content.row_of_bare {found : Content} {kept : KeptAudit}
    (h : found.bare = (Content.keptAudit kept).bare) :
    ∃ row : KeptAudit, found = .keptAudit row ∧ kept.timeless = row.timeless := by
  cases found with
  | keptAudit row => exact ⟨row, rfl, (Content.keptAudit.inj h).symm⟩
  | _ => cases h

/-- A record kept as its link is there as its entry said it. -/
theorem Store.Keeps.says (h : audit.Keeps codec sha ledger sizes entries moved)
    (hx : KeptAs codec sha ledger (keptView codec sha ledger moved) x link) :
    ∃ link', audit.Says codec sha ledger x.1 link' ∧ link.Alike link' := by
  obtain ⟨hstreams, head, hlink, hkept⟩ := hx
  have hread : ∀ c ∈ changes codec sha ledger x.2 head x.1, c.place.keptOf = some x.1.id →
      ∀ content, c.value = some content →
        ∃ found : Content, audit.get c.place = .ok (some found) ∧ found.bare = content.bare := by
    intro c hc hid content hvalue
    have hplace := hkept c hc hid
    rw [hvalue] at hplace
    exact h.get_of_kept hplace
  obtain ⟨found, hrow, hbare⟩ := hread _ (List.mem_append_right _ (mem_own.mpr (.inr (.inr rfl))))
    rfl _ rfl
  obtain ⟨kept, rfl, htimeless⟩ := Content.row_of_bare hbare
  have hfacts : kept.timeless.facts = (linked codec sha ledger x.2 head x.1).timeless.facts :=
    congrArg KeptAudit.facts htimeless.symm
  have hparts := pieces_flatten (show 0 < max x.2 1 by omega) (x.1.bodyBytes codec)
  refine ⟨(kept, streams ledger x.1), ⟨hrow, ?_, ?_, ?_, ?_,
    ⟨_, hparts, ?_, fun index part hpart => ?_⟩, rfl, fun stream hstream => ?_,
      fun stream hstream index hindex => ?_⟩, by rw [hlink]; exact htimeless, hstreams⟩
  · exact congrArg KeptAudit.streams htimeless.symm
  · have hkept : kept.timeless.facts.said = kept.facts.said := rfl
    have hlinked : (linked codec sha ledger x.2 head x.1).timeless.facts.said =
        x.1.facts.said := by
      simp only [AuditFacts.said, linked, KeptAudit.linked, KeptAudit.after, KeptAudit.timeless,
        Keeper.row]
    rw [← hkept, hfacts, hlinked]
  · exact congrArg AuditFacts.bodyLength hfacts
  · exact congrArg AuditFacts.bodyDigest hfacts
  · exact (congrArg AuditFacts.bodyChunks hfacts).symm
  · obtain ⟨found, hfound, hbare⟩ := hread _ (List.mem_append_left _
      (mem_beside.mpr (.inr ⟨index, part, hpart, rfl⟩))) rfl _ rfl
    rwa [Content.eq_of_bare hbare rfl] at hfound
  · obtain ⟨found, hfound, hbare⟩ := hread _ (List.mem_append_right _
      (mem_own.mpr (.inl ⟨stream, hstream, rfl⟩))) rfl _ rfl
    rwa [Content.eq_of_bare hbare rfl] at hfound
  · obtain ⟨found, hfound, hbare⟩ := hread _ (List.mem_append_left _
      (mem_beside.mpr (.inl ⟨stream, hstream, index, hindex, rfl⟩))) rfl _ rfl
    rwa [Content.eq_of_bare hbare rfl] at hfound

theorem ChainLink.Alike.writer {link link' : ChainLink} (h : link.Alike link') :
    link.1.facts.writer = link'.1.facts.writer :=
  congrArg (·.facts.writer) h.1

theorem ChainLink.Alike.head {link link' : ChainLink} (h : link.Alike link') :
    link.1.head = link'.1.head := by
  have hposition : link.1.facts.position = link'.1.facts.position :=
    congrArg (·.facts.position) h.1
  have hdigest : link.1.facts.digest = link'.1.facts.digest := congrArg (·.facts.digest) h.1
  rw [KeptAudit.head, KeptAudit.head, hposition, hdigest]

/-- Links alike to a chain's are a chain. -/
theorem Chained.alike {links links' : List ChainLink} (h : Chained codec sha links)
    (halike : List.Forall₂ ChainLink.Alike links links') : Chained codec sha links' := by
  refine h.forall₂ halike fun before before' link link' hbefore hlink hfollows => ?_
  have hfacts : ∀ {α : Type} (f : AuditFacts → α), (∀ facts : AuditFacts,
      f { facts with keptUnixNanos := 0 } = f facts) → f link.1.facts = f link'.1.facts := by
    intro α f hf
    rw [← hf, ← hf link'.1.facts]
    exact congrArg (fun kept : KeptAudit => f kept.facts) hlink.1
  have hlast : before.map (·.1.head) = before'.map (·.1.head) := by
    cases hbefore with
    | none => rfl
    | some hlast => simp [hlast.head]
  have hposition : before.map (·.1.facts.position) = before'.map (·.1.facts.position) := by
    have hmap := congrArg (Option.map ChainHead.position) hlast
    rwa [Option.map_map, Option.map_map] at hmap
  have hdigest : before.map (·.1.facts.digest) = before'.map (·.1.facts.digest) := by
    have hmap := congrArg (Option.map ChainHead.digest) hlast
    rwa [Option.map_map, Option.map_map] at hmap
  refine ⟨?_, ?_, ?_, ?_⟩
  · rw [← hfacts AuditFacts.position fun _ => rfl, hfollows.position, hposition]
  · rw [← hfacts AuditFacts.previous fun _ => rfl, hfollows.previous, hdigest]
  · rw [← hfacts AuditFacts.digest fun _ => rfl, hfollows.digest, ← chainDigest_timeless,
      hlink.1, chainDigest_timeless, hlink.2]
  · rw [← hlink.2, ← hfollows.carries]
    exact (congrArg KeptAudit.streams hlink.1).symm

theorem chainHead_alike {links links' : List ChainLink}
    (halike : List.Forall₂ ChainLink.Alike links links') : chainHead links = chainHead links' := by
  have hlast := Linked.rel_getLast? halike
  rw [chainHead, chainHead]
  generalize links.getLast? = last at hlast
  generalize links'.getLast? = last' at hlast
  cases hlast with
  | none => rfl
  | some hlast => simp [hlast.head]

/-- Where what relates two elements parts at a third, what relates two lists does. -/
theorem forall₂_parted {α β γ : Type} {R : α → β → Prop} {P : α → γ → Prop} {Q : β → γ → Prop}
    {xs : List α} {ys : List β} (h : List.Forall₂ R xs ys)
    (hparts : ∀ a b, R a b → ∃ c, P a c ∧ Q b c) :
    ∃ zs, List.Forall₂ P xs zs ∧ List.Forall₂ Q ys zs := by
  induction h with
  | nil => exact ⟨[], .nil, .nil⟩
  | cons hab _ ih =>
      obtain ⟨c, hac, hbc⟩ := hparts _ _ hab
      obtain ⟨zs, hxs, hys⟩ := ih
      exact ⟨c :: zs, .cons hac hxs, .cons hbc hys⟩

/-- What is in the audit database of the records kept. -/
structure Store.AuditKept (codec : Codec) (sha : Bytes → Bytes) (ledger : Ledger) (audit : Store)
    (kept : List AuditEntry) (links : List ChainLink) : Prop where
  once : ∀ id, (∃ row, audit.get (.keptAudit, .id id) = .ok (some row)) ↔
    id ∈ kept.map AuditEntry.id
  said : List.Forall₂ (audit.Says codec sha ledger) kept links
  chained : ∀ writer, Chained codec sha
    (links.filter fun link => link.1.facts.writer = writer)
  numbered : ∀ writer, (links.filter fun link => link.1.facts.writer = writer).map
    (·.1.facts.position) =
      List.range' 1 (links.filter fun link => link.1.facts.writer = writer).length
  head : ∀ writer, audit.get (.chain, .name writer) >>= decoded =
    .ok (chainHead (links.filter fun link => link.1.facts.writer = writer))

theorem Store.Keeps.auditKept (h : audit.Keeps codec sha ledger sizes entries moved)
    (hnodup : (movedIds moved).Nodup) :
    ∃ links, audit.AuditKept codec sha ledger (moved.map Prod.fst) links := by
  have has : List.Forall₂ (KeptAs codec sha ledger (keptView codec sha ledger moved)) moved
      (keptLinks codec sha ledger moved) := keptLinks_as hnodup
  obtain ⟨links, hsaid, halike⟩ := forall₂_parted has fun x link hx => h.says hx
  have hfiltered : ∀ writer, List.Forall₂ ChainLink.Alike (chainOf codec sha ledger moved writer)
      (links.filter fun link => link.1.facts.writer = writer) := fun writer => by
    refine List.rel_filter (fun link link' hlink => ?_) halike
    simp [hlink.writer]
  have hchained : ∀ writer, Chained codec sha
      (links.filter fun link => link.1.facts.writer = writer) := fun writer =>
    Chained.alike (chainOf_chained writer) (hfiltered writer)
  refine ⟨links, fun id => ?_, List.forall₂_map_left_iff.mpr hsaid, hchained,
    fun writer => (hchained writer).positions, fun writer => ?_⟩
  · have hids : (moved.map Prod.fst).map AuditEntry.id = movedIds moved := by
      simp [movedIds]
    rw [hids]
    constructor
    · rintro ⟨row, hrow⟩
      by_contra hid
      have hgone : audit.get (.keptAudit, .id id) = .ok none :=
        h.no_row (show AuditEntry.id { id } ∉ movedIds moved from hid)
      cases hrow.symm.trans hgone
    · exact fun hid => h.row_of_moved hnodup hid
  · rw [h.head_ok writer, headOf_kept, chainHead_alike (hfiltered writer)]

end Said

/-! ## Bodies in chunks of one size -/

section OneSize

open Keeper

variable {chunk : ℕ} {sizes : Set ℕ} {audit audit' : Store} {entries entries' : List AuditEntry}
  {moved moved' : List MovedRecord} {kept : ℕ} {p : Place} {id : ℕ}

/-- What is kept of a record is not touched by those kept after it. -/
theorem keptView_append (hp : p.keptOf = some id) {rest : List MovedRecord}
    (hrest : id ∉ movedIds rest) :
    keptView codec sha ledger (moved ++ rest) p = keptView codec sha ledger moved p := by
  induction rest using List.reverseRecOn with
  | nil => rw [List.append_nil]
  | append_singleton rest x ih =>
      have hbefore : id ∉ movedIds rest := fun h => hrest (by simp [movedIds] at h ⊢; exact .inl h)
      have hother : x.1.id ≠ id := fun h => hrest (by simp [movedIds, h])
      rw [← List.append_assoc, keptView_snoc, keptAfter_of_not_mem, ih hbefore]
      rintro c hc rfl
      rcases keptOf_of_mem hc with hid | hchain
      · rw [hp] at hid
        exact hother (Option.some.inj hid).symm
      · rw [hchain] at hp
        cases hp

/-- Beside the places of a record kept there are none of its chunks but its own. -/
theorem Store.Keeps.view_kept (h : audit.Keeps codec sha ledger {chunk} entries moved)
    (hmoved : Embedded.MovedTo kept entries moved) (hp : p.keptOf = some id)
    (hid : id ∈ movedIds moved) : audit.view p = keptView codec sha ledger moved p := by
  cases hv : keptView codec sha ledger moved p with
  | some v => exact h.holds p v hv
  | none =>
      by_contra hne
      rcases h.only p hne with hkept | ⟨entry, hentry, size, hsize, c, hc, rfl⟩
      · exact hkept hv
      · obtain rfl : size = chunk := hsize
        obtain ⟨x, hx, hxid⟩ := List.mem_map.mp hid
        have hof : c.place.keptOf = some entry.id := by
          rcases mem_beside.mp hc with ⟨stream, -, index, -, rfl⟩ | ⟨index, piece, -, rfl⟩ <;> rfl
        have hsame : entry = x.1 := by
          refine List.inj_on_of_nodup_map (firsts_nodup entries) hentry
            (hmoved.among.subset (List.mem_map.mpr ⟨x, hx, rfl⟩)) ?_
          rw [hof] at hp
          exact (Option.some.inj hp).trans hxid.symm
        have has : List.Forall₂ (KeptAs codec sha ledger (keptView codec sha ledger moved)) moved
            (keptLinks codec sha ledger moved) := keptLinks_as hmoved.nodup
        obtain ⟨link, -, -, head, -, hplaces⟩ := forall₂_exists has hx
        have hone : x.2 = size := h.sized x hx
        have hmem : c ∈ changes codec sha ledger x.2 head x.1 :=
          List.mem_append_left _ (by rw [hone, ← hsame]; exact hc)
        have hkept := hplaces c hmem (by rw [hof, hsame])
        rw [hv] at hkept
        rcases mem_beside.mp hc with ⟨stream, -, index, -, rfl⟩ | ⟨index, piece, -, rfl⟩ <;>
          cases hkept

/-- Of records kept in chunks of one size, those kept of fewer come first among those of more. -/
theorem moved_before (h : audit.Keeps codec sha ledger {chunk} entries moved)
    (h' : audit'.Keeps codec sha ledger {chunk} entries' moved')
    (hmoved : moved.map Prod.fst <+: moved'.map Prod.fst) : moved <+: moved' := by
  have hall : ∀ {a : Store} {es : List AuditEntry} {ms : List MovedRecord},
      a.Keeps codec sha ledger {chunk} es ms → (ms.map Prod.fst).map (·, chunk) = ms := by
    intro a es ms hkeeps
    have hone : ∀ x ∈ ms, (x.1, chunk) = x := fun x hx => Prod.ext rfl (hkeeps.sized x hx).symm
    rw [List.map_map]
    exact (List.map_congr_left hone).trans (List.map_id ms)
  rw [← hall h, ← hall h']
  exact hmoved.map _

/-- What is kept of a record is the same wherever it is kept in chunks of one size. -/
theorem Store.Keeps.alike {kept' : ℕ} (h : audit.Keeps codec sha ledger {chunk} entries moved)
    (h' : audit'.Keeps codec sha ledger {chunk} entries' moved')
    (hmoved : Embedded.MovedTo kept entries moved)
    (hmoved' : Embedded.MovedTo kept' entries' moved')
    (hleads : moved.map Prod.fst <+: moved'.map Prod.fst) :
    (∀ p id, p.keptOf = some id → id ∈ movedIds moved → audit.view p = audit'.view p) ∧
      ((∀ id ∈ movedIds moved', id ∈ movedIds moved) →
        ∀ writer, audit.view (.chain, .name writer) = audit'.view (.chain, .name writer)) := by
  obtain ⟨rest, rfl⟩ := moved_before h h' hleads
  have hnodup := hmoved'.nodup
  rw [movedIds, List.map_append, List.nodup_append] at hnodup
  constructor
  · intro p id hp hid
    have hboth : id ∈ movedIds (moved ++ rest) := by
      rw [movedIds, List.map_append]
      exact List.mem_append_left _ hid
    have hrest : id ∉ movedIds rest := fun hrest => hnodup.2.2 id hid id hrest rfl
    rw [h.view_kept hmoved hp hid, h'.view_kept hmoved' hp hboth, keptView_append hp hrest]
  · intro hall writer
    have hnone : rest = [] := by
      rw [List.eq_nil_iff_forall_not_mem]
      intro x hx
      have hid : x.1.id ∈ movedIds rest := List.mem_map.mpr ⟨x, hx, rfl⟩
      refine hnodup.2.2 _ (hall _ ?_) _ hid rfl
      rw [movedIds, List.map_append]
      exact List.mem_append_right _ hid
    subst hnone
    rw [List.append_nil] at h'
    rw [h.view_eq (by simp) (by simp), h'.view_eq (by simp) (by simp)]

end OneSize

/-! ## Runs of the node -/

namespace Embedded

open Keeper

section Audited

variable (codec : Codec) (sha : Bytes → Bytes) (ledger : Ledger)

/-- The audit of a node that numbered these records: so many of the first of each identifier are
kept, and every record whose identifier is not is still in the runtime database. -/
structure AuditIn (node : Embedded) (recorded kept : List AuditEntry) (links : List ChainLink) :
    Prop where
  firsts : kept <+: firsts recorded
  audit : node.audit.AuditKept codec sha ledger kept links
  left : ∀ n entry, recorded[n]? = some entry → entry.id ∉ kept.map AuditEntry.id →
    node.writer.store.get (.audit, .id n) = .ok (some (.audit entry))

end Audited

variable {sizes : Set ℕ} {node : Embedded} {kept : ℕ} {entries : List AuditEntry}
  {moved : List MovedRecord} {acts : List Act}

theorem run_kept (h : node.Kept codec sha ledger sizes kept entries moved)
    (hruns : node.RunsOver codec sha digest ledger sizes acts) :
    ∃ kept' more moved',
      (node.run codec sha digest acts).Kept codec sha ledger sizes kept' (entries ++ more) moved' ∧
        node.recordedOver codec sha digest acts = more.zipIdx entries.length := by
  induction acts generalizing node kept entries moved with
  | nil => exact ⟨kept, [], moved, by rwa [List.append_nil], rfl⟩
  | cons act acts ih =>
      obtain ⟨hmakes, hrecovers, hwhole, hsizes⟩ := hruns.head
      obtain ⟨kept₁, first, moved₁, hkept₁, hfirst⟩ := after_kept h hmakes hrecovers hwhole hsizes
      obtain ⟨kept', more, moved', hlast, hmore⟩ := ih hkept₁ hruns.tail
      refine ⟨kept', first ++ more, moved', by rwa [← List.append_assoc], ?_⟩
      rw [recordedOver, hfirst, hmore, List.zipIdx_append, List.length_append]

/-- A run of the node from nothing keeps the records it numbered. -/
theorem fresh_run_kept (hruns : fresh.RunsOver codec sha digest ledger sizes acts) :
    ∃ kept moved, (fresh.run codec sha digest acts).Kept codec sha ledger sizes kept
      ((fresh.recordedOver codec sha digest acts).map Prod.fst) moved := by
  obtain ⟨kept, entries, moved, h, hrecorded⟩ := run_kept fresh_kept hruns
  refine ⟨kept, moved, ?_⟩
  rw [hrecorded, List.zipIdx_map_fst]
  exact h

theorem Kept.auditIn (h : node.Kept codec sha ledger sizes kept entries moved) :
    ∃ links, node.AuditIn codec sha ledger entries (moved.map Prod.fst) links := by
  obtain ⟨links, hlinks⟩ := h.keeps.auditKept h.movedTo.nodup
  refine ⟨links, h.movedTo.among, hlinks, fun n entry hentry hid => ?_⟩
  refine (h.sequenced.writer.inSequence.stored n entry).mpr ⟨?_, hentry⟩
  -- a record before the first not kept has its identifier kept
  by_contra hlt
  rw [not_le] at hlt
  have hmem : entry.id ∈ (entries.take kept).map AuditEntry.id := by
    refine List.mem_map.mpr ⟨entry, List.mem_of_getElem? (i := n) ?_, rfl⟩
    rw [List.getElem?_take_of_lt hlt, hentry]
  have hfirst := mem_firsts_id.mpr hmem
  rcases h.movedTo with hmoved | ⟨-, hmoved⟩
  · rw [hmoved] at hid
    exact hid hfirst
  · rw [hmoved] at hid
    refine hid (mem_firsts_id.mpr ?_)
    rw [List.take_add_one, List.map_append]
    exact List.mem_append_left _ hmem

/-- A node none of whose records are left to move has kept the first of every identifier. -/
theorem Kept.all (h : node.Kept codec sha ledger sizes entries.length entries moved) :
    moved.map Prod.fst = firsts entries := by
  rcases h.movedTo with hmoved | ⟨hlt, -⟩
  · rw [hmoved, List.take_length]
  · exact absurd hlt (lt_irrefl _)

/-- Two audit databases hold the same of every record kept in both, the keeper's time aside, and
the same chain heads where the same records are kept. -/
structure SameKept (audit audit' : Store) : Prop where
  rows : ∀ p id row row', p.keptOf = some id → audit.get (.keptAudit, .id id) = .ok (some row) →
    audit'.get (.keptAudit, .id id) = .ok (some row') → audit.view p = audit'.view p
  heads : (∀ id, (∃ row, audit.get (.keptAudit, .id id) = .ok (some row)) ↔
    ∃ row, audit'.get (.keptAudit, .id id) = .ok (some row)) →
      ∀ writer, audit.view (.chain, .name writer) = audit'.view (.chain, .name writer)

theorem SameKept.symm {audit audit' : Store} (h : SameKept audit audit') :
    SameKept audit' audit :=
  ⟨fun p id row row' hp hrow hrow' => (h.rows p id row' row hp hrow' hrow).symm,
    fun hsame writer => (h.heads (fun id => (hsame id).symm) writer).symm⟩

/-- Of two nodes that numbered the same records, or one of them more, and keep bodies in chunks of
one size, the audit databases are the same as far as both have come. -/
theorem Kept.same {chunk kept' : ℕ} {node' : Embedded} {entries' : List AuditEntry}
    {moved' : List MovedRecord} (h : node.Kept codec sha ledger {chunk} kept entries moved)
    (h' : node'.Kept codec sha ledger {chunk} kept' entries' moved')
    (hentries : entries <+: entries' ∨ entries' <+: entries) :
    SameKept node.audit node'.audit := by
  have hrow : ∀ {n : Embedded} {k : ℕ} {es : List AuditEntry} {ms : List MovedRecord},
      n.Kept codec sha ledger {chunk} k es ms → ∀ id,
        (∃ row, n.audit.get (.keptAudit, .id id) = .ok (some row)) ↔ id ∈ movedIds ms := by
    intro n k es ms hkept id
    obtain ⟨links, hlinks⟩ := hkept.keeps.auditKept hkept.movedTo.nodup
    rw [hlinks.once id, movedIds_eq]
  have hall : ∃ all, firsts entries <+: all ∧ firsts entries' <+: all := by
    rcases hentries with ⟨more, rfl⟩ | ⟨more, rfl⟩
    · exact ⟨_, firsts_append entries more, List.prefix_rfl⟩
    · exact ⟨_, List.prefix_rfl, firsts_append entries' more⟩
  obtain ⟨all, hall, hall'⟩ := hall
  rcases List.prefix_or_prefix_of_prefix (h.movedTo.among.trans hall)
    (h'.movedTo.among.trans hall') with hleads | hleads
  · obtain ⟨hrows, hheads⟩ := h.keeps.alike h'.keeps h.movedTo h'.movedTo hleads
    refine ⟨fun p id row row' hp hid _ => hrows p id hp ((hrow h id).mp ⟨row, hid⟩),
      fun hsame => hheads fun id hid => ?_⟩
    exact (hrow h id).mp ((hsame id).mpr ((hrow h' id).mpr hid))
  · obtain ⟨hrows, hheads⟩ := h'.keeps.alike h.keeps h'.movedTo h.movedTo hleads
    refine SameKept.symm ⟨fun p id row row' hp hid _ => hrows p id hp ((hrow h' id).mp ⟨row, hid⟩),
      fun hsame => hheads fun id hid => ?_⟩
    exact (hrow h' id).mp ((hsame id).mpr ((hrow h id).mpr hid))

/-- Whether it is over a Ledger that keeps whole the Streams of the records there, too. -/
def checked (ledger : Ledger) (chunk : ℕ) (node : Embedded) (act : Act) : Bool :=
  node.checkedAct chunk act && (List.range node.writer.next).all fun n =>
    match node.writer.store.get (.audit, .id n) with
    | .ok (some (.audit entry)) => entry.carriedStreams.all fun stream =>
        (node.writer.store.get (.stream, .id stream) =
          .ok (some (Form.bytes (ledger.record stream))) : Bool) &&
        (List.range (ledger.record stream).chunks).all fun index =>
          node.writer.store.get (.chunk, .pair stream index) =
            .ok (some (Form.bytes (ledger.chunk stream index)))
    | _ => true

theorem checked_runs {chunk : ℕ} (h : node.Sequenced kept entries)
    (hchecked : EachStep (after codec sha digest) (fun node act => node.checked ledger chunk act)
      node acts) : node.RunsOver codec sha digest ledger {chunk} acts := by
  induction acts generalizing node kept entries with
  | nil => trivial
  | cons act acts ih =>
      have hact := hchecked.head
      simp only [checked, Bool.and_eq_true] at hact
      obtain ⟨hmade, hwhole⟩ := hact
      have hmakes : node.Makes act := checked_makes hmade
      have hrecovers : node.Recovers digest act := by
        cases act with
        | panicked m ops struck reads => cases hmade
        | _ => trivial
      obtain ⟨kept', more, hstep⟩ : ∃ kept' more, Stepped digest node
          (node.after codec sha digest act) act kept kept' entries more :=
        after_stepped h hmakes hrecovers
      refine ⟨⟨hmakes, hrecovers, fun n entry hentry => ?_, ?_⟩, ih hstep.sequenced hchecked.tail⟩
      · have hlt : n < node.writer.next := ((h.writer.stored n).mp ⟨entry, hentry⟩).2
        have hn := List.all_eq_true.mp hwhole n (List.mem_range.mpr hlt)
        simp only [hentry, List.all_eq_true, Bool.and_eq_true, decide_eq_true_eq,
          List.mem_range] at hn
        exact hn
      · rintro most size rfl
        exact of_decide_eq_true hmade

/-- A Ledger that keeps one Stream, in one chunk. -/
def oneStream : Ledger where
  record stream := ⟨stream, 3, 1, [], 0⟩
  chunk stream index := ⟨stream, index, [1, 2, 3]⟩
  record_stream _ := rfl

/-- Records of two writers, one with a Stream and one of an identifier written before; the keeper
cut short amid the first and before it is forgotten, and run again to the second. -/
def cutShort : List Act :=
  let at' (now : ℤ) : Moment := ⟨now, 3, .asWritten, none⟩
  [.step (.stream (oneStream.chunk 7 0) (oneStream.record 7) 0),
    .step (.group (at' 0)
      [.audit { id := 1, audited := some ⟨[], [7]⟩, facts := { writer := "a" } },
      .audit { id := 2, body := [6], facts := { writer := "b" } }]),
    .step (.group (at' 1) [.audit { id := 1, facts := { writer := "b" } }]),
    .keep 10 16, .look, .write 2, .cut,
    .keep 10 16, .look] ++ List.replicate 4 (.write 3) ++
    [.cut, .keep 10 16, .look, .step (.group (at' 4) [.kept 0]), .look] ++
    List.replicate 2 (.write 5) ++ [.step (.group (at' 6) [.kept 1])]

/-- What a run of the node from nothing keeps: so many of the first records of each identifier, each
as its entry said it and in its writer's chain, the others still where they were; all of them, cut
short and run again; and with one chunk size the same as any other run that numbered them. -/
structure RunKeeps (codec : Codec) (sha : Bytes → Bytes) (digest : Publication → Bytes)
    (ledger : Ledger) (sizes : Set ℕ) (acts : List Act) : Prop where
  soFar : ∃ kept links, (fresh.run codec sha digest acts).AuditIn codec sha ledger
    ((fresh.recordedOver codec sha digest acts).map Prod.fst) kept links
  again : sizes.Nonempty → (fresh.run codec sha digest acts).Whole ledger →
    ∃ more links, (∀ act ∈ more, act.keepers = true) ∧
      fresh.RunsOver codec sha digest ledger sizes (acts ++ .cut :: more) ∧
      (fresh.run codec sha digest (acts ++ .cut :: more)).AuditIn codec sha ledger
        ((fresh.recordedOver codec sha digest acts).map Prod.fst)
        (firsts ((fresh.recordedOver codec sha digest acts).map Prod.fst)) links
  same : ∀ chunk acts', sizes = {chunk} → fresh.RunsOver codec sha digest ledger sizes acts' →
    (fresh.recordedOver codec sha digest acts).map Prod.fst <+:
      (fresh.recordedOver codec sha digest acts').map Prod.fst →
    SameKept (fresh.run codec sha digest acts).audit (fresh.run codec sha digest acts').audit

/-- Wherever its keeper was cut short, a node has kept each identifier once, as its first record
said it, and lost none. -/
theorem audit_kept (hruns : fresh.RunsOver codec sha digest ledger sizes acts) :
    RunKeeps codec sha digest ledger sizes acts := by
  obtain ⟨kept, moved, h⟩ := fresh_run_kept hruns
  refine ⟨⟨_, h.auditIn⟩, ?_, ?_⟩
  · rintro ⟨chunk, hchunk⟩ hwhole
    generalize hnode : fresh.run codec sha digest acts = node at h hwhole
    have hcut : Kept codec sha ledger sizes { node with keeping := none } kept
        ((fresh.recordedOver codec sha digest acts).map Prod.fst) moved :=
      ⟨⟨h.sequenced.writer, nofun⟩, h.keeps, h.movedTo, nofun⟩
    obtain ⟨more, node', moved', hgoes, hkept⟩ : ∃ more node' moved',
        Goes codec sha digest ledger sizes { node with keeping := none } node' more ∧
          node'.Kept codec sha ledger sizes
            ((fresh.recordedOver codec sha digest acts).map Prod.fst).length
            ((fresh.recordedOver codec sha digest acts).map Prod.fst) moved' :=
      keep_goes hcut hwhole hchunk rfl
    obtain ⟨links, hlinks⟩ := hkept.auditIn
    have hmore : EachStep (after codec sha digest) (fun node act => node.Makes act ∧
        node.Recovers digest act ∧ node.Whole ledger ∧
          ∀ most chunk, act = .keep most chunk → chunk ∈ sizes) node (.cut :: more) :=
      ⟨⟨⟨by simp [Act.ops], by simp [Act.ops]⟩, trivial, hwhole, by simp⟩, hgoes.runs⟩
    rw [run] at hnode
    refine ⟨more, links, hgoes.keepers, hruns.append (by rwa [hnode]), ?_⟩
    have hrun : fresh.run codec sha digest (acts ++ .cut :: more) = node' := by
      rw [← hgoes.run, run, List.foldl_append, List.foldl_cons, hnode]
      rfl
    rw [hrun, ← hkept.all]
    exact hlinks
  · rintro chunk acts' rfl hruns' hentries
    obtain ⟨kept', moved', h'⟩ := fresh_run_kept hruns'
    exact h.same h' (.inl hentries)

theorem audit_kept_again :
    RunKeeps .prefixed summed (fun _ => []) oneStream {16} cutShort :=
  audit_kept (checked_runs fresh_sequenced (by decide +kernel))

end Embedded

end XmipPersist
