import XmipPersist.Model.Keeper
import XmipPersist.Verification.Audit.Chain
import XmipPersist.Verification.Index.Runs

/-! # What the keeper keeps of a sequence of records

Of records with the same identifier the first is kept, linked after its writer's last. What is
kept is a function of the records moved, each with the size its body was kept in chunks of, and of
the Streams the Ledger keeps.
-/

namespace XmipPersist

/-! ## Each identifier once -/

/-- The first of the records of each identifier, in order. -/
def firsts (entries : List AuditEntry) : List AuditEntry :=
  entries.foldl (fun kept entry =>
    if entry.id ∈ kept.map AuditEntry.id then kept else kept ++ [entry]) []

theorem firsts_snoc (entries : List AuditEntry) (entry : AuditEntry) :
    firsts (entries ++ [entry]) =
      if entry.id ∈ (firsts entries).map AuditEntry.id then firsts entries
      else firsts entries ++ [entry] := by
  simp [firsts]

theorem firsts_append (entries more : List AuditEntry) :
    firsts entries <+: firsts (entries ++ more) := by
  induction more using List.reverseRecOn with
  | nil => rw [List.append_nil]
  | append_singleton more entry ih =>
      rw [← List.append_assoc, firsts_snoc]
      split
      · exact ih
      · exact ih.trans (List.prefix_append _ _)

theorem firsts_take (entries : List AuditEntry) (n : ℕ) :
    firsts (entries.take n) <+: firsts entries := by
  have hall := firsts_append (entries.take n) (entries.drop n)
  rwa [List.take_append_drop] at hall

/-- Every identifier has its first record. -/
theorem mem_firsts_id {entries : List AuditEntry} {id : ℕ} :
    id ∈ (firsts entries).map AuditEntry.id ↔ id ∈ entries.map AuditEntry.id := by
  induction entries using List.reverseRecOn with
  | nil => exact Iff.rfl
  | append_singleton entries last ih =>
      rw [firsts_snoc, List.map_append, List.mem_append, ← ih]
      split
      · next hlast =>
          constructor
          · exact .inl
          · rintro (h | h)
            · exact h
            · rwa [List.mem_singleton.mp h]
      · rw [List.map_append, List.mem_append]

theorem firsts_nodup (entries : List AuditEntry) :
    ((firsts entries).map AuditEntry.id).Nodup := by
  induction entries using List.reverseRecOn with
  | nil => exact .nil
  | append_singleton entries last ih =>
      rw [firsts_snoc]
      split
      · exact ih
      · next hlast =>
          rw [List.map_append, List.nodup_append]
          refine ⟨ih, List.nodup_singleton _, ?_⟩
          rintro id hid other hother rfl
          rw [List.map_singleton, List.mem_singleton] at hother
          exact hlast (hother ▸ hid)

/-! ## Bytes in pieces -/

theorem pieces_of_length_le {size : ℕ} {bytes : Bytes} (hne : bytes ≠ [])
    (hle : bytes.length ≤ size) : pieces size bytes = [bytes] := by
  have hpos : 0 < bytes.length := List.length_pos_iff.mpr hne
  have hone : (bytes.length + size - 1) / size = 1 := by
    rw [Nat.div_eq_iff (by omega)]
    omega
  rw [pieces, hone]
  simp [List.take_of_length_le hle]

theorem pieces_cons {size : ℕ} {bytes : Bytes} (hsize : 0 < size) (hlt : size < bytes.length) :
    pieces size bytes = bytes.take size :: pieces size (bytes.drop size) := by
  have hcount : (bytes.length + size - 1) / size =
      ((bytes.drop size).length + size - 1) / size + 1 := by
    rw [List.length_drop, ← Nat.add_div_right _ hsize]
    congr 1
    omega
  rw [pieces, hcount, List.range_succ_eq_map, List.map_cons, List.map_map]
  simp only [pieces, Nat.zero_mul, List.drop_zero, List.cons.injEq, true_and]
  refine List.map_congr_left fun index _ => ?_
  simp only [Function.comp_apply, List.drop_drop]
  congr 2
  rw [Nat.succ_mul, Nat.add_comm]

/-- The pieces of bytes are all of them. -/
theorem pieces_flatten {size : ℕ} (hsize : 0 < size) (bytes : Bytes) :
    (pieces size bytes).flatten = bytes := by
  induction hlength : bytes.length using Nat.strong_induction_on generalizing bytes with
  | _ n ih =>
      by_cases hne : bytes = []
      · subst hne
        have hnone : (size - 1) / size = 0 := Nat.div_eq_of_lt (by omega)
        simp [pieces, hnone]
      · by_cases hle : bytes.length ≤ size
        · simp [pieces_of_length_le hne hle]
        · have hlt : size < bytes.length := by omega
          have hshorter : (bytes.drop size).length < n := by
            rw [List.length_drop]
            omega
          rw [pieces_cons hsize hlt, List.flatten_cons, ih _ hshorter _ rfl,
            List.take_append_drop]

/-! ## What is kept of one record -/

/-- The Streams the Ledger keeps: each one's record, and its chunks. -/
structure Ledger where
  record : ℕ → StreamRecord
  chunk : ℕ → ℕ → StreamChunk
  record_stream : ∀ stream, (record stream).stream = stream

/-- A record moved, and the size its body was kept in chunks of. -/
abbrev MovedRecord := AuditEntry × ℕ

namespace Keeper

variable (codec : Codec) (sha : Bytes → Bytes) (ledger : Ledger)

/-- The records of the Streams a record carries. -/
def streams (entry : AuditEntry) : List StreamRecord := entry.carriedStreams.map ledger.record

/-- The chunks kept beside a record: its Streams' and its body's. -/
def beside (chunk : ℕ) (entry : AuditEntry) : List Change :=
  (entry.carriedStreams.flatMap fun stream =>
    (List.range (ledger.record stream).chunks).map fun index =>
      ⟨.keptAuditStream, .triple entry.id stream index,
        some (Form.bytes (ledger.chunk stream index))⟩) ++
  (pieces (max chunk 1) (entry.bodyBytes codec)).mapIdx fun index piece =>
    ⟨.keptAuditBody, .pair entry.id index, some (.body piece)⟩

/-- A record's row, linked after the head of its writer's chain. -/
def linked (chunk : ℕ) (head : Option ChainHead) (entry : AuditEntry) : KeptAudit :=
  (row codec sha chunk entry).linked codec sha head (streams ledger entry)

/-- A record's own write: its Streams' rows, its writer's chain's head and its row. -/
def own (chunk : ℕ) (head : Option ChainHead) (entry : AuditEntry) : List Change :=
  streamRows entry.id (streams ledger entry) ++
    [⟨.chain, .name entry.facts.writer,
      some (Form.bytes (linked codec sha ledger chunk head entry).head)⟩,
    ⟨.keptAudit, .id entry.id, some (Form.bytes (linked codec sha ledger chunk head entry))⟩]

/-- All that is written of one record. -/
def changes (chunk : ℕ) (head : Option ChainHead) (entry : AuditEntry) : List Change :=
  beside codec ledger chunk entry ++ own codec sha ledger chunk head entry

/-- What is written of one record, by place. -/
def at' (chunk : ℕ) (head : Option ChainHead) (entry : AuditEntry) : Place → Option Content
  | (.keptAuditStream, .triple _ stream index) => some (Form.bytes (ledger.chunk stream index))
  | (.keptAuditBody, .pair _ index) =>
      (pieces (max chunk 1) (entry.bodyBytes codec))[index]?.map .body
  | (.keptAuditStreams, .pair _ stream) =>
      some (Form.bytes (KeptStream.mk entry.id (ledger.record stream)))
  | (.chain, _) => some (Form.bytes (linked codec sha ledger chunk head entry).head)
  | (.keptAudit, _) => some (Form.bytes (linked codec sha ledger chunk head entry))
  | _ => none

end Keeper

/-- Whose record a place of the audit database's is kept of. -/
def Place.keptOf : Place → Option ℕ
  | (.keptAudit, .id id) => some id
  | (.keptAuditStreams, .pair id _) => some id
  | (.keptAuditStream, .triple id _ _) => some id
  | (.keptAuditBody, .pair id _) => some id
  | _ => none

section Changes

open Keeper

variable {codec : Codec} {sha : Bytes → Bytes} {ledger : Ledger} {chunk : ℕ}
  {head : Option ChainHead} {entry : AuditEntry} {c : Change}

theorem mem_beside : c ∈ beside codec ledger chunk entry ↔
    (∃ stream ∈ entry.carriedStreams, ∃ index < (ledger.record stream).chunks,
      c = ⟨.keptAuditStream, .triple entry.id stream index,
        some (Form.bytes (ledger.chunk stream index))⟩) ∨
    ∃ index piece, (pieces (max chunk 1) (entry.bodyBytes codec))[index]? = some piece ∧
      c = ⟨.keptAuditBody, .pair entry.id index, some (.body piece)⟩ := by
  simp only [beside, List.mem_append, List.mem_flatMap, List.mem_map, List.mem_range,
    List.mem_mapIdx]
  refine or_congr (exists_congr fun stream => and_congr_right fun _ => exists_congr fun index =>
    and_congr_right fun _ => eq_comm) ?_
  constructor
  · rintro ⟨index, hindex, rfl⟩
    exact ⟨index, _, List.getElem?_eq_getElem hindex, rfl⟩
  · rintro ⟨index, piece, hpiece, rfl⟩
    obtain ⟨hindex, rfl⟩ := List.getElem?_eq_some_iff.mp hpiece
    exact ⟨index, hindex, rfl⟩

theorem mem_own : c ∈ own codec sha ledger chunk head entry ↔
    (∃ stream ∈ entry.carriedStreams, c = ⟨.keptAuditStreams, .pair entry.id stream,
      some (Form.bytes (KeptStream.mk entry.id (ledger.record stream)))⟩) ∨
    c = ⟨.chain, .name entry.facts.writer,
      some (Form.bytes (linked codec sha ledger chunk head entry).head)⟩ ∨
    c = ⟨.keptAudit, .id entry.id,
      some (Form.bytes (linked codec sha ledger chunk head entry))⟩ := by
  simp only [own, streamRows, streams, List.mem_append, List.mem_map, List.mem_cons,
    List.not_mem_nil, or_false, exists_exists_and_eq_and, ledger.record_stream]
  exact or_congr_left (exists_congr fun stream => and_congr_right fun _ => eq_comm)

/-- Each of a record's changes writes what its place is written with. -/
theorem value_of_mem (h : c ∈ changes codec sha ledger chunk head entry) :
    c.value = at' codec sha ledger chunk head entry c.place := by
  rcases List.mem_append.mp h with h | h
  · rcases mem_beside.mp h with ⟨stream, -, index, -, rfl⟩ | ⟨index, piece, hpiece, rfl⟩
    · rfl
    · simp [at', Change.place, hpiece]
  · rcases mem_own.mp h with ⟨stream, -, rfl⟩ | rfl | rfl <;> rfl

/-- Each is its own record's, or the head of its writer's chain. -/
theorem keptOf_of_mem (h : c ∈ changes codec sha ledger chunk head entry) :
    c.place.keptOf = some entry.id ∨ c.place = (.chain, .name entry.facts.writer) := by
  rcases List.mem_append.mp h with h | h
  · rcases mem_beside.mp h with ⟨stream, -, index, -, rfl⟩ | ⟨index, piece, -, rfl⟩
    · exact .inl rfl
    · exact .inl rfl
  · rcases mem_own.mp h with ⟨stream, -, rfl⟩ | rfl | rfl
    · exact .inl rfl
    · exact .inr rfl
    · exact .inl rfl

theorem seen_of_mem (h : c ∈ changes codec sha ledger chunk head entry) :
    c.kind.seen = true := by
  rcases List.mem_append.mp h with h | h
  · rcases mem_beside.mp h with ⟨stream, -, index, -, rfl⟩ | ⟨index, piece, -, rfl⟩ <;> rfl
  · rcases mem_own.mp h with ⟨stream, -, rfl⟩ | rfl | rfl <;> rfl

theorem proper_of_mem (h : c ∈ changes codec sha ledger chunk head entry) : c.Proper := by
  rcases List.mem_append.mp h with h | h
  · rcases mem_beside.mp h with ⟨stream, -, index, -, rfl⟩ | ⟨index, piece, -, rfl⟩ <;> trivial
  · rcases mem_own.mp h with ⟨stream, -, rfl⟩ | rfl | rfl
    · exact ⟨rfl, ledger.record_stream stream⟩
    · trivial
    · rfl

end Changes

/-! ## Changes over a view -/

/-- Where changes to one place say the same, each is seen. -/
theorem written_of_value {cs : List Change} {value : Place → Option Content}
    (hvalue : ∀ c ∈ cs, c.value = value c.place) {c : Change} (hc : c ∈ cs) :
    written cs c.place = some c.value := by
  cases hw : written cs c.place with
  | none => exact absurd rfl (written_eq_none.mp hw c hc)
  | some found =>
      obtain ⟨d, hd, hplace, rfl⟩ := exists_of_written hw
      rw [hvalue d hd, hplace, hvalue c hc]

theorem View.after_written {v : View} {cs : List Change} (hseen : ∀ c ∈ cs, c.kind.seen = true)
    (p : Place) : v.after cs p = ((written cs p).map (Option.map Content.bare)).getD (v p) := by
  induction cs using List.reverseRecOn with
  | nil => rfl
  | append_singleton cs c ih =>
      rw [View.after_append, View.after_cons, View.after_nil, View.with', hseen c (by simp),
        if_pos rfl, written_append]
      have hcs := ih fun d hd => hseen d (by simp [hd])
      by_cases hp : c.place = p
      · subst hp
        simp [written_cons]
      · rw [Function.update_of_ne (Ne.symm hp), hcs]
        simp [written_cons, hp]

/-! ## What is kept of all of them -/

/-- The head kept of a writer's chain. -/
def View.headOf (v : View) (writer : String) : Option ChainHead :=
  match v (.chain, .name writer) with
  | some (.chainHead head) => some head
  | _ => none

namespace Keeper

variable (codec : Codec) (sha : Bytes → Bytes) (ledger : Ledger)

/-- One record kept after those kept before it. -/
def keptAfter (v : View) (x : MovedRecord) : View :=
  v.after (changes codec sha ledger x.2 (v.headOf x.1.facts.writer) x.1)

/-- A record's link of its writer's chain, after those kept before it. -/
def linkAfter (v : View) (x : MovedRecord) : ChainLink :=
  (linked codec sha ledger x.2 (v.headOf x.1.facts.writer) x.1, streams ledger x.1)

/-- What is kept of the records moved, without the keeper's time, and their links. -/
def keptAll (moved : List MovedRecord) : View × List ChainLink :=
  moved.foldl (fun kept x =>
    (keptAfter codec sha ledger kept.1 x, kept.2 ++ [linkAfter codec sha ledger kept.1 x]))
    (fun _ => none, [])

/-- What is kept of the records moved. -/
def keptView (moved : List MovedRecord) : View := (keptAll codec sha ledger moved).1

/-- The links of the records moved, in order. -/
def keptLinks (moved : List MovedRecord) : List ChainLink := (keptAll codec sha ledger moved).2

end Keeper

section Kept

open Keeper

variable {codec : Codec} {sha : Bytes → Bytes} {ledger : Ledger} {moved pre post : List MovedRecord}
  {x : MovedRecord} {p : Place}

theorem keptView_snoc : keptView codec sha ledger (moved ++ [x]) =
    keptAfter codec sha ledger (keptView codec sha ledger moved) x := by
  simp [keptView, keptAll]

theorem keptLinks_snoc : keptLinks codec sha ledger (moved ++ [x]) =
    keptLinks codec sha ledger moved ++
      [linkAfter codec sha ledger (keptView codec sha ledger moved) x] := by
  simp [keptView, keptLinks, keptAll]

/-- A place of the record kept last. -/
theorem keptAfter_of_mem {v : View} {c : Change}
    (h : c ∈ changes codec sha ledger x.2 (v.headOf x.1.facts.writer) x.1) :
    keptAfter codec sha ledger v x c.place = c.value.map Content.bare := by
  rw [keptAfter, View.after_written fun d hd => seen_of_mem hd,
    written_of_value (fun d hd => value_of_mem hd) h]
  rfl

/-- Every other place is as it was. -/
theorem keptAfter_of_not_mem {v : View}
    (h : ∀ c ∈ changes codec sha ledger x.2 (v.headOf x.1.facts.writer) x.1, c.place ≠ p) :
    keptAfter codec sha ledger v x p = v p := by
  rw [keptAfter, View.after_written fun d hd => seen_of_mem hd, written_eq_none.mpr h]
  rfl

/-- What is kept is of a record moved, or a chain's head. -/
theorem keptOf_of_kept (h : keptView codec sha ledger moved p ≠ none) :
    (∃ y ∈ moved, p.keptOf = some y.1.id) ∨ ∃ writer, p = (.chain, .name writer) := by
  induction moved using List.reverseRecOn with
  | nil => exact absurd rfl h
  | append_singleton moved x ih =>
      rw [keptView_snoc] at h
      by_cases hmem : ∃ c ∈ changes codec sha ledger x.2
          ((keptView codec sha ledger moved).headOf x.1.facts.writer) x.1, c.place = p
      · obtain ⟨c, hc, rfl⟩ := hmem
        rcases keptOf_of_mem hc with hid | hchain
        · exact .inl ⟨x, by simp, hid⟩
        · exact .inr ⟨_, hchain⟩
      · rw [keptAfter_of_not_mem fun c hc hp => hmem ⟨c, hc, hp⟩] at h
        rcases ih h with ⟨y, hy, hid⟩ | hchain
        · exact .inl ⟨y, by simp [hy], hid⟩
        · exact .inr hchain

/-- A record's link, and what is kept of it: its own places are as its changes left them. -/
def Keeper.KeptAs (codec : Codec) (sha : Bytes → Bytes) (ledger : Ledger) (v : View)
    (x : MovedRecord) (link : ChainLink) : Prop :=
  link.2 = streams ledger x.1 ∧ ∃ head, link.1 = linked codec sha ledger x.2 head x.1 ∧
    ∀ c ∈ changes codec sha ledger x.2 head x.1, c.place.keptOf = some x.1.id →
      v c.place = c.value.map Content.bare

/-- A record stays as it was kept, whatever is kept after it. -/
theorem Keeper.KeptAs.after {v : View} {y : MovedRecord} {link : ChainLink}
    (h : KeptAs codec sha ledger v y link) (hne : y.1.id ≠ x.1.id) :
    KeptAs codec sha ledger (keptAfter codec sha ledger v x) y link := by
  obtain ⟨hstreams, head, hlink, hkept⟩ := h
  refine ⟨hstreams, head, hlink, fun c hc hid => ?_⟩
  rw [keptAfter_of_not_mem, hkept c hc hid]
  intro d hd hplace
  rcases keptOf_of_mem hd with hd | hd
  · rw [hplace, hid] at hd
    exact hne (Option.some.inj hd)
  · rw [← hplace, hd] at hid
    cases hid

/-- Every record moved is kept as its link, each identifier moved once. -/
theorem keptLinks_as (hnodup : (moved.map fun y => y.1.id).Nodup) :
    List.Forall₂ (KeptAs codec sha ledger (keptView codec sha ledger moved)) moved
      (keptLinks codec sha ledger moved) := by
  induction moved using List.reverseRecOn with
  | nil => exact .nil
  | append_singleton moved x ih =>
      rw [List.map_append, List.nodup_append] at hnodup
      obtain ⟨hbefore, -, hapart⟩ := hnodup
      have hne : ∀ y ∈ moved, y.1.id ≠ x.1.id := fun y hy =>
        hapart _ (List.mem_map.mpr ⟨y, hy, rfl⟩) _ (by simp)
      rw [keptView_snoc, keptLinks_snoc]
      refine List.rel_append (((List.forall₂_and_left _ _).mpr ⟨hne, ih hbefore⟩).imp ?_)
        (.cons ⟨rfl, _, rfl, fun c hc _ => keptAfter_of_mem hc⟩ .nil)
      exact fun y link h => h.2.after h.1

/-! ## The chains -/

/-- The writer's links among the records moved. -/
def Keeper.chainOf (codec : Codec) (sha : Bytes → Bytes) (ledger : Ledger)
    (moved : List MovedRecord) (writer : String) : List ChainLink :=
  (keptLinks codec sha ledger moved).filter fun link => link.1.facts.writer = writer

theorem linkAfter_writer {v : View} :
    (linkAfter codec sha ledger v x).1.facts.writer = x.1.facts.writer := rfl

theorem chainOf_snoc (writer : String) : chainOf codec sha ledger (moved ++ [x]) writer =
    chainOf codec sha ledger moved writer ++
      if x.1.facts.writer = writer then
        [linkAfter codec sha ledger (keptView codec sha ledger moved) x]
      else [] := by
  rw [chainOf, keptLinks_snoc, List.filter_append, chainOf]
  congr 1
  by_cases hwriter : x.1.facts.writer = writer
  · simp [hwriter, linkAfter_writer]
  · simp [hwriter, linkAfter_writer]

/-- The head kept of a writer's chain is that of its last link. -/
theorem headOf_kept (writer : String) :
    (keptView codec sha ledger moved).headOf writer =
      chainHead (chainOf codec sha ledger moved writer) := by
  induction moved using List.reverseRecOn with
  | nil => rfl
  | append_singleton moved x ih =>
      rw [keptView_snoc, chainOf_snoc]
      by_cases hwriter : x.1.facts.writer = writer
      · subst hwriter
        have hmem : ⟨.chain, .name x.1.facts.writer, some (.chainHead
            (linkAfter codec sha ledger (keptView codec sha ledger moved) x).1.head)⟩ ∈
              changes codec sha ledger x.2
                ((keptView codec sha ledger moved).headOf x.1.facts.writer) x.1 :=
          List.mem_append_right _ (mem_own.mpr (.inr (.inl rfl)))
        have hhead : keptAfter codec sha ledger (keptView codec sha ledger moved) x
            (.chain, .name x.1.facts.writer) = some (.chainHead
              (linkAfter codec sha ledger (keptView codec sha ledger moved) x).1.head) :=
          keptAfter_of_mem hmem
        rw [View.headOf, hhead, if_pos rfl, chainHead, List.getLast?_append_cons]
        rfl
      · rw [if_neg hwriter, List.append_nil, ← ih, View.headOf, View.headOf,
          keptAfter_of_not_mem]
        intro c hc hplace
        rcases keptOf_of_mem hc with hid | hchain
        · rw [hplace] at hid
          cases hid
        · rw [hplace] at hchain
          exact hwriter (Key.name.inj (Prod.mk.inj hchain).2).symm

/-- Each writer's links are a chain. -/
theorem chainOf_chained (writer : String) :
    Chained codec sha (chainOf codec sha ledger moved writer) := by
  induction moved using List.reverseRecOn with
  | nil => exact .nil
  | append_singleton moved x ih =>
      rw [chainOf_snoc]
      split
      · next hwriter =>
          refine .snoc ih ?_
          have hcarries : (row codec sha x.2 x.1).streams =
              (streams ledger x.1).map StreamRecord.stream := by
            simp [streams, row, ledger.record_stream, Function.comp_def]
          have hfollows : ChainLink.Follows codec sha
              (chainOf codec sha ledger moved writer).getLast?
              ((row codec sha x.2 x.1).linked codec sha
                (chainHead (chainOf codec sha ledger moved writer)) (streams ledger x.1),
                streams ledger x.1) :=
            (row codec sha x.2 x.1).linked_follows _ hcarries
          rw [linkAfter, linked, hwriter, headOf_kept]
          exact hfollows
      · rwa [List.append_nil]

end Kept

end XmipPersist
