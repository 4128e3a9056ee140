import XmipPersist.Library.Steps
import XmipPersist.Model.Attempt
import XmipPersist.Verification.Audit.Keeping
import XmipPersist.Verification.Stream.Exactly

/-! # A record kept after several attempts, read back

Each attempt writes the same chunks of the Streams a record carries, and the chunks of its body in a
size of its own. The one that comes through writes over those before it up to its last chunk, and
leaves the others where they are.
-/

namespace XmipPersist

variable {codec : Codec} {sha : Bytes → Bytes} {ledger : Ledger} {runtime audit audit' : Store}
  {number : ℕ} {entry : AuditEntry}

/-! ## What an attempt leaves -/

/-- Chunks and a last write made up to where the times end. -/
theorem Store.making_deferred (audit : Store) (cs : List Change) (w : EngineWrite)
    (times : List ℤ) :
    ((audit.making (cs.map .deferred ++ [w]) times).2 = false →
      (audit.making (cs.map .deferred ++ [w]) times).1.view =
          audit.view.after (cs.take times.length) ∧
        ∀ p, (∀ c ∈ cs, c.place ≠ p) →
          (audit.making (cs.map .deferred ++ [w]) times).1.records p = audit.records p) ∧
    ((audit.making (cs.map .deferred ++ [w]) times).2 = true →
      (audit.making (cs.map .deferred ++ [w]) times).1.view =
        audit.view.after (cs ++ w.changes)) := by
  induction cs generalizing audit times with
  | nil =>
      cases times with
      | nil => simp [making]
      | cons now times =>
          simp only [List.map_nil, List.nil_append, making]
          cases happly : w.apply audit now with
          | ok audit' => exact ⟨by simp, fun _ => EngineWrite.apply_view happly⟩
          | error e => exact ⟨fun _ => ⟨by simp, fun _ _ => rfl⟩, by simp⟩
  | cons c cs ih =>
      cases times with
      | nil => simp [making]
      | cons now times =>
          have hone : audit.view.after [c] = (audit.applyIndexed [c] []).view :=
            (Store.view_applyIndexed audit [c] []).symm
          have hmaking : audit.making ((c :: cs).map .deferred ++ [w]) (now :: times) =
              (audit.applyIndexed [c] []).making (cs.map .deferred ++ [w]) times := rfl
          obtain ⟨hcut, hthrough⟩ := ih (audit.applyIndexed [c] []) times
          rw [hmaking]
          constructor
          · intro hfalse
            obtain ⟨hview, hrecords⟩ := hcut hfalse
            constructor
            · rw [hview, ← hone]
              rfl
            · intro p hp
              rw [hrecords p fun d hd => hp d (by simp [hd])]
              have hother : c.place ≠ p := hp c (by simp)
              simp [applyIndexed, written_cons, hother]
          · intro htrue
            rw [hthrough htrue, ← hone]
            rfl

namespace Keeper

/-- What an attempt comes to at a record not kept, whose writer's chain has this head. -/
theorem attempted_eq {head : Option ChainHead} (attempt : Attempt)
    (hentry : runtime.get (.audit, .id number) = .ok (some (.audit entry)))
    (hledger : ledger.Holds runtime entry)
    (hrow : audit.get (.keptAudit, .id entry.id) = .ok none)
    (hhead : audit.get (.chain, .name entry.facts.writer) >>= decoded = .ok head) :
    attempted codec sha runtime number audit attempt =
      audit.making ((beside codec ledger attempt.chunk entry).map .deferred ++
        [.indexed (own codec sha ledger attempt.chunk head entry)]) attempt.times := by
  have hwrites : writes codec sha attempt.chunk runtime audit number = _ :=
    writes_ok hentry hledger hrow hhead
  rw [attempted, hwrites]

/-- An attempt that cannot read the head of its record's chain writes nothing. -/
theorem attempted_headless {e : PersistError} (attempt : Attempt)
    (hentry : runtime.get (.audit, .id number) = .ok (some (.audit entry)))
    (hrow : audit.get (.keptAudit, .id entry.id) = .ok none)
    (hhead : (audit.get (.chain, .name entry.facts.writer) >>= decoded :
      Except PersistError (Option ChainHead)) = .error e) :
    attempted codec sha runtime number audit attempt = (audit, false) := by
  rw [attempted]
  cases hwrites : writes codec sha attempt.chunk runtime audit number with
  | error e => rfl
  | ok ws =>
      obtain ⟨entry', hentry', hspec⟩ := writes_spec hwrites
      obtain rfl : entry = entry' := by
        rw [hentry] at hentry'
        simpa using hentry'
      rcases hspec with ⟨⟨found, hfound⟩, -⟩ | ⟨-, chunks, streams, change, kept, -, hlink, -⟩
      · rw [hrow] at hfound
        simp at hfound
      · have hread : link codec sha audit (row codec sha attempt.chunk entry) streams =
            ((audit.get (.chain, .name entry.facts.writer) >>= decoded) >>= fun head =>
              pure (⟨.chain, .name entry.facts.writer, some (Form.bytes
                ((row codec sha attempt.chunk entry).linked codec sha head streams).head)⟩,
                (row codec sha attempt.chunk entry).linked codec sha head streams)) := by
          simp only [link, bind_assoc]
          rfl
        rw [hread, hhead] at hlink
        cases hlink

/-- Once a record is kept, its keeper's attempts leave all as it is. -/
theorem attemptedAll_kept {found : Content}
    (hentry : runtime.get (.audit, .id number) = .ok (some (.audit entry)))
    (hrow : audit.get (.keptAudit, .id entry.id) = .ok (some found)) (later : List Attempt) :
    attemptedAll codec sha runtime number audit later = audit := by
  induction later with
  | nil => rfl
  | cons attempt later ih =>
      have hsame : (attempted codec sha runtime number audit attempt).1 = audit := by
        rw [attempted, writes_kept hentry hrow]
        rfl
      rw [attemptedAll, List.foldl_cons, hsame]
      exact ih

/-! ## What attempts cut short leave -/

/-- The chunks that an attempt cut short leaves beside a record. -/
def left (codec : Codec) (ledger : Ledger) (entry : AuditEntry) (attempt : Attempt) :
    List Change :=
  (beside codec ledger attempt.chunk entry).take attempt.times.length

/-- Whether every attempt of these is cut short. -/
def CutShort (codec : Codec) (sha : Bytes → Bytes) (runtime : Store) (number : ℕ) (audit : Store)
    (attempts : List Attempt) : Prop :=
  EachStep (fun audit attempt => (attempted codec sha runtime number audit attempt).1)
    (fun audit attempt => (attempted codec sha runtime number audit attempt).2 = false) audit attempts

instance (audit : Store) (attempts : List Attempt) :
    Decidable (CutShort codec sha runtime number audit attempts) :=
  inferInstanceAs (Decidable (EachStep _ _ audit attempts))

theorem place_of_beside {chunk : ℕ} {c : Change} (hc : c ∈ beside codec ledger chunk entry) :
    c.kind = .keptAuditStream ∨ c.kind = .keptAuditBody := by
  rcases mem_beside.mp hc with ⟨stream, -, index, -, rfl⟩ | ⟨index, piece, -, rfl⟩
  · exact .inl rfl
  · exact .inr rfl

/-- Attempts cut short leave chunks beside a record, and the rest as it was. -/
theorem attemptedAll_cut {head : Option ChainHead} {attempts : List Attempt}
    (hentry : runtime.get (.audit, .id number) = .ok (some (.audit entry)))
    (hledger : ledger.Holds runtime entry)
    (hrow : audit.get (.keptAudit, .id entry.id) = .ok none)
    (hhead : audit.get (.chain, .name entry.facts.writer) >>= decoded = .ok head)
    (hcut : CutShort codec sha runtime number audit attempts) :
    (attemptedAll codec sha runtime number audit attempts).view =
        audit.view.after (attempts.flatMap (left codec ledger entry)) ∧
      ∀ p : Place, p.1 ≠ .keptAuditStream → p.1 ≠ .keptAuditBody →
        (attemptedAll codec sha runtime number audit attempts).get p = audit.get p := by
  induction attempts generalizing audit with
  | nil => exact ⟨rfl, fun _ _ _ => rfl⟩
  | cons attempt attempts ih =>
      have hfalse := hcut.head
      have hrest := hcut.tail
      have heq : attempted codec sha runtime number audit attempt = _ :=
        attempted_eq attempt hentry hledger hrow hhead
      rw [heq] at hfalse
      obtain ⟨hview, hrecords⟩ := (audit.making_deferred _ _ attempt.times).1 hfalse
      rw [← heq] at hview hrecords
      have hget : ∀ p : Place, p.1 ≠ .keptAuditStream → p.1 ≠ .keptAuditBody →
          (attempted codec sha runtime number audit attempt).1.get p = audit.get p := by
        intro p hstream hbody
        have hsame := hrecords p fun c hc hp => by
          subst hp
          exact (place_of_beside hc).elim hstream hbody
        simp only [Store.get, hsame]
      obtain ⟨hviews, hgets⟩ := ih (by rw [hget _ (by simp) (by simp)]; exact hrow)
        (by rw [hget _ (by simp) (by simp)]; exact hhead) hrest
      have hstep : attemptedAll codec sha runtime number audit (attempt :: attempts) =
          attemptedAll codec sha runtime number
            (attempted codec sha runtime number audit attempt).1 attempts := rfl
      rw [hstep]
      constructor
      · rw [hviews, hview, List.flatMap_cons, View.after_append]
        rfl
      · intro p hstream hbody
        rw [hgets p hstream hbody, hget p hstream hbody]

/-- How many chunks of Streams are kept beside a record. -/
def streamChunks (ledger : Ledger) (entry : AuditEntry) : ℕ :=
  (entry.carriedStreams.map fun stream => (ledger.record stream).chunks).sum

end Keeper

/-- The body of a record in the chunks an attempt keeps it in. -/
def Attempt.bodyPieces (codec : Codec) (entry : AuditEntry) (attempt : Attempt) : List Bytes :=
  pieces (max attempt.chunk 1) (entry.bodyBytes codec)

/-- How many chunks of the body an attempt cut short wrote. -/
def Attempt.bodyChunks (codec : Codec) (ledger : Ledger) (entry : AuditEntry)
    (attempt : Attempt) : ℕ :=
  min (attempt.times.length - Keeper.streamChunks ledger entry)
    (attempt.bodyPieces codec entry).length

namespace Keeper

theorem left_eq (attempt : Attempt) : left codec ledger entry attempt =
    (entry.carriedStreams.flatMap fun stream =>
      (List.range (ledger.record stream).chunks).map fun index =>
        (⟨.keptAuditStream, .triple entry.id stream index,
          some (Form.bytes (ledger.chunk stream index))⟩ : Change)).take attempt.times.length ++
    ((attempt.bodyPieces codec entry).mapIdx fun index piece =>
      (⟨.keptAuditBody, .pair entry.id index, some (.body piece)⟩ : Change)).take
        (attempt.times.length - streamChunks ledger entry) := by
  have hcount : (entry.carriedStreams.flatMap fun stream =>
      (List.range (ledger.record stream).chunks).map fun index =>
        (⟨.keptAuditStream, .triple entry.id stream index,
          some (Form.bytes (ledger.chunk stream index))⟩ : Change)).length =
        streamChunks ledger entry := by
    simp [streamChunks, List.length_flatMap]
  rw [left, beside, List.take_append, hcount]
  rfl

/-- The body's chunks that an attempt leaves. -/
theorem mem_left_body {attempt : Attempt} {c : Change} (hc : c.kind = .keptAuditBody) :
    c ∈ left codec ledger entry attempt ↔
      ∃ index piece, index < attempt.bodyChunks codec ledger entry ∧
        (attempt.bodyPieces codec entry)[index]? = some piece ∧
        c = ⟨.keptAuditBody, .pair entry.id index, some (.body piece)⟩ := by
  have hstream : c ∉ (entry.carriedStreams.flatMap fun stream =>
      (List.range (ledger.record stream).chunks).map fun index =>
        (⟨.keptAuditStream, .triple entry.id stream index,
          some (Form.bytes (ledger.chunk stream index))⟩ : Change)).take attempt.times.length := by
    intro hmem
    obtain ⟨stream, -, hmem⟩ := List.mem_flatMap.mp (List.mem_of_mem_take hmem)
    obtain ⟨index, -, rfl⟩ := List.mem_map.mp hmem
    cases hc
  rw [left_eq, List.mem_append, or_iff_right hstream, List.mem_take_iff_getElem]
  simp only [List.length_mapIdx, List.getElem_mapIdx]
  constructor
  · rintro ⟨index, hindex, rfl⟩
    exact ⟨index, _, hindex, List.getElem?_eq_getElem _, rfl⟩
  · rintro ⟨index, piece, hindex, hpiece, rfl⟩
    obtain ⟨hlt, rfl⟩ := List.getElem?_eq_some_iff.mp hpiece
    exact ⟨index, hindex, rfl⟩

theorem seen_of_left {attempt : Attempt} {c : Change}
    (hc : c ∈ left codec ledger entry attempt) : c.kind.seen = true := by
  rcases place_of_beside (List.mem_of_mem_take hc) with hkind | hkind <;> rw [hkind] <;> rfl

theorem mem_pieces_ne_nil {size : ℕ} {bytes piece : Bytes} (hsize : 0 < size)
    (h : piece ∈ pieces size bytes) : piece ≠ [] := by
  obtain ⟨index, hindex, rfl⟩ := List.mem_map.mp h
  have hlt : index < (bytes.length + size - 1) / size := List.mem_range.mp hindex
  have hmul : (index + 1) * size ≤ bytes.length + size - 1 :=
    (Nat.le_div_iff_mul_le hsize).mp hlt
  rw [Nat.add_mul, Nat.one_mul] at hmul
  have hlength : 0 < ((bytes.drop (index * size)).take size).length := by
    rw [List.length_take, List.length_drop]
    omega
  exact List.length_pos_iff.mp hlength

/-! ## What is kept after them -/

/-- What is written of a record by attempts cut short and the one that comes through. -/
def allChanges (codec : Codec) (sha : Bytes → Bytes) (ledger : Ledger) (entry : AuditEntry)
    (head : Option ChainHead) (earlier : List Attempt) (last : Attempt) : List Change :=
  earlier.flatMap (left codec ledger entry) ++ changes codec sha ledger last.chunk head entry

variable {head : Option ChainHead} {earlier later : List Attempt} {last : Attempt}

theorem seen_of_all {c : Change} (hc : c ∈ allChanges codec sha ledger entry head earlier last) :
    c.kind.seen = true := by
  rcases List.mem_append.mp hc with hc | hc
  · obtain ⟨attempt, -, hc⟩ := List.mem_flatMap.mp hc
    exact seen_of_left hc
  · exact seen_of_mem hc

/-- What is kept at a place of a record that had nothing kept of it. -/
theorem view_all {p : Place} (hnone : audit.view p = none)
    (hview : audit'.view =
      audit.view.after (allChanges codec sha ledger entry head earlier last)) :
    audit'.view p = (written (allChanges codec sha ledger entry head earlier last) p).bind
      (Option.map Content.bare) := by
  rw [hview, View.after_written fun c hc => seen_of_all hc, hnone]
  cases written (allChanges codec sha ledger entry head earlier last) p <;> rfl

/-- What the attempt that comes through writes is what is kept there. -/
theorem written_last {c : Change} (hc : c ∈ changes codec sha ledger last.chunk head entry) :
    written (allChanges codec sha ledger entry head earlier last) c.place = some c.value := by
  rw [allChanges, written_append, written_of_value (fun d hd => value_of_mem hd) hc]
  rfl

/-- Where it writes nothing, one before it may have. -/
theorem written_earlier {p : Place}
    (hnone : ∀ c ∈ changes codec sha ledger last.chunk head entry, c.place ≠ p) :
    written (allChanges codec sha ledger entry head earlier last) p =
      written (earlier.flatMap (left codec ledger entry)) p := by
  rw [allChanges, written_append, written_eq_none.mpr hnone, Option.none_or]

/-- A chunk of the body that the attempt which comes through writes. -/
theorem body_at {index : ℕ} {piece : Bytes}
    (hpiece : (last.bodyPieces codec entry)[index]? = some piece) :
    written (allChanges codec sha ledger entry head earlier last)
      (.keptAuditBody, .pair entry.id index) = some (some (.body piece)) := by
  have hmem : (⟨.keptAuditBody, .pair entry.id index, some (.body piece)⟩ : Change) ∈
      changes codec sha ledger last.chunk head entry :=
    List.mem_append_left _ (mem_beside.mpr (.inr ⟨index, piece, hpiece, rfl⟩))
  exact written_last hmem

theorem body_past {index : ℕ} (hindex : (last.bodyPieces codec entry).length ≤ index) :
    ∀ c ∈ changes codec sha ledger last.chunk head entry,
      c.place ≠ (.keptAuditBody, .pair entry.id index) := by
  intro c hc hplace
  rcases List.mem_append.mp hc with hc | hc
  · rcases mem_beside.mp hc with ⟨stream, -, i, -, rfl⟩ | ⟨i, piece, hpiece, rfl⟩
    · cases hplace
    · obtain ⟨hlt, -⟩ := List.getElem?_eq_some_iff.mp hpiece
      simp only [Change.place, Prod.mk.injEq, Key.pair.injEq, true_and] at hplace
      have hlength : (pieces (max last.chunk 1) (entry.bodyBytes codec)).length ≤ index := hindex
      omega
  · rcases mem_own.mp hc with ⟨stream, -, rfl⟩ | rfl | rfl <;> cases hplace

/-- A chunk of the body past those, and what an attempt before it left of one. -/
theorem body_left {index : ℕ} (hindex : (last.bodyPieces codec entry).length ≤ index) :
    (∃ attempt ∈ earlier, index < attempt.bodyChunks codec ledger entry) ∧
        (∃ piece, piece ≠ [] ∧ written (allChanges codec sha ledger entry head earlier last)
          (.keptAuditBody, .pair entry.id index) = some (some (.body piece))) ∨
      (∀ attempt ∈ earlier, attempt.bodyChunks codec ledger entry ≤ index) ∧
        written (allChanges codec sha ledger entry head earlier last)
          (.keptAuditBody, .pair entry.id index) = none := by
  rw [written_earlier (body_past hindex)]
  cases hw : written (earlier.flatMap (left codec ledger entry))
      (.keptAuditBody, .pair entry.id index) with
  | none =>
      refine .inr ⟨fun attempt hattempt => ?_, rfl⟩
      by_contra hlt
      have hbound : index < (attempt.bodyPieces codec entry).length := by
        rw [Attempt.bodyChunks] at hlt
        omega
      have hmem : (⟨.keptAuditBody, .pair entry.id index,
          some (.body (attempt.bodyPieces codec entry)[index])⟩ : Change) ∈
            left codec ledger entry attempt :=
        (mem_left_body rfl).mpr
          ⟨index, _, by omega, List.getElem?_eq_getElem hbound, rfl⟩
      exact written_eq_none.mp hw _ (List.mem_flatMap.mpr ⟨attempt, hattempt, hmem⟩) rfl
  | some value =>
      obtain ⟨c, hc, hplace, rfl⟩ := exists_of_written hw
      obtain ⟨attempt, hattempt, hleft⟩ := List.mem_flatMap.mp hc
      have hkind : c.kind = .keptAuditBody := congrArg Prod.fst hplace
      obtain ⟨i, piece, hi, hpiece, rfl⟩ := (mem_left_body hkind).mp hleft
      simp only [Change.place, Prod.mk.injEq, Key.pair.injEq, true_and] at hplace
      subst hplace
      refine .inl ⟨⟨attempt, hattempt, hi⟩, piece, ?_, rfl⟩
      exact mem_pieces_ne_nil (by omega) (List.mem_of_getElem? hpiece)

end Keeper

/-! ## Read back -/

/-- Whether what is kept of a record's body is read as exactly these bytes. -/
def Store.ReadsBody (sha : Bytes → Bytes) (audit : Store) (id : ℕ) (bytes : Bytes) : Prop :=
  ∃ r chunks, ChunkReader.auditBody audit id = .ok (some r) ∧
    (∀ n, audit.readKeptAuditChunk id none n = .ok (chunks n)) ∧ r.ReadsExactly sha chunks bytes

/-- Whether what is kept of a Stream that a record carries is read as exactly these bytes. -/
def Store.ReadsStream (sha : Bytes → Bytes) (audit : Store) (id stream : ℕ) (bytes : Bytes) : Prop :=
  ∃ r chunks, ChunkReader.audited audit id stream = .ok (some r) ∧
    (∀ n, audit.readKeptAuditChunk id (some stream) n = .ok (chunks n)) ∧
      r.ReadsExactly sha chunks bytes

/-- The bytes of a Stream's chunks in the Ledger. -/
def Ledger.bytes (ledger : Ledger) (stream : ℕ) : Bytes :=
  (List.range (ledger.record stream).chunks).flatMap fun index => (ledger.chunk stream index).bytes

/-- A Stream's record says of its chunks what it does as they are written: how many there are, in 32
bits, how many bytes, in 64, and their digest. -/
structure Ledger.Says (ledger : Ledger) (sha : Bytes → Bytes) (stream : ℕ) : Prop where
  chunks : (ledger.record stream).chunks < 2 ^ 32
  bound : (ledger.record stream).length < 2 ^ 64
  length : (ledger.bytes stream).length = (ledger.record stream).length
  digest : sha (ledger.bytes stream) = (ledger.record stream).digest

namespace Keeper

variable {head : Option ChainHead} {earlier later : List Attempt} {last : Attempt}

/-- A content kept at a place, but for the time it is stamped with. -/
theorem get_of_view {p : Place} {content : Content} (hseen : p.1.seen = true)
    (hview : audit.view p = some content) (hsound : ∀ e, content ≠ .broken e) :
    ∃ kept, audit.get p = .ok (some kept) ∧ kept.bare = content := by
  simp only [Store.view, hseen, if_true, Option.map_eq_some_iff] at hview
  obtain ⟨kept, hrecords, hbare⟩ := hview
  refine ⟨kept, ?_, hbare⟩
  simp only [Store.get, hrecords]
  cases kept with
  | broken e => exact absurd hbare.symm (hsound e)
  | _ => rfl

theorem get_of_no_view {p : Place} (hseen : p.1.seen = true) (hview : audit.view p = none) :
    audit.get p = .ok none := by
  simp only [Store.view, hseen, if_true, Option.map_eq_none_iff] at hview
  simp only [Store.get, hview]

/-- A chunk of a body as it is read. -/
theorem readBody {index : ℕ} {piece : Bytes} {id : ℕ}
    (hview : audit.view (.keptAuditBody, .pair id index) = some (.body piece)) :
    audit.readKeptAuditChunk id none index = .ok (some piece) := by
  obtain ⟨kept, hget, hbare⟩ := get_of_view rfl hview nofun
  have hkept : kept = .body piece := by
    cases kept <;> first | exact hbare | cases hbare
  rw [Store.readKeptAuditChunk, hget, hkept]
  rfl

theorem readNoBody {index id : ℕ}
    (hview : audit.view (.keptAuditBody, .pair id index) = none) :
    audit.readKeptAuditChunk id none index = .ok none := by
  rw [Store.readKeptAuditChunk, get_of_no_view rfl hview]
  rfl

theorem lt_foldr_max (ns : List ℕ) (n i : ℕ) :
    i < ns.foldr max n ↔ i < n ∨ ∃ k ∈ ns, i < k := by
  induction ns with
  | nil => simp
  | cons k ns ih =>
      rw [List.foldr_cons, lt_max_iff, ih]
      simp only [List.mem_cons, exists_eq_or_imp]
      tauto

theorem bytesFrom_pieces {chunks : ℕ → Option Bytes} {kept : List Bytes}
    (hchunks : ∀ (index : ℕ) (piece : Bytes), kept[index]? = some piece →
      chunks index = some piece) :
    ChunkReader.bytesFrom chunks 0 kept.length = kept.flatten := by
  have heach : (List.range kept.length).map (fun n => (chunks n).getD []) = kept := by
    apply List.ext_getElem (by simp)
    intro index _ hindex
    have hsome := hchunks index kept[index] (List.getElem?_eq_getElem hindex)
    simp [hsome]
  rw [ChunkReader.bytesFrom, ← List.range_eq_range', List.flatMap_def, heach]

/-- A chunk of the body kept after attempts cut short and one that came through: its own, and past
them what one of those before left. -/
structure BodyKept (codec : Codec) (ledger : Ledger) (entry : AuditEntry) (earlier : List Attempt)
    (last : Attempt) (index : ℕ) (chunk : Option Bytes) : Prop where
  own : ∀ piece, (last.bodyPieces codec entry)[index]? = some piece → chunk = some piece
  past : (last.bodyPieces codec entry).length ≤ index →
    (∃ attempt ∈ earlier, index < attempt.bodyChunks codec ledger entry) ∧
        (∃ piece, piece ≠ [] ∧ chunk = some piece) ∨
      (∀ attempt ∈ earlier, attempt.bodyChunks codec ledger entry ≤ index) ∧ chunk = none

theorem body_kept (hnew : ∀ p : Place, p.keptOf = some entry.id → audit.view p = none)
    (hview : audit'.view =
      audit.view.after (allChanges codec sha ledger entry head earlier last)) (index : ℕ) :
    ∃ chunk, audit'.readKeptAuditChunk entry.id none index = .ok chunk ∧
      BodyKept codec ledger entry earlier last index chunk := by
  have hbody : audit'.view (.keptAuditBody, .pair entry.id index) =
      (written (allChanges codec sha ledger entry head earlier last)
        (.keptAuditBody, .pair entry.id index)).bind (Option.map Content.bare) :=
    view_all (hnew _ rfl) hview
  by_cases hindex : index < (last.bodyPieces codec entry).length
  · have hpiece := List.getElem?_eq_getElem hindex
    have hread := readBody (hbody.trans (by rw [body_at hpiece]; rfl))
    refine ⟨_, hread, fun piece hsome => ?_, fun hle => by omega⟩
    rw [← hsome, hpiece]
  · have hpast : (last.bodyPieces codec entry).length ≤ index := by omega
    have hnone : (last.bodyPieces codec entry)[index]? = none := List.getElem?_eq_none hpast
    have hleft : (∃ attempt ∈ earlier, index < attempt.bodyChunks codec ledger entry) ∧
          (∃ piece, piece ≠ [] ∧ written (allChanges codec sha ledger entry head earlier last)
            (.keptAuditBody, .pair entry.id index) = some (some (.body piece))) ∨
        (∀ attempt ∈ earlier, attempt.bodyChunks codec ledger entry ≤ index) ∧
          written (allChanges codec sha ledger entry head earlier last)
            (.keptAuditBody, .pair entry.id index) = none :=
      body_left hpast
    rcases hleft with ⟨hattempt, piece, hne, hw⟩ | ⟨hattempts, hw⟩
    · have hread := readBody (hbody.trans (by rw [hw]; rfl))
      exact ⟨_, hread, by simp [hnone], fun _ => .inl ⟨hattempt, piece, hne, rfl⟩⟩
    · have hread := readNoBody (hbody.trans (by rw [hw]; rfl))
      exact ⟨_, hread, by simp [hnone], fun _ => .inr ⟨hattempts, rfl⟩⟩

/-- Chunks of these pieces, and others past them: they are the bytes where there are no others. -/
theorem whole_kept_iff {chunks : ℕ → Option Bytes}
    (hchunks : ∀ index, BodyKept codec ledger entry earlier last index (chunks index)) :
    ∃ count, (∀ n, chunks n ≠ none ↔ n < count) ∧
      (count < 2 ^ 32 ∧ ChunkReader.whole chunks 0 count = entry.bodyBytes codec ↔
        (last.bodyPieces codec entry).length < 2 ^ 32 ∧
          ∀ attempt ∈ earlier, attempt.bodyChunks codec ledger entry ≤
            (last.bodyPieces codec entry).length) := by
  have hflat : (last.bodyPieces codec entry).flatten = entry.bodyBytes codec :=
    pieces_flatten (by omega) _
  have hown : ChunkReader.bytesFrom chunks 0 (last.bodyPieces codec entry).length =
      entry.bodyBytes codec := by
    rw [bytesFrom_pieces fun index piece hpiece => (hchunks index).own piece hpiece, hflat]
  -- as many as the most that any of them wrote
  have hcount : ∀ i, i < (earlier.map (Attempt.bodyChunks codec ledger entry)).foldr max
        (last.bodyPieces codec entry).length ↔
      i < (last.bodyPieces codec entry).length ∨
        ∃ attempt ∈ earlier, i < attempt.bodyChunks codec ledger entry := by
    intro i
    rw [lt_foldr_max]
    simp only [List.mem_map, exists_exists_and_eq_and]
  generalize (earlier.map (Attempt.bodyChunks codec ledger entry)).foldr max
    (last.bodyPieces codec entry).length = count at hcount
  generalize hn : (last.bodyPieces codec entry).length = n at hcount hown
  have hle : n ≤ count := by
    by_contra hlt
    exact absurd ((hcount count).mpr (.inl (by omega))) (by omega)
  refine ⟨count, fun i => ?_, ?_⟩
  · rw [hcount]
    by_cases hi : i < n
    · have hpiece := List.getElem?_eq_getElem (hn ▸ hi)
      simp [(hchunks i).own _ hpiece, hi]
    · rcases (hchunks i).past (by omega) with ⟨hattempt, piece, -, hsome⟩ | ⟨hattempts, hnone⟩
      · simp only [hsome, hi, false_or, ne_eq, reduceCtorEq, not_false_eq_true, true_iff]
        exact hattempt
      · simp only [hnone, hi, false_or, ne_eq, not_true_eq_false, false_iff, not_exists, not_and,
          not_lt]
        exact hattempts
  · constructor
    · rintro ⟨hbound, hwhole⟩
      refine ⟨by omega, fun attempt hattempt => ?_⟩
      by_contra hmore
      -- the chunk after the last of its own is another's, and not empty
      have hlt : n < count := (hcount n).mpr (.inr ⟨attempt, hattempt, by omega⟩)
      rcases (hchunks n).past (by omega) with ⟨-, piece, hne, hsome⟩ | ⟨hattempts, -⟩
      · have hsplit : count - 0 = n + (1 + (count - n - 1)) := by omega
        rw [ChunkReader.whole, hsplit, ChunkReader.bytesFrom_add, ChunkReader.bytesFrom_add,
          Nat.zero_add, ChunkReader.bytesFrom_one hsome, hown] at hwhole
        have hlength := congrArg List.length hwhole
        have hpos := List.length_pos_iff.mpr hne
        simp only [List.length_append] at hlength
        omega
      · exact hmore (hattempts attempt hattempt)
    · rintro ⟨hbound, hattempts⟩
      have hsame : count = n := by
        by_contra hne
        rcases (hcount n).mp (by omega) with hlt | ⟨attempt, hattempt, hlt⟩
        · omega
        · have := hattempts attempt hattempt
          omega
      subst hsame
      exact ⟨hbound, by rw [ChunkReader.whole, Nat.sub_zero, hown]⟩

/-- The row kept is that of the attempt that came through, but for its time. -/
theorem row_found (hnew : ∀ p : Place, p.keptOf = some entry.id → audit.view p = none)
    (hview : audit'.view =
      audit.view.after (allChanges codec sha ledger entry head earlier last)) :
    ∃ kept, audit'.get (.keptAudit, .id entry.id) = .ok (some kept) ∧
      kept.bare = (Content.keptAudit (linked codec sha ledger last.chunk head entry)).bare := by
  have hmem : (⟨.keptAudit, .id entry.id,
      some (Form.bytes (linked codec sha ledger last.chunk head entry))⟩ : Change) ∈
        changes codec sha ledger last.chunk head entry :=
    List.mem_append_right _ (mem_own.mpr (.inr (.inr rfl)))
  have hrow : audit'.view (.keptAudit, .id entry.id) =
      some (Content.keptAudit (linked codec sha ledger last.chunk head entry)).bare := by
    rw [view_all (hnew _ rfl) hview]
    exact congrArg (Option.bind · (Option.map Content.bare)) (written_last hmem)
  exact get_of_view rfl hrow nofun

/-- It says of the body what that attempt found it to be. -/
theorem row_kept (hnew : ∀ p : Place, p.keptOf = some entry.id → audit.view p = none)
    (hview : audit'.view =
      audit.view.after (allChanges codec sha ledger entry head earlier last)) :
    ∃ kept, audit'.readKeptAudit entry.id = .ok (some kept) ∧
      kept.facts.bodyLength = (entry.bodyBytes codec).length ∧
      kept.facts.bodyDigest = sha (entry.bodyBytes codec) := by
  obtain ⟨kept, hget, hbare⟩ := row_found hnew hview
  cases kept <;> try cases hbare
  next kept =>
    have hfacts := congrArg KeptAudit.facts (Content.keptAudit.inj hbare)
    refine ⟨kept, ?_, ?_, ?_⟩
    · rw [Store.readKeptAudit, hget]
      rfl
    · exact congrArg AuditFacts.bodyLength hfacts
    · exact congrArg AuditFacts.bodyDigest hfacts

/-- A body is read exactly where its chunks are of 32 bits and no attempt before wrote more of
them. -/
theorem readsBody_iff (hlong : (entry.bodyBytes codec).length < 2 ^ 64)
    (hnew : ∀ p : Place, p.keptOf = some entry.id → audit.view p = none)
    (hview : audit'.view =
      audit.view.after (allChanges codec sha ledger entry head earlier last)) :
    audit'.ReadsBody sha entry.id (entry.bodyBytes codec) ↔
      (last.bodyPieces codec entry).length < 2 ^ 32 ∧
        ∀ attempt ∈ earlier, attempt.bodyChunks codec ledger entry ≤
          (last.bodyPieces codec entry).length := by
  choose chunks hread hkept using fun index => body_kept hnew hview index
  obtain ⟨kept, hrow, hlength, hdigest⟩ := row_kept hnew hview
  obtain ⟨count, hpresent, hwhole⟩ := whole_kept_iff hkept
  have hreader : ChunkReader.auditBody audit' entry.id =
      .ok (some { source := .auditBody entry.id (sha (entry.bodyBytes codec)),
                  length := (entry.bodyBytes codec).length }) := by
    rw [ChunkReader.auditBody, hrow, ← hlength, ← hdigest]
    rfl
  have hexactly : ChunkReader.ReadsExactly sha chunks
        { source := .auditBody entry.id (sha (entry.bodyBytes codec)),
          length := (entry.bodyBytes codec).length } (entry.bodyBytes codec) ↔
      count < 2 ^ 32 ∧ ChunkReader.whole chunks 0 count = entry.bodyBytes codec :=
    ChunkReader.reads_exactly_iff hpresent hlong rfl fun said hsaid => Option.some.inj hsaid
  rw [← hwhole, ← hexactly]
  constructor
  · rintro ⟨r, chunks', hr, hread', hreads⟩
    obtain rfl : chunks = chunks' := by
      funext n
      exact Except.ok.inj ((hread n).symm.trans (hread' n))
    rw [hreader] at hr
    obtain rfl := Option.some.inj (Except.ok.inj hr)
    exact hreads
  · exact fun hreads => ⟨_, chunks, hreader, hread, hreads⟩

/-! ## The Streams a record carries -/

/-- The row of a Stream kept beside a record. -/
theorem stream_kept {stream : ℕ} (hstream : stream ∈ entry.carriedStreams)
    (hnew : ∀ p : Place, p.keptOf = some entry.id → audit.view p = none)
    (hview : audit'.view =
      audit.view.after (allChanges codec sha ledger entry head earlier last)) :
    audit'.readKeptAuditStream entry.id stream = .ok (some (ledger.record stream)) := by
  have hmem : (⟨.keptAuditStreams, .pair entry.id stream,
      some (Form.bytes (KeptStream.mk entry.id (ledger.record stream)))⟩ : Change) ∈
        changes codec sha ledger last.chunk head entry :=
    List.mem_append_right _ (mem_own.mpr (.inl ⟨stream, hstream, rfl⟩))
  have hrow : audit'.view (.keptAuditStreams, .pair entry.id stream) =
      some (.keptStream ⟨entry.id, ledger.record stream⟩) := by
    rw [view_all (hnew _ rfl) hview]
    exact congrArg (Option.bind · (Option.map Content.bare)) (written_last hmem)
  obtain ⟨kept, hget, hbare⟩ := get_of_view rfl hrow nofun
  have hkept : kept = .keptStream ⟨entry.id, ledger.record stream⟩ := by
    cases kept <;> first | exact hbare | cases hbare
  rw [Store.readKeptAuditStream, hget, hkept]
  rfl

/-- A chunk of a Stream kept beside a record, and none past its last. -/
theorem streamChunk_kept {stream : ℕ} (hstream : stream ∈ entry.carriedStreams)
    (hnew : ∀ p : Place, p.keptOf = some entry.id → audit.view p = none)
    (hview : audit'.view =
      audit.view.after (allChanges codec sha ledger entry head earlier last)) (index : ℕ) :
    audit'.readKeptAuditChunk entry.id (some stream) index =
      .ok (if index < (ledger.record stream).chunks then
        some (ledger.chunk stream index).bytes else none) := by
  have hchunk : audit'.view (.keptAuditStream, .triple entry.id stream index) =
      (written (allChanges codec sha ledger entry head earlier last)
        (.keptAuditStream, .triple entry.id stream index)).bind (Option.map Content.bare) :=
    view_all (hnew _ rfl) hview
  by_cases hindex : index < (ledger.record stream).chunks
  · have hmem : (⟨.keptAuditStream, .triple entry.id stream index,
        some (Form.bytes (ledger.chunk stream index))⟩ : Change) ∈
          changes codec sha ledger last.chunk head entry :=
      List.mem_append_left _ (mem_beside.mpr (.inl ⟨stream, hstream, index, hindex, rfl⟩))
    have hrow : audit'.view (.keptAuditStream, .triple entry.id stream index) =
        some (.chunk (ledger.chunk stream index)) := by
      rw [hchunk]
      exact congrArg (Option.bind · (Option.map Content.bare)) (written_last hmem)
    obtain ⟨kept, hget, hbare⟩ := get_of_view rfl hrow nofun
    have hkept : kept = .chunk (ledger.chunk stream index) := by
      cases kept <;> first | exact hbare | cases hbare
    rw [Store.readKeptAuditChunk, hget, hkept, if_pos hindex]
    rfl
  · -- each attempt writes the chunks that the Stream's record counts
    have hbeside : ∀ chunk, ∀ c ∈ beside codec ledger chunk entry,
        c.place ≠ (.keptAuditStream, .triple entry.id stream index) := by
      intro chunk c hc hplace
      rcases mem_beside.mp hc with ⟨other, -, i, hi, rfl⟩ | ⟨i, piece, -, rfl⟩
      · simp only [Change.place, Prod.mk.injEq, Key.triple.injEq, true_and] at hplace
        obtain ⟨rfl, rfl⟩ := hplace
        exact hindex hi
      · cases hplace
    have hnone : written (allChanges codec sha ledger entry head earlier last)
        (.keptAuditStream, .triple entry.id stream index) = none := by
      refine written_eq_none.mpr fun c hc hplace => ?_
      rcases List.mem_append.mp hc with hc | hc
      · obtain ⟨attempt, -, hc⟩ := List.mem_flatMap.mp hc
        exact hbeside _ c (List.mem_of_mem_take hc) hplace
      · rcases List.mem_append.mp hc with hc | hc
        · exact hbeside _ c hc hplace
        · rcases mem_own.mp hc with ⟨other, -, rfl⟩ | rfl | rfl <;> cases hplace
    rw [Store.readKeptAuditChunk, get_of_no_view rfl (hchunk.trans (by rw [hnone]; rfl)),
      if_neg hindex]
    rfl

theorem readsStream {stream : ℕ} (hstream : stream ∈ entry.carriedStreams)
    (htells : ledger.Says sha stream)
    (hnew : ∀ p : Place, p.keptOf = some entry.id → audit.view p = none)
    (hview : audit'.view =
      audit.view.after (allChanges codec sha ledger entry head earlier last)) :
    audit'.ReadsStream sha entry.id stream (ledger.bytes stream) := by
  have hread := streamChunk_kept hstream hnew hview
  have hpresent : ∀ n, (if n < (ledger.record stream).chunks then
      some (ledger.chunk stream n).bytes else none) ≠ none ↔ n < (ledger.record stream).chunks := by
    intro n
    split <;> simp_all
  have hwhole : ChunkReader.whole (fun n => if n < (ledger.record stream).chunks then
      some (ledger.chunk stream n).bytes else none) 0 (ledger.record stream).chunks =
        ledger.bytes stream := by
    rw [ChunkReader.whole, ChunkReader.bytesFrom, Nat.sub_zero, ← List.range_eq_range',
      Ledger.bytes, List.flatMap_def, List.flatMap_def]
    congr 1
    refine List.map_congr_left fun n hn => ?_
    simp [List.mem_range.mp hn]
  refine ⟨{ source := .audit entry.id stream (ledger.record stream).digest,
            length := (ledger.record stream).length }, _, ?_, hread, ?_⟩
  · rw [ChunkReader.audited, stream_kept hstream hnew hview]
    rfl
  · refine (ChunkReader.reads_exactly_iff hpresent htells.bound htells.length ?_).mpr
      ⟨htells.chunks, hwhole⟩
    intro said hsaid
    rw [htells.digest]
    exact Option.some.inj hsaid

/-! ## Over the attempts -/

/-- What is kept once an attempt came through, whatever is tried after it. -/
theorem attempts_view
    (hentry : runtime.get (.audit, .id number) = .ok (some (.audit entry)))
    (hledger : ledger.Holds runtime entry)
    (hnew : ∀ p : Place, p.keptOf = some entry.id → audit.records p = none)
    (hcut : CutShort codec sha runtime number audit earlier)
    (hthrough : (attempted codec sha runtime number
      (attemptedAll codec sha runtime number audit earlier) last).2 = true) :
    (∀ p : Place, p.keptOf = some entry.id → audit.view p = none) ∧ ∃ head,
      (attemptedAll codec sha runtime number audit (earlier ++ last :: later)).view =
        audit.view.after (allChanges codec sha ledger entry head earlier last) := by
  have hnone : ∀ p : Place, p.keptOf = some entry.id → audit.view p = none := by
    intro p hp
    simp [Store.view, hnew p hp]
  refine ⟨hnone, ?_⟩
  have hrow : audit.get (.keptAudit, .id entry.id) = .ok none := get_of_no_view rfl (hnone _ rfl)
  cases hhead : (audit.get (.chain, .name entry.facts.writer) >>= decoded :
      Except PersistError (Option ChainHead)) with
  | error e =>
      -- none of the attempts writes anything, the one that comes through neither
      have hsame : attemptedAll codec sha runtime number audit earlier = audit := by
        clear hcut hthrough
        induction earlier with
        | nil => rfl
        | cons attempt earlier ih =>
            rw [attemptedAll, List.foldl_cons, attempted_headless attempt hentry hrow hhead]
            exact ih
      rw [hsame, attempted_headless last hentry hrow hhead] at hthrough
      cases hthrough
  | ok head =>
      obtain ⟨hview, hget⟩ := attemptedAll_cut hentry hledger hrow hhead hcut
      refine ⟨head, ?_⟩
      generalize hbefore : attemptedAll codec sha runtime number audit earlier = before at *
      have heq : attempted codec sha runtime number before last = _ :=
        attempted_eq last hentry hledger (by rw [hget _ (by simp) (by simp)]; exact hrow)
          (by rw [hget _ (by simp) (by simp)]; exact hhead)
      have hmade : (attempted codec sha runtime number before last).1.view = audit.view.after
          (allChanges codec sha ledger entry head earlier last) := by
        rw [heq] at hthrough ⊢
        rw [(before.making_deferred _ _ last.times).2 hthrough, hview, ← View.after_append]
        rfl
      obtain ⟨kept, hkept, -⟩ := row_found hnone hmade
      have hall : attemptedAll codec sha runtime number audit (earlier ++ last :: later) =
          (attempted codec sha runtime number before last).1 := by
        have hsplit : attemptedAll codec sha runtime number audit (earlier ++ last :: later) =
            attemptedAll codec sha runtime number
              (attempted codec sha runtime number before last).1 later := by
          rw [← hbefore, attemptedAll, List.foldl_append]
          rfl
        rw [hsplit, attemptedAll_kept hentry hkept]
      rw [hall, hmade]

/-- Once an attempt came through, a record's body and the Streams it carries are read exactly as they
were where the body's chunks are of 32 bits and no attempt cut short before it wrote more of them. -/
theorem read_as_kept (later : List Attempt)
    (hentry : runtime.get (.audit, .id number) = .ok (some (.audit entry)))
    (hledger : ledger.Holds runtime entry)
    (htells : ∀ stream ∈ entry.carriedStreams, ledger.Says sha stream)
    (hlong : (entry.bodyBytes codec).length < 2 ^ 64)
    (hnew : ∀ p : Place, p.keptOf = some entry.id → audit.records p = none)
    (hcut : CutShort codec sha runtime number audit earlier)
    (hthrough : (attempted codec sha runtime number
      (attemptedAll codec sha runtime number audit earlier) last).2 = true) :
    let kept := attemptedAll codec sha runtime number audit (earlier ++ last :: later)
    kept.ReadsBody sha entry.id (entry.bodyBytes codec) ∧
        (∀ stream ∈ entry.carriedStreams,
          kept.ReadsStream sha entry.id stream (ledger.bytes stream)) ↔
      (last.bodyPieces codec entry).length < 2 ^ 32 ∧
        ∀ attempt ∈ earlier, attempt.bodyChunks codec ledger entry ≤
          (last.bodyPieces codec entry).length := by
  intro kept
  obtain ⟨hnone, head, hview⟩ : (∀ p : Place, p.keptOf = some entry.id → audit.view p = none) ∧
      ∃ head, kept.view = audit.view.after (allChanges codec sha ledger entry head earlier last) :=
    attempts_view hentry hledger hnew hcut hthrough
  have hbody := readsBody_iff hlong hnone hview
  constructor
  · rintro ⟨hreads, -⟩
    exact hbody.mp hreads
  · intro hcondition
    refine ⟨hbody.mpr hcondition, fun stream hstream => ?_⟩
    exact readsStream hstream (htells stream hstream) hnone hview

/-- A Ledger that keeps one Stream, in one chunk, and says so. -/
def saidStream : Ledger where
  record stream := ⟨stream, 3, 1, summed [1, 2, 3], 0⟩
  chunk stream index := ⟨stream, index, [1, 2, 3]⟩
  record_stream _ := rfl

/-- A record that carries it. -/
def carrying : AuditEntry :=
  { id := 1, body := [6], audited := some ⟨[], [7]⟩, facts := { writer := "a" } }

/-- A runtime database with the two of them. -/
def withCarrying : Store where
  records p :=
    if p = (.audit, .id 0) then some (.audit carrying)
    else if p = (.stream, .id 7) then some (.stream (saidStream.record 7))
    else if p = (.chunk, .pair 7 0) then some (.chunk (saidStream.chunk 7 0))
    else none
  entries := .empty

theorem saidStream_holds : saidStream.Holds withCarrying carrying := by
  intro stream hstream
  obtain rfl : stream = 7 := by simpa using (show stream ∈ [7] from hstream)
  refine ⟨rfl, fun index hindex => ?_⟩
  obtain rfl : index = 0 := Nat.lt_one_iff.mp hindex
  rfl

theorem saidStream_says (stream : ℕ) : saidStream.Says summed stream :=
  ⟨by simp [saidStream], by simp [saidStream], rfl, rfl⟩

/-- Cut short amid the body and kept in the same size after it, once more and not again. -/
theorem read_as_kept_again :
    let kept := attemptedAll .prefixed summed withCarrying 0 .empty
      ([⟨4, [0, 0, 0]⟩, ⟨4, [1]⟩] ++ ⟨4, List.replicate 20 2⟩ :: [⟨9, [3]⟩])
    kept.ReadsBody summed 1 (carrying.bodyBytes .prefixed) ∧
      ∀ stream ∈ carrying.carriedStreams, kept.ReadsStream summed 1 stream
        (saidStream.bytes stream) :=
  (read_as_kept _ rfl saidStream_holds (fun stream _ => saidStream_says stream) (by decide +kernel)
    (fun _ _ => rfl) (by decide +kernel) (by decide +kernel)).mpr (by decide +kernel)

/-- Two chunks of one byte are left of a body kept in one chunk later, and the second is read after
it. -/
theorem read_past_kept :
    let earlier : List Attempt := [⟨1, [0, 0, 0]⟩]
    let last : Attempt := ⟨64, List.replicate 3 1⟩
    CutShort .prefixed summed withCarrying 0 .empty earlier ∧
      (attempted .prefixed summed withCarrying 0
        (attemptedAll .prefixed summed withCarrying 0 .empty earlier) last).2 = true ∧
      ¬ (attemptedAll .prefixed summed withCarrying 0 .empty (earlier ++ [last])).ReadsBody summed 1
        (carrying.bodyBytes .prefixed) := by
  intro earlier last
  have hcut : CutShort .prefixed summed withCarrying 0 .empty earlier := by decide +kernel
  have hthrough : (attempted .prefixed summed withCarrying 0
      (attemptedAll .prefixed summed withCarrying 0 .empty earlier) last).2 = true := by
    decide +kernel
  refine ⟨hcut, hthrough, ?_⟩
  obtain ⟨hnone, head, hview⟩ :
      (∀ p : Place, p.keptOf = some carrying.id → Store.empty.view p = none) ∧ ∃ head,
        (attemptedAll .prefixed summed withCarrying 0 .empty (earlier ++ [last])).view =
          Store.empty.view.after
            (allChanges .prefixed summed saidStream carrying head earlier last) :=
    attempts_view rfl saidStream_holds (fun _ _ => rfl) hcut hthrough
  intro hreads
  have hless := (readsBody_iff (by decide +kernel) hnone hview).mp hreads
  revert hless
  decide +kernel

end Keeper

end XmipPersist
