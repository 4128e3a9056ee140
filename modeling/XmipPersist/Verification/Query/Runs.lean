import XmipPersist.Verification.Audit.Forgotten
import XmipPersist.Verification.Query.Asked
import XmipPersist.Verification.Secret.Table

/-! # The databases of the node stay sound, whatever is written to them

The runtime database by its writer's groups, the audit database by its keeper, cut short anywhere,
and the administration database one record at a time. So whatever a question is asked of, what it
is answered is the records there are.
-/

namespace XmipPersist

open Wire (Ask Query Span Secrets)

/-! ## One write -/

/-- Proper records that no queue is kept in, and none searched where they are written as they
are. -/
structure EngineWrite.Made (w : EngineWrite) : Prop where
  proper : ∀ c ∈ w.changes, c.Proper
  apart : ∀ c ∈ w.changes, ∀ k : Queues, c.kind ∉ k.kinds.all
  plain : ∀ c, w = .deferred c → Searched.of c.kind = none

/-- Changes that no queue is kept in are seen in none. -/
theorem View.after_of_kinds {v : View} {cs : List Change} {kinds : List Kind}
    (h : ∀ c ∈ cs, c.kind ∉ kinds) {p : Place} (hp : p.1 ∈ kinds) : v.after cs p = v p := by
  induction cs generalizing v with
  | nil => rfl
  | cons c cs ih =>
      have hne : p ≠ c.place := by
        rintro rfl
        exact h c (by simp) hp
      have hone : v.with' c p = v p := by
        unfold View.with'
        split
        · exact Function.update_of_ne hne _ _
        · rfl
      rw [View.after_cons, ih fun d hd => h d (by simp [hd]), hone]

theorem View.Queued.after {v : View} (hv : v.Queued) {cs : List Change}
    (h : ∀ c ∈ cs, ∀ k : Queues, c.kind ∉ k.kinds.all) : (v.after cs).Queued := by
  intro k q
  rw [View.queue_congr (fun p hp => View.after_of_kinds (fun c hc => h c hc k) hp) q]
  exact hv k q

/-- A write to a sound store leaves it sound. -/
theorem EngineWrite.apply_sound {numbers : Set ℕ} {w : EngineWrite} {s s' : Store} {now : ℤ}
    (happly : w.apply s now = .ok s') (hs : s.Sound numbers) (hmade : w.Made)
    (hfits : ∀ c ∈ w.changes, c.Fits (columnsOf numbers)) : s'.Sound numbers := by
  have hsoles : s.view.Soles w.changes := by
    refine hs.queued.sole.soles fun c hc k hkind => hmade.apart c hc k ?_
    simp [hkind, Kinds.all]
  have hqueued := hs.queued.after hmade.apart
  cases w with
  | deferred c =>
      obtain rfl := Except.ok.inj happly
      refine hs.written (Nat.zero_le u64Max) hmade.proper hfits hsoles hqueued ?_
      refine writtenOver_unsearched fun d hd => ?_
      rw [List.mem_singleton.mp hd]
      exact hmade.plain c rfl
  | indexed changes =>
      obtain ⟨⟨cs, es⟩, hover, happly⟩ := bind_eq_ok.mp happly
      obtain rfl := Except.ok.inj happly
      exact hs.written (min_le_right _ _) hmade.proper hfits hsoles hqueued hover

/-! ## What the keeper writes -/

section Keeper

variable {codec : Codec} {sha : Bytes → Bytes}

/-- No queue is kept in a kind of the audit database. -/
theorem Keeper.kinds_apart {kind : Kind}
    (h : kind ∈ [Kind.keptAuditStream, .keptAuditStreams, .keptAuditBody, .keptAudit, .chain])
    (k : Queues) : kind ∉ k.kinds.all := by
  revert kind
  cases k <;> decide

theorem Keeper.made_deferred {kind : Kind} {key : Key} {content : Content}
    (hkind : kind = .keptAuditStream ∨ kind = .keptAuditBody) (hholds : kind.holds key content) :
    (EngineWrite.deferred ⟨kind, key, some content⟩).Made where
  proper c hc := by
    rw [List.mem_singleton.mp hc]
    exact hholds
  apart c hc k := by
    rw [List.mem_singleton.mp hc]
    exact Keeper.kinds_apart (by rcases hkind with rfl | rfl <;> simp) k
  plain c hc := by
    cases hc
    rcases hkind with rfl | rfl <;> rfl

/-- A record's own write: the rows of its Streams, its writer's chain's head and its row. -/
theorem Keeper.made_own {id : ℕ} (streams : List StreamRecord) {head row : Change}
    (hhead : head.Proper ∧ head.kind = .chain) (hrow : row.Proper ∧ row.kind = .keptAudit) :
    (EngineWrite.indexed (streamRows id streams ++ [head, row])).Made := by
  have hrows : ∀ c ∈ streamRows id streams, c.Proper ∧ c.kind = .keptAuditStreams := by
    intro c hc
    obtain ⟨stream, -, rfl⟩ := List.mem_map.mp hc
    exact ⟨⟨rfl, rfl⟩, rfl⟩
  have heach : ∀ c ∈ streamRows id streams ++ [head, row],
      c.Proper ∧ c.kind ∈ [Kind.keptAuditStreams, .chain, .keptAudit] := by
    intro c hc
    rcases List.mem_append.mp hc with hc | hc
    · exact ⟨(hrows c hc).1, by simp [(hrows c hc).2]⟩
    · rcases List.mem_pair.mp hc with rfl | rfl
      · exact ⟨hhead.1, by simp [hhead.2]⟩
      · exact ⟨hrow.1, by simp [hrow.2]⟩
  refine ⟨fun c hc => (heach c hc).1, fun c hc k => ?_, fun c hc => nomatch hc⟩
  apply Keeper.kinds_apart
  have hkind := (heach c hc).2
  simp only [List.mem_cons, List.not_mem_nil, or_false] at hkind ⊢
  tauto

/-- What the keeper is to write of a record is records of the audit database. -/
theorem Keeper.writes_made {chunk : ℕ} {runtime audit : Store} {number : ℕ}
    {writes : List EngineWrite}
    (h : Keeper.writes codec sha chunk runtime audit number = .ok writes) :
    ∀ w ∈ writes, w.Made := by
  obtain ⟨found, -, h⟩ := bind_eq_ok.mp h
  cases found with
  | none => cases h
  | some entry =>
      obtain ⟨kept, -, h⟩ := bind_eq_ok.mp h
      cases kept with
      | some content =>
          cases h
          simp
      | none =>
          obtain ⟨⟨chunks, streams⟩, hstreams, h⟩ := bind_eq_ok.mp h
          obtain ⟨⟨head, linked⟩, hlink, h⟩ := bind_eq_ok.mp h
          obtain rfl := Except.ok.inj h
          have hchunks : ∀ w ∈ chunks, w.Made := by
            obtain ⟨each, heach, hstreams⟩ := bind_eq_ok.mp hstreams
            obtain ⟨rfl, -⟩ := Prod.mk.inj (Except.ok.inj hstreams)
            intro w hw
            obtain ⟨one, hone, hw⟩ := List.mem_flatMap.mp hw
            obtain ⟨stream, -, hkept⟩ := mem_of_mapM_ok heach hone
            obtain ⟨record, -, hkept⟩ := bind_eq_ok.mp hkept
            cases record with
            | none => cases hkept
            | some record =>
                obtain ⟨pieces, hpieces, hkept⟩ := bind_eq_ok.mp hkept
                obtain rfl := Except.ok.inj hkept
                obtain ⟨index, -, hpiece⟩ := mem_of_mapM_ok hpieces hw
                obtain ⟨piece, -, hpiece⟩ := bind_eq_ok.mp hpiece
                cases piece with
                | none => cases hpiece
                | some piece =>
                    obtain rfl := Except.ok.inj hpiece
                    exact Keeper.made_deferred (.inl rfl) trivial
          obtain ⟨before, -, hlink⟩ := bind_eq_ok.mp hlink
          obtain ⟨rfl, rfl⟩ := Prod.mk.inj (Except.ok.inj hlink)
          intro w hw
          simp only [List.mem_append, List.mem_singleton] at hw
          rcases hw with (hw | hw) | rfl
          · exact hchunks w hw
          · obtain ⟨index, hindex, rfl⟩ := List.mem_mapIdx.mp hw
            exact Keeper.made_deferred (.inr rfl) trivial
          · exact Keeper.made_own _ ⟨trivial, rfl⟩ ⟨rfl, rfl⟩

end Keeper

/-! ## The embedded node -/

namespace Embedded

/-- What an act writes, before it is stamped. -/
def changes (digest : Publication → Bytes) (node : Embedded) : Act → List Change
  | .step step => (node.writer.rulings digest step).flatMap fun r => r.stage.changes
  | .panicked m ops .written _ =>
      (node.writer.rulings digest (.group m ops)).flatMap fun r => r.stage.changes
  | .write _ =>
      match node.keeping with
      | some ⟨_, _, _, some (next :: _)⟩ => next.changes
      | _ => []
  | _ => []

/-- What the keeper has to write is records of the audit database. -/
def Pending (node : Embedded) : Prop :=
  ∀ keeping, node.keeping = some keeping →
    ∀ writes, keeping.writes = some writes → ∀ w ∈ writes, w.Made

/-- Both databases are sound, and what the keeper has to write is records of its own. -/
structure Sound (numbers : Set ℕ) (node : Embedded) : Prop where
  runtime : node.writer.store.Sound numbers
  audit : node.audit.Sound numbers
  pending : node.Pending

variable {codec : Codec} {sha : Bytes → Bytes} {digest : Publication → Bytes} {numbers : Set ℕ}
  {node : Embedded} {act : Act}

theorem fresh_sound (numbers : Set ℕ) : Embedded.fresh.Sound numbers where
  runtime := Store.empty_sound numbers
  audit := Store.empty_sound numbers
  pending := nofun

theorem after_runtime (h : node.Sound numbers) (hmade : ∀ op ∈ act.ops, op.Made)
    (hfits : ∀ c ∈ node.changes digest act, c.Fits (columnsOf numbers)) :
    (node.after codec sha digest act).writer.store.Sound numbers := by
  have hsame : (node.after codec sha digest act).writer.store = node.writer.store →
      (node.after codec sha digest act).writer.store.Sound numbers := by
    intro he
    rw [he]
    exact h.runtime
  cases act with
  | step step =>
      have hstep : step.Made := by
        cases step with
        | group m ops => exact hmade
        | _ => trivial
      have hafter : (node.writer.after digest step).store.Sound numbers :=
        Writer.after_sound hstep h.runtime fun r hr c hc =>
          hfits c (List.mem_flatMap.mpr ⟨r, hr, hc⟩)
      cases step <;> exact hafter
  | panicked m ops struck reads =>
      cases struck with
      | deciding decided numbered => exact hsame (recover_store _ reads)
      | written =>
          have hstore : (node.after codec sha digest (.panicked m ops .written reads)).writer.store =
              (node.writer.after digest (.group m ops)).store := recover_store _ reads
          rw [hstore]
          exact Writer.after_sound hmade h.runtime fun r hr c hc =>
            hfits c (List.mem_flatMap.mpr ⟨r, hr, hc⟩)
  | keep most chunk =>
      refine hsame ?_
      simp only [after, keep]
      split <;> rfl
  | look => exact hsame (congrArg Writer.store look_writer)
  | write now =>
      refine hsame ?_
      simp only [after, write]
      split
      · split <;> rfl
      · rfl
  | cut => exact h.runtime

/-- What the keeper reads to write is records of the audit database. -/
theorem Pending.after (h : node.Pending) (act : Act) :
    (node.after codec sha digest act).Pending := by
  intro keeping hk writes hwrites
  by_cases hwrite : ∃ now, act = .write now
  · obtain ⟨now, rfl⟩ := hwrite
    simp only [Embedded.after, write] at hk
    split at hk
    · next number upto chunk next rest hbefore =>
        split at hk
        · obtain rfl := Option.some.inj hk
          obtain rfl := Option.some.inj hwrites
          exact fun w hw => h _ hbefore _ rfl w (by simp [hw])
        · cases hk
    · exact h keeping hk writes hwrites
  · rcases after_keeping (fun now he => hwrite ⟨now, he⟩) hk hwrites with hsame | hread
    · exact h keeping hsame writes hwrites
    · exact Keeper.writes_made hread

/-- Each act leaves both databases sound. -/
theorem Sound.after (h : node.Sound numbers) (hmade : ∀ op ∈ act.ops, op.Made)
    (hfits : ∀ c ∈ node.changes digest act, c.Fits (columnsOf numbers)) :
    (node.after codec sha digest act).Sound numbers where
  runtime := after_runtime h hmade hfits
  pending := h.pending.after act
  audit := by
    by_cases hwrite : ∃ now, act = .write now
    · obtain ⟨now, rfl⟩ := hwrite
      simp only [Embedded.after, write]
      split
      · next number upto chunk next rest hbefore =>
          split
          · next audit happly =>
              refine EngineWrite.apply_sound happly h.audit
                (h.pending _ hbefore _ rfl next (by simp)) fun c hc => hfits c ?_
              rwa [changes, hbefore]
          · exact h.audit
      · exact h.audit
    · rw [after_audit fun now he => hwrite ⟨now, he⟩]
      exact h.audit

end Embedded

/-! ## The databases -/

section Databases

variable {x : Secrets} {k : Sealing}

/-- A write asked of the administration database is one write of its changes. -/
theorem AdministrationWrite.made_ok {w : AdministrationWrite x k} {s s' : Store}
    (h : w.made s = .ok s') : (EngineWrite.indexed (w.changes s)).apply s w.now = .ok s' := by
  cases w with
  | write record now refused =>
      obtain ⟨written, happly, hmade⟩ := bind_eq_ok.mp h
      cases refused with
      | some e => cases hmade
      | none => exact Except.ok.inj hmade ▸ happly
  | remove kind id now refused =>
      obtain ⟨written, happly, hmade⟩ := bind_eq_ok.mp h
      cases refused with
      | some e => cases hmade
      | none => exact Except.ok.inj hmade ▸ happly
  | secret asked =>
      obtain ⟨key, hkey, h⟩ := bind_eq_ok.mp h
      obtain ⟨row, hrow, h⟩ := bind_eq_ok.mp h
      obtain ⟨written, happly, hmade⟩ := bind_eq_ok.mp h
      have hchanges : asked.changes s = [⟨.secret,
          .id ((Secret.secretId asked.name s).getD row.id), some (Form.bytes
            { row with id := (Secret.secretId asked.name s).getD row.id }.kept)⟩] := by
        simp only [SecretWrite.changes, hkey, bind, Except.bind, hrow]
      rw [AdministrationWrite.changes, hchanges]
      obtain ⟨record, now, drawn, refused⟩ := asked
      cases refused with
      | some e => cases hmade
      | none => exact Except.ok.inj hmade ▸ happly

/-- No queue is kept in a kind of the administration database. -/
theorem administration_apart (kind : AdministrationKind) (k : Queues) :
    Kind.administration kind ∉ k.kinds.all ∧ Kind.secret ∉ k.kinds.all := by
  cases k <;> simp [Queues.kinds, Kinds.all, Hold.kinds, Failed.kinds, Dead.kinds]

/-- A record of the administration database, kept as it is asked to be. -/
theorem AdministrationWrite.changes_made (w : AdministrationWrite x k) (s : Store) :
    (EngineWrite.indexed (w.changes s)).Made := by
  have heach : ∀ c ∈ w.changes s, c.Proper ∧ ∀ k : Queues, c.kind ∉ k.kinds.all := by
    intro c hc
    cases w with
    | write record now refused =>
        obtain rfl := List.mem_singleton.mp hc
        exact ⟨⟨rfl, rfl⟩, fun k => (administration_apart _ k).1⟩
    | remove kind id now refused =>
        obtain rfl := List.mem_singleton.mp hc
        exact ⟨trivial, fun k => (administration_apart _ k).1⟩
    | secret asked =>
        simp only [AdministrationWrite.changes, SecretWrite.changes] at hc
        split at hc
        · cases hc
        · obtain rfl := List.mem_singleton.mp hc
          exact ⟨rfl, fun k => (administration_apart .operator k).2⟩
  exact ⟨fun c hc => (heach c hc).1, fun c hc => (heach c hc).2, fun c hc => nomatch hc⟩

namespace Databases

/-- An act whose raw writes are a Message's or a Journey's own record. -/
def Act.Made : Act x k → Prop
  | .embedded act => ∀ op ∈ act.ops, op.Made
  | .administered _ => True

/-- What an act writes, before it is stamped. -/
def changes (digest : Publication → Bytes) (node : Databases) : Act x k → List Change
  | .embedded act => node.embedded.changes digest act
  | .administered write => write.changes node.administration

variable (codec : Codec) (sha : Bytes → Bytes) (digest : Publication → Bytes)

/-- What the acts of a run write. -/
def written (node : Databases) : List (Act x k) → List Change
  | [] => []
  | act :: acts => node.changes digest act ++ (node.after codec sha digest act).written acts

/-- Every database is sound. -/
structure Sound (numbers : Set ℕ) (node : Databases) : Prop where
  embedded : node.embedded.Sound numbers
  administration : node.administration.Sound numbers

variable {codec sha digest} {numbers : Set ℕ} {node : Databases}

theorem Sound.store (h : node.Sound numbers) (database : Schema.Database) :
    (node.store database).Sound numbers := by
  cases database with
  | runtime => exact h.embedded.runtime
  | administration => exact h.administration
  | audit => exact h.embedded.audit

theorem fresh_sound (numbers : Set ℕ) : Databases.fresh.Sound numbers :=
  ⟨Embedded.fresh_sound numbers, Store.empty_sound numbers⟩

/-- Each act leaves every database sound. -/
theorem Sound.after {act : Act x k} (h : node.Sound numbers) (hmade : act.Made)
    (hfits : ∀ c ∈ node.changes digest act, c.Fits (columnsOf numbers)) :
    (node.after codec sha digest act).Sound numbers := by
  cases act with
  | embedded act => exact ⟨h.embedded.after hmade hfits, h.administration⟩
  | administered write =>
      simp only [Databases.after]
      split
      · next administration hwritten =>
          exact ⟨h.embedded, EngineWrite.apply_sound (write.made_ok hwritten) h.administration
            (write.changes_made _) hfits⟩
      · exact h

theorem Sound.run {acts : List (Act x k)} (h : node.Sound numbers)
    (hmade : ∀ act ∈ acts, act.Made)
    (hfits : ∀ c ∈ node.written codec sha digest acts, c.Fits (columnsOf numbers)) :
    (node.run codec sha digest acts).Sound numbers := by
  induction acts generalizing node with
  | nil => exact h
  | cons act acts ih =>
      have hnext : (node.after codec sha digest act).Sound numbers :=
        h.after (hmade act (by simp)) fun c hc => hfits c (List.mem_append_left _ hc)
      exact ih hnext (fun act' hact => hmade act' (by simp [hact]))
        fun c hc => hfits c (List.mem_append_right _ hc)

/-- After any run of the node from nothing, a question is answered with the records of its database
that it finds, each once, in the order of the time it asks them by and then of their identifiers,
or the reverse: so many of them at most. -/
theorem searched_exact (query : Query) {acts : List (Act x k)} (hmade : ∀ act ∈ acts, act.Made)
    (hasked : query.ask.Fits)
    (hfits : ∀ c ∈ fresh.written codec sha digest acts,
      c.Fits (columnsOf {query.ask.read.number})) :
    ∃ found : List (ℕ × ℕ),
      found.Pairwise (fun a b => a.1 < b.1 ∨ a.1 = b.1 ∧ a.2 < b.2) ∧
      (∀ time id, (time, id) ∈ found ↔ query.ask.Finds
        ((fresh.run codec sha digest acts).store query.ask.plan.database) time id) ∧
      (fresh.run codec sha digest acts).searched query = .ok
        (((if query.newestFirst then found.reverse else found).take query.most).map Prod.snd) := by
  have hsound := (fresh_sound {query.ask.read.number}).run hmade hfits
  have hstore := hsound.store query.ask.plan.database
  obtain ⟨found, hordered, hmem, hfound⟩ :=
    hstore.find_ok query.ask.read_mem rfl hasked.asks
  refine ⟨found, hordered, fun time id => ?_, ?_⟩
  · rw [hmem, query.ask.answers_iff hstore.proper]
  · rw [searched, query.ask.named]
    exact congrArg Except.ok (hfound query.most query.newestFirst)

/-- Two audit records of failures and one of none, moved by the keeper one after another, and a
batch that panicked once its Journey was written; a handler and a secret set meanwhile. -/
def moving : List (Act fitting tagging) :=
  let at' (now : ℤ) : Moment := ⟨now, 3, .asWritten, none⟩
  let entry (id occurred : ℕ) (failed : Bool) : AuditEntry :=
    { id, facts := { occurredUnixNanos := occurred, failed } }
  let moved (number : ℕ) : List (Act fitting tagging) :=
    [.embedded .look, .embedded (.write 5), .embedded (.write 5),
      .embedded (.step (.group (at' 6) [.kept number]))]
  [.embedded (.step (.group (at' 0) [.audit (entry 4 9 true), .audit (entry 2 8 false)])),
    .administered (.write ⟨.handler, 7, [1], 0⟩ 1 none),
    .embedded (.step (.group (at' 1) [.audit (entry 3 9 true)])),
    .embedded (.panicked (at' 2) [.put .journey (.id 1) (Form.bytes { journey := 1 : JourneyRecord })]
      .written true),
    .embedded (.keep 10 64)] ++ moved 0 ++ moved 1 ++
      [.administered (.secret (setting 7 ⟨"ab", ab_fits⟩ false [1] 10))] ++ moved 2

theorem searched_exact_failed :
    ∃ found : List (ℕ × ℕ),
      found.Pairwise (fun a b => a.1 < b.1 ∨ a.1 = b.1 ∧ a.2 < b.2) ∧
      (∀ time id, (time, id) ∈ found ↔ (Ask.auditFailed ⟨0, 20⟩).Finds
        ((fresh.run ⟨fun _ => [], fun bs => bs⟩ (fun _ => []) (fun _ => []) moving).store
          .audit) time id) ∧
      (fresh.run ⟨fun _ => [], fun bs => bs⟩ (fun _ => []) (fun _ => []) moving).searched
        ⟨.auditFailed ⟨0, 20⟩, 5, true⟩ = .ok ((found.reverse.take 5).map Prod.snd) := by
  have hcolumns : ∀ c ∈ fresh.written ⟨fun _ => [], fun bs => bs⟩ (fun _ => []) (fun _ => [])
      moving, c.Fits {column | column ∈ [Column.failed, .occurredAt]} := by
    decide +kernel
  have hmade : ∀ act ∈ moving, act.Made := by
    have hjourney : ∃ record : JourneyRecord, 1 = record.journey ∧
        Form.bytes { journey := 1 : JourneyRecord } = Form.bytes record := ⟨_, rfl, rfl⟩
    simpa [moving, Act.Made, Embedded.Act.ops, Op.Made] using hjourney
  refine searched_exact ⟨.auditFailed ⟨0, 20⟩, 5, true⟩ hmade ⟨by decide, by decide⟩ ?_
  intro c hc content hvalue
  exact (hcolumns c hc content hvalue).mono (columnsOf_index (Ask.read_mem _))

example : (fresh.run ⟨fun _ => [], fun bs => bs⟩ (fun _ => []) (fun _ => []) moving).searched
    ⟨.auditFailed ⟨0, 20⟩, 5, true⟩ = .ok [4, 3] := by
  decide +kernel

end Databases

end Databases

end XmipPersist
