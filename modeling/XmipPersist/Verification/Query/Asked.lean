import XmipPersist.Verification.Query.Found

/-! # What a question finds, of the records there are

A question is of the records of one table: which of them it finds, and by which of their times. The
index it reads holds each of those under the values asked, so what it finds there are they.
-/

namespace XmipPersist

open Wire (Ask Query Span)

/-! ## Questions of records -/

/-- A record of a kind is kept in a store. -/
def Store.Has {α : Type} [Form α] (s : Store) (kind : Kind) (a : α) : Prop :=
  ∃ key, s.records (kind, key) = some (Form.bytes a)

def Wire.Span.Holds (span : Span) (time : ℕ) : Prop :=
  span.fromUnixNanos ≤ time ∧ time ≤ span.toUnixNanos

/-- The record of an identifier, by the time a question asks it by, that the question finds: no
time where it asks by none. -/
def Wire.Ask.Finds (s : Store) (time id : ℕ) : Ask → Prop
  | messagesInState state updated => ∃ j : JourneyRecord, s.Has .journey j ∧ j.journey = id ∧
      j.facts.state = state ∧ j.facts.updatedUnixNanos = time ∧ updated.Holds time
  | messagesAtSendPort sendPort state => ∃ j : JourneyRecord, s.Has .journey j ∧ j.journey = id ∧
      j.facts.sendPort = some sendPort ∧ j.facts.state = state ∧ time = 0
  | journeysAfter journey => ∃ j : JourneyRecord, s.Has .journey j ∧ j.journey = id ∧
      j.facts.previousJourney = some journey ∧ time = 0
  | journeysHolding message => ∃ j : JourneyRecord, s.Has .journey j ∧ j.journey = id ∧
      j.facts.message = some message ∧ time = 0
  | messagesCreated created => ∃ m : MessageRecord, s.Has .message m ∧ m.message = id ∧
      m.facts.createdUnixNanos = time ∧ created.Holds time
  | messagesFromParty party created => ∃ m : MessageRecord, s.Has .message m ∧ m.message = id ∧
      m.facts.party = some party ∧ m.facts.createdUnixNanos = time ∧ created.Holds time
  | messagesOfContract contract created => ∃ m : MessageRecord, s.Has .message m ∧
      m.message = id ∧ m.facts.contract = some contract ∧ m.facts.createdUnixNanos = time ∧
        created.Holds time
  | messagesAfter message => ∃ m : MessageRecord, s.Has .message m ∧ m.message = id ∧
      m.facts.previousMessage = some message ∧ time = 0
  | held queue span => ∃ h : Held, s.Has .held h ∧ h.hold.journey = id ∧ h.hold.queue = queue ∧
      h.heldUnixNanos = time ∧ span.Holds time
  | deadMessages queue span => ∃ d : Dead, s.Has .dead d ∧ d.message.message = id ∧
      d.message.queue = queue ∧ nanos d.message.receivedUnixNanos = time ∧ span.Holds time
  | auditOccurred occurred => ∃ a : KeptAudit, s.Has .keptAudit a ∧ a.id = id ∧
      a.facts.occurredUnixNanos = time ∧ occurred.Holds time
  | auditOfJourney journey => ∃ a : KeptAudit, s.Has .keptAudit a ∧ a.id = id ∧
      a.facts.journey = some journey ∧ time = 0
  | auditOfMessage message => ∃ a : KeptAudit, s.Has .keptAudit a ∧ a.id = id ∧
      a.facts.message = some message ∧ time = 0
  | auditOfArtifact artifact occurred => ∃ a : KeptAudit, s.Has .keptAudit a ∧ a.id = id ∧
      a.facts.artifactName = some artifact ∧ a.facts.occurredUnixNanos = time ∧
        occurred.Holds time
  | auditFailed occurred => ∃ a : KeptAudit, s.Has .keptAudit a ∧ a.id = id ∧
      a.facts.failed = true ∧ a.facts.occurredUnixNanos = time ∧ occurred.Holds time
  | auditOfStream stream => ∃ row : KeptStream, s.Has .keptAuditStreams row ∧ row.audit = id ∧
      row.stream.stream = stream ∧ time = 0
  | auditChain writer start => ∃ a : KeptAudit, s.Has .keptAudit a ∧ a.id = id ∧
      a.facts.writer = writer ∧ a.facts.position = time ∧ start ≤ time ∧ time ≤ u64Max
  | administrationUpdated kind updated => ∃ r : AdministrationRecord,
      s.Has (.administration kind) r ∧ r.id = id ∧ r.updatedUnixNanos = time ∧ updated.Holds time

/-- A question whose values are within their machine types' bounds. -/
structure Wire.Ask.Fits (ask : Ask) : Prop where
  equal : ∀ v ∈ ask.values.1, v.Fits
  span : ∀ span ∈ ask.values.2, span.fromUnixNanos ≤ u64Max ∧ span.toUnixNanos ≤ u64Max

/-! ## Answers as records -/

section Answers

variable {s : Store} {searched : Searched} {index : Index} {equal : List Value}
  {span : Option (ℕ × ℕ)} {time id : ℕ}

/-- The records that answer are those of the table with the values asked. -/
theorem Store.answers_iff {α : Type} [Columned α] (hrow : searched.row = rowOf α)
    (hindex : index ∈ searched.indexes) :
    s.Answers searched index equal span time id ↔ ∃ (p : Place) (a : α),
      s.records p = some (Form.bytes a) ∧ Searched.of p.1 = some searched ∧ Columned.id a = id ∧
        index.takes (Columned.row a) ∧
          ∃ values, (Columned.row a).values index.columns = some values ∧
            Value.Asked equal span time values := by
  constructor
  · rintro ⟨p, content, row, values, hp, hentered, hasked⟩
    have hlaid := hentered.laid
    rw [hrow] at hlaid
    obtain ⟨a, rfl, rfl, rfl⟩ := rowOf_ok hlaid
    exact ⟨p, a, hp, hentered.table, rfl, hentered.takes, values, hentered.holds, hasked⟩
  · rintro ⟨p, a, hp, htable, rfl, htakes, values, hvalues, hasked⟩
    have hlaid : searched.row (Form.bytes a) = .ok (Columned.row a, Columned.id a) := by
      rw [hrow, rowOf, Form.fromBytes_bytes]
      rfl
    exact ⟨p, Form.bytes a, Columned.row a, values, hp,
      ⟨htable, hlaid, hindex, htakes, hvalues, rfl⟩, hasked⟩

/-- In a table of one kind. -/
theorem Store.answers_has {α : Type} [Columned α] (hrow : searched.row = rowOf α)
    (hindex : index ∈ searched.indexes) {kind : Kind}
    (hkind : ∀ kind', Searched.of kind' = some searched ↔ kind' = kind) :
    s.Answers searched index equal span time id ↔ ∃ a : α, s.Has kind a ∧ Columned.id a = id ∧
      index.takes (Columned.row a) ∧
        ∃ values, (Columned.row a).values index.columns = some values ∧
          Value.Asked equal span time values := by
  rw [Store.answers_iff hrow hindex]
  constructor
  · rintro ⟨⟨kind', key⟩, a, hp, htable, hrest⟩
    obtain rfl := (hkind kind').mp htable
    exact ⟨a, ⟨key, hp⟩, hrest⟩
  · rintro ⟨a, ⟨key, hp⟩, hrest⟩
    exact ⟨(kind, key), a, hp, (hkind kind).mpr rfl, hrest⟩

end Answers

/-! ## The index each question reads -/

namespace Wire.Ask

/-- The table a question is of. -/
def searched : Ask → Searched
  | messagesInState .. | messagesAtSendPort .. | journeysAfter .. | journeysHolding .. => .journey
  | messagesCreated .. | messagesFromParty .. | messagesOfContract .. | messagesAfter .. =>
      .message
  | held .. => .held
  | deadMessages .. => .dead
  | auditOccurred .. | auditOfJourney .. | auditOfMessage .. | auditOfArtifact ..
  | auditFailed .. | auditChain .. => .audit
  | auditOfStream .. => .auditStream
  | administrationUpdated .. => .administration

/-- The index it reads, as the table has it. -/
def read : Ask → Index
  | messagesInState .. => ⟨1, "journey_state", [.state, .updatedAt], none⟩
  | messagesAtSendPort .. => ⟨2, "journey_send_port", [.sendPort, .state], none⟩
  | journeysAfter .. => ⟨3, "journey_previous", [.previousJourney], none⟩
  | journeysHolding .. => ⟨4, "journey_message", [.message], none⟩
  | messagesCreated .. => ⟨5, "message_created", [.createdAt], none⟩
  | messagesFromParty .. => ⟨6, "message_party", [.party, .createdAt], none⟩
  | messagesOfContract .. => ⟨7, "message_contract", [.contract, .createdAt], none⟩
  | messagesAfter .. => ⟨8, "message_previous", [.previousMessage], none⟩
  | held .. => ⟨9, "held_time", [.queue, .heldAt], none⟩
  | deadMessages .. => ⟨10, "dead_message_time", [.queue, .queuedAt], none⟩
  | auditOccurred .. => ⟨11, "audit_occurred", [.occurredAt], none⟩
  | auditOfJourney .. => ⟨12, "audit_journey", [.journey], none⟩
  | auditOfMessage .. => ⟨13, "audit_message", [.message], none⟩
  | auditOfArtifact .. => ⟨14, "audit_artifact", [.artifactName, .occurredAt], none⟩
  | auditFailed .. => ⟨15, "audit_failed", [.failed, .occurredAt], some .failed⟩
  | auditOfStream .. => ⟨18, "audit_stream_stream", [.stream], none⟩
  | auditChain .. => ⟨19, "audit_chain", [.writer, .position], none⟩
  | administrationUpdated .. => ⟨16, "administration_updated", [.kind, .updatedAt], none⟩

variable {ask : Ask}

theorem named (ask : Ask) :
    Index.named ask.plan.database (ask.plan.table, ask.plan.index) = .ok ask.read := by
  cases ask <;> rfl

theorem read_mem (ask : Ask) : ask.read ∈ ask.searched.indexes := by
  cases ask <;> simp [read, searched, Searched.indexes]

/-- A question asks as many values as its index has columns, of their kinds. -/
theorem Fits.asks (h : ask.Fits) : ask.read.Asks ask.plan.equal ask.plan.range where
  shape := by cases ask <;> rfl
  fits := h.equal
  columns := by
    cases ask with
    | messagesAtSendPort | journeysAfter | journeysHolding | messagesAfter | auditOfJourney
    | auditOfMessage | auditOfStream => rfl
    | auditChain writer start =>
        obtain ⟨hfirst, hlast⟩ := h.span ⟨start, u64Max⟩ rfl
        exact ⟨hfirst, hlast, .position, rfl, .inr rfl⟩
    | messagesInState state span | messagesCreated span | messagesFromParty party span
    | messagesOfContract contract span | held queue span | deadMessages queue span
    | auditOccurred span | auditOfArtifact artifact span | auditFailed span
    | administrationUpdated kind span =>
        obtain ⟨hfirst, hlast⟩ := h.span span rfl
        exact ⟨hfirst, hlast, _, rfl, .inl rfl⟩

end Wire.Ask

/-! ## What each index finds -/

section Finds

variable {s : Store} {time id : ℕ}

/-- The table of a kind that keeps one kind of record. -/
theorem Searched.of_iff {searched : Searched} (hne : searched ≠ .administration) {kind : Kind}
    (h : Searched.of kind = some searched) (kind' : Kind) :
    Searched.of kind' = some searched ↔ kind' = kind := by
  constructor
  · intro h'
    exact Searched.kind_eq h' h hne
  · rintro rfl
    exact h

/-- A question finds of a table's records those whose columns hold what it asks. -/
theorem Wire.Ask.answers_of (α : Type) [Columned α] (ask : Ask) (kind : Kind)
    (hrow : ask.searched.row = rowOf α) (hne : ask.searched ≠ .administration)
    (hkind : Searched.of kind = some ask.searched) :
    s.Answers ask.searched ask.read ask.plan.equal ask.plan.range time id ↔
      ∃ a : α, s.Has kind a ∧ Columned.id a = id ∧ ask.read.takes (Columned.row a) ∧
        ∃ values, (Columned.row a).values ask.read.columns = some values ∧
          Value.Asked ask.plan.equal ask.plan.range time values :=
  Store.answers_has hrow ask.read_mem (Searched.of_iff hne hkind)

/-- What an administration question finds is kept under its kind. -/
theorem Wire.Ask.answers_administration (hs : s.Proper) (kind : AdministrationKind)
    (updated : Span) :
    s.Answers .administration (administrationUpdated kind updated).read
        (administrationUpdated kind updated).plan.equal
        (administrationUpdated kind updated).plan.range time id ↔
      (administrationUpdated kind updated).Finds s time id := by
  have hmem : (administrationUpdated kind updated).read ∈ Searched.administration.indexes :=
    read_mem _
  rw [Store.answers_iff rfl hmem]
  constructor
  · rintro ⟨p, a, hp, htable, rfl, -, values, hvalues, hasked⟩
    have hrow : Searched.administration.row (Form.bytes a) =
        .ok (Columned.row a, Columned.id a) := rfl
    obtain ⟨kind', rfl, -⟩ := administration_place (hs p _ hp) htable hrow
    have hholds := hs _ _ hp
    obtain rfl : a.kind = kind' := hholds.1
    obtain ⟨⟨v, hv, rfl⟩, hspan⟩ := hasked
    have hcolumns : a.kind.word = kind.word ∧ v = .time a.updatedUnixNanos := by
      simpa [Row.values, Row.value, Columned.row, Ask.values, Ask.plan, Ask.index, Ask.read,
        eq_comm] using hvalues
    obtain ⟨hword, rfl⟩ := hcolumns
    obtain rfl := AdministrationKind.word_inj hword
    have htime : a.updatedUnixNanos = time := by simpa [Value.Counts] using hv
    exact ⟨a, ⟨_, hp⟩, rfl, htime, hspan⟩
  · rintro ⟨a, ⟨key, hp⟩, rfl, rfl, hspan⟩
    have hholds := hs _ _ hp
    cases key with
    | id id =>
        obtain ⟨rfl, -⟩ := hholds
        refine ⟨_, a, hp, rfl, rfl, rfl, [.text a.kind.word, .time a.updatedUnixNanos], ?_, ?_⟩
        · simp [Row.values, Row.value, Columned.row, Ask.read]
        · exact ⟨⟨_, .inl rfl, rfl⟩, hspan⟩
    | pair | triple | name | next | kept => exact hholds.elim

/-- What a question finds in its index are the records it is of. -/
theorem Wire.Ask.answers_iff (hs : s.Proper) (ask : Ask) :
    s.Answers ask.searched ask.read ask.plan.equal ask.plan.range time id ↔
      ask.Finds s time id := by
  cases ask with
  | administrationUpdated kind updated => exact answers_administration hs kind updated
  | messagesInState | messagesAtSendPort | journeysAfter | journeysHolding =>
      rw [Ask.answers_of JourneyRecord _ .journey rfl (by simp [searched]) rfl]
      refine exists_congr fun a => and_congr_right fun _ => and_congr_right fun _ => ?_
      simp [Index.takes, Row.values, Row.value, Columned.row, Value.Asked, Value.Counts,
        Ask.plan, Ask.index, Ask.values, Ask.read, Span.Holds, and_assoc, Option.bind_eq_some_iff]
  | messagesCreated | messagesFromParty | messagesOfContract | messagesAfter =>
      rw [Ask.answers_of MessageRecord _ .message rfl (by simp [searched]) rfl]
      refine exists_congr fun a => and_congr_right fun _ => and_congr_right fun _ => ?_
      simp [Index.takes, Row.values, Row.value, Columned.row, Value.Asked, Value.Counts,
        Ask.plan, Ask.index, Ask.values, Ask.read, Span.Holds, and_assoc, Option.bind_eq_some_iff]
  | held =>
      rw [Ask.answers_of Held _ .held rfl (by simp [searched]) rfl]
      refine exists_congr fun a => and_congr_right fun _ => and_congr_right fun _ => ?_
      simp [Index.takes, Row.values, Row.value, Columned.row, Value.Asked, Value.Counts,
        Ask.plan, Ask.index, Ask.values, Ask.read, Span.Holds, and_assoc]
  | deadMessages =>
      rw [Ask.answers_of Dead _ .dead rfl (by simp [searched]) rfl]
      refine exists_congr fun a => and_congr_right fun _ => and_congr_right fun _ => ?_
      simp [Index.takes, Row.values, Row.value, Columned.row, Value.Asked, Value.Counts,
        Ask.plan, Ask.index, Ask.values, Ask.read, Span.Holds, and_assoc]
  | auditOccurred | auditOfJourney | auditOfMessage | auditOfArtifact | auditFailed
  | auditChain =>
      rw [Ask.answers_of KeptAudit _ .keptAudit rfl (by simp [searched]) rfl]
      refine exists_congr fun a => and_congr_right fun _ => and_congr_right fun _ => ?_
      simp [Index.takes, Row.values, Row.value, Columned.row, Value.Asked, Value.Counts,
        Ask.plan, Ask.index, Ask.values, Ask.read, Span.Holds, and_assoc, Option.bind_eq_some_iff]
  | auditOfStream =>
      rw [Ask.answers_of KeptStream _ .keptAuditStreams rfl (by simp [searched]) rfl]
      refine exists_congr fun a => and_congr_right fun _ => and_congr_right fun _ => ?_
      simp [Index.takes, Row.values, Row.value, Columned.row, Value.Asked, Ask.plan, Ask.index,
        Ask.values, Ask.read]

end Finds

end XmipPersist
