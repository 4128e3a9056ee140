import XmipPersist.Model.Wire
import XmipPersist.Verification.Wire.Records

/-! # Every request, answer and frame to a standby is read back as it was -/

namespace XmipPersist.Wire

variable {β : Type} {p : Primitives} {x : Secrets}

/-! ## Queries -/

theorem Span.forms : Forms p Span.writeForm (Span.readForm p) := by
  intro span h rest
  simp only [writeForm, Sink.fits_all, List.forall_mem_cons] at h
  simp [-bind_pure_comp, -StateT.run_bind, writeForm, readForm, h]
  rfl

theorem Ask.forms : Forms p Ask.writeForm (Ask.readForm p) := by
  intro ask h rest
  have hid := p.u128_forms
  have htext := p.text_forms
  have hspan : Forms p Span.writeForm (Span.readForm p) := Span.forms
  cases ask with
  | messagesInState => exact htext.run_two hspan rfl h rest
  | messagesAtSendPort => exact htext.run_two htext rfl h rest
  | journeysAfter => exact hid.run_one rfl h rest
  | journeysHolding => exact hid.run_one rfl h rest
  | messagesCreated => exact hspan.run_one rfl h rest
  | messagesFromParty => exact htext.run_two hspan rfl h rest
  | messagesOfContract => exact htext.run_two hspan rfl h rest
  | messagesAfter => exact hid.run_one rfl h rest
  | held => exact hid.run_two hspan rfl h rest
  | deadMessages => exact hid.run_two hspan rfl h rest
  | auditOccurred => exact hspan.run_one rfl h rest
  | auditOfJourney => exact hid.run_one rfl h rest
  | auditOfMessage => exact hid.run_one rfl h rest
  | auditOfArtifact => exact htext.run_two hspan rfl h rest
  | auditFailed => exact hspan.run_one rfl h rest
  | auditOfStream => exact hid.run_one rfl h rest
  | auditChain => exact htext.run_two p.u64_forms rfl h rest
  | administrationUpdated => exact AdministrationKind.forms.run_two hspan rfl h rest

theorem Query.forms : Forms p Query.writeForm (Query.readForm p) := by
  intro query h rest
  simp only [writeForm, Sink.fits_all, List.forall_mem_cons] at h
  simp [-bind_pure_comp, -StateT.run_bind, writeForm, readForm, Ask.forms.run, h]
  rfl

/-! ## Secrets -/

theorem run_liftM {α : Type} (a : α) (f : α → Cursor β) (rest : Bytes) :
    ((liftM (Except.ok a : Except String α) : Cursor α) >>= f).run rest = (f a).run rest := rfl

theorem run_name {name : x.Name} (h : Sink.fits.text (x.asStr name)) (f : x.Name → Cursor β)
    (rest : Bytes) :
    (readName x p >>= f).run (p.sink.text (x.asStr name) ++ rest) = (f name).run rest := by
  rw [readName, bind_assoc, p.run_text h, x.newName_asStr]
  rfl

theorem run_kind {kind : x.SecretKind} (h : writeKind x Sink.fits kind)
    (f : x.SecretKind → Cursor β) (rest : Bytes) :
    (readKind x p >>= f).run (writeKind x p.sink kind ++ rest) = (f kind).run rest := by
  rw [readKind, bind_assoc]
  refine (p.run_text h _ _).trans ?_
  rw [x.named_word]
  rfl

theorem SecretRecord.forms :
    Forms p (SecretRecord.writeForm (x := x)) (SecretRecord.readForm x p) := by
  intro record h rest
  simp only [writeForm, Sink.fits_all, List.forall_mem_cons] at h
  simp [-bind_pure_comp, -StateT.run_bind, writeForm, readForm, run_name, run_kind, run_liftM, h,
    x.newSecret_parts]
  rfl

theorem SecretEntry.forms :
    Forms p (SecretEntry.writeForm (x := x)) (SecretEntry.readForm x p) := by
  intro entry h rest
  simp only [writeForm, Sink.fits_all, List.forall_mem_cons] at h
  simp [-bind_pure_comp, -StateT.run_bind, writeForm, readForm, run_name, run_kind, h]
  rfl

theorem name_forms : Forms p (fun out name => out.text (x.asStr name)) (readName x p) := by
  intro name h rest
  rw [← bind_pure (readName x p)]
  exact run_name h pure rest

/-! ## Requests and answers -/

theorem Request.forms : Forms p (Request.writeForm (x := x)) (Request.readForm p) := by
  intro request h rest
  have hid := p.u128_forms
  have h64 := p.u64_forms
  have h32 := p.u32_forms
  cases request with
  | writeChunk => exact StreamChunk.forms.run_one rfl h rest
  | readChunk => exact hid.run_two h32 rfl h rest
  | writeMessage => exact MessageRecord.forms.run_one rfl h rest
  | readMessage => exact hid.run_one rfl h rest
  | writeJourney => exact JourneyRecord.forms.run_one rfl h rest
  | readJourney => exact hid.run_one rfl h rest
  | claim => exact XmipPersist.Claim.forms.run_two h64 rfl h rest
  | renew => exact XmipPersist.Claim.forms.list.run_two h64 rfl h rest
  | release => exact XmipPersist.Claim.forms.run_one rfl h rest
  | handOn => exact HandOn.forms.run_one rfl h rest
  | writeAudit => exact AuditEntry.forms.run_one rfl h rest
  | keepAudit => exact h32.run_two h64 rfl h rest
  | readKeptAudit => exact hid.run_one rfl h rest
  | writeAdministration => exact AdministrationRecord.forms.run_one rfl h rest
  | readAdministration => exact AdministrationKind.forms.run_two hid rfl h rest
  | removeAdministration => exact AdministrationKind.forms.run_two hid rfl h rest
  | publish => exact Publication.forms.run_one rfl h rest
  | readHeld => exact hid.run_three h64 h32 rfl h rest
  | readDead => exact hid.run_three h64 h32 rfl h rest
  | readDeadMessage => exact hid.run_two hid rfl h rest
  | replay => exact Replay.forms.run_one rfl h rest
  | query => exact Query.forms.run_one rfl h rest
  | writeStream => exact StreamChunk.forms.run_two StreamRecord.forms rfl h rest
  | readStream => exact hid.run_one rfl h rest
  | readKeptAuditChunk id stream index =>
      simp only [writeForm, writeLate, Sink.fits_all, List.forall_mem_cons] at h
      simp [-bind_pure_comp, -StateT.run_bind, writeForm, writeLate, readForm, h]
      cases stream <;> rfl
  | readKeptAuditStream => exact hid.run_two hid rfl h rest
  | readFailed => exact hid.run_three h64 h32 rfl h rest
  | readDue queue part start most =>
      simp only [writeForm, writeLate, Sink.fits_all, List.forall_mem_cons] at h
      simp [-bind_pure_comp, -StateT.run_bind, writeForm, writeLate, readForm, DuePart.forms.run, h]
      rfl
  | standing => exact (p.run_byte h _ _).trans rfl
  | follow => exact Standby.Follow.forms.run_one rfl h rest
  | turn => exact Turn.forms.run_one rfl h rest
  | readInstance => exact hid.run_one rfl h rest
  | readInstanceKey => exact hid.run_one rfl h rest
  | writeSecret => exact SecretRecord.forms.run_one rfl h rest
  | readSecret => exact name_forms.run_one rfl h rest
  | listSecrets => exact (p.run_byte h _ _).trans rfl

theorem DueQueue.forms : Forms p DueQueue.writeForm (DueQueue.readForm p) := by
  intro queue h rest
  simp only [writeForm, Sink.fits_all, List.forall_mem_cons] at h
  simp [-bind_pure_comp, -StateT.run_bind, writeForm, readForm, Held.forms.run_list, run_due, h]
  rfl

theorem Answer.forms : Forms p (Answer.writeForm (x := x)) (Answer.readForm p) := by
  intro answer h rest
  cases answer with
  | done => exact (p.run_byte h _ _).trans rfl
  | chunk => exact StreamChunk.forms.optional.run_one rfl h rest
  | message => exact MessageRecord.forms.optional.run_one rfl h rest
  | journey => exact JourneyRecord.forms.optional.run_one rfl h rest
  | claim => exact XmipPersist.Claim.forms.optional.run_one rfl h rest
  | claims => exact XmipPersist.Claim.forms.list.run_one rfl h rest
  | yes => exact p.flag_forms.run_one rfl h rest
  | count => exact p.u32_forms.run_one rfl h rest
  | audit => exact KeptAudit.forms.optional.run_one rfl h rest
  | administration => exact AdministrationRecord.forms.optional.run_one rfl h rest
  | held => exact HeldQueue.forms.run_one rfl h rest
  | deadQueue => exact (Paged.forms Dead.forms).run_one rfl h rest
  | dead => exact DeadEntry.forms.run_one rfl h rest
  | replayed => exact Replayed.forms.run_one rfl h rest
  | refused => exact p.text_forms.run_two p.text_forms rfl h rest
  | failed => exact p.text_forms.run_one rfl h rest
  | records => exact p.u128_forms.each.run_one rfl h rest
  | stream => exact StreamRecord.forms.optional.run_one rfl h rest
  | bytes => exact p.counted_forms.optional.run_one rfl h rest
  | failedQueue => exact (Paged.forms Failed.forms).run_one rfl h rest
  | dueQueue => exact DueQueue.forms.run_one rfl h rest
  | standing => exact Standby.Standing.forms.run_one rfl h rest
  | standby => exact p.text_forms.run_one rfl h rest
  | instance' => exact InstanceRecord.forms.optional.run_one rfl h rest
  | secret => exact SecretRecord.forms.optional.run_one rfl h rest
  | secrets => exact SecretEntry.forms.list.run_one rfl h rest

/-! ## Frames to a standby -/

theorem change_forms : Forms p writeChange (readChange p) := by
  intro change h rest
  simp only [writeChange, Sink.fits_all, List.forall_mem_cons] at h
  simp [-bind_pure_comp, -StateT.run_bind, writeChange, readChange, p.counted_forms.run_optional, h]
  rfl

theorem entry_forms : Forms p writeEntry (readEntry p) := by
  intro entry h rest
  simp only [writeEntry, Sink.fits_all, List.forall_mem_cons] at h
  simp [-bind_pure_comp, -StateT.run_bind, writeEntry, readEntry, h]
  rfl

namespace Shipped

/-- The database a frame is of, where it is of one. -/
def database? : Shipped → Option ℕ
  | copy database .. => some database
  | entries database _ => some database
  | copied database _ => some database
  | _ => none

/-- Every database a frame is of is one of those a Storage node has. -/
def Numbered (shipped : Shipped) : Prop := ∀ database ∈ shipped.database?, database < databases

theorem run_database {database : ℕ} (h : database < databases) (f : ℕ → Cursor β)
    (rest : Bytes) :
    (readDatabase p >>= f).run (p.sink.byte database ++ rest) = (f database).run rest := by
  have hbyte : Sink.fits.byte database := h.trans (by decide)
  rw [readDatabase, bind_assoc, p.run_byte hbyte, if_pos h]
  rfl

theorem back {shipped : Shipped} (h : shipped.writeForm Sink.fits)
    (hnumbered : shipped.Numbered) : ReadsBack (writeForm p.sink) (readForm p) shipped := by
  intro rest
  cases shipped with
  | beat => exact p.u64_forms.run_one rfl h rest
  | copy database number changes =>
      have hdatabase : database < databases := hnumbered _ rfl
      simp only [writeForm, Sink.fits_all, List.forall_mem_cons] at h
      simp [-bind_pure_comp, -StateT.run_bind, writeForm, readForm, run_database hdatabase,
        change_forms.each.run, h]
      rfl
  | whole => exact p.u128_forms.run_three p.u64_forms p.counted_forms.each rfl h rest
  | entries database found =>
      have hdatabase : database < databases := hnumbered _ rfl
      simp only [writeForm, Sink.fits_all, List.forall_mem_cons] at h
      simp [-bind_pure_comp, -StateT.run_bind, writeForm, readForm, run_database hdatabase,
        entry_forms.each.run, h]
      rfl
  | copied database next =>
      have hdatabase : database < databases := hnumbered _ rfl
      simp only [writeForm, Sink.fits_all, List.forall_mem_cons] at h
      simp [-bind_pure_comp, -StateT.run_bind, writeForm, readForm, run_database hdatabase, h]
      rfl
  | declined => exact p.text_forms.run_one rfl h rest

end Shipped

end XmipPersist.Wire
