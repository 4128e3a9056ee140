import XmipPersist.Model.Form

/-! # Every record is read back from its one binary form -/

namespace XmipPersist

variable {α β : Type} {p : Primitives}

/-! ## Parts that may be none, and parts of which there are several -/

namespace Primitives

@[simp] theorem run_text_maybe {o : Option String} (h : Sink.fits.optional Sink.fits.text o)
    (f : Option String → Cursor β) (rest : Bytes) :
    (p.readOptional p.readText >>= f).run (p.sink.optional p.sink.text o ++ rest) =
      (f o).run rest :=
  text_forms.optional.run h f rest

@[simp] theorem run_id_maybe {o : Option ℕ} (h : Sink.fits.optional Sink.fits.u128 o)
    (f : Option ℕ → Cursor β) (rest : Bytes) :
    (p.readOptional p.readU128 >>= f).run (p.sink.optional p.sink.u128 o ++ rest) =
      (f o).run rest :=
  u128_forms.optional.run h f rest

@[simp] theorem run_u64_maybe {o : Option ℕ} (h : Sink.fits.optional Sink.fits.u64 o)
    (f : Option ℕ → Cursor β) (rest : Bytes) :
    (p.readOptional p.readU64 >>= f).run (p.sink.optional p.sink.u64 o ++ rest) =
      (f o).run rest :=
  u64_forms.optional.run h f rest

@[simp] theorem run_ids {ids : List ℕ} (h : Sink.fits.each Sink.fits.u128 ids)
    (f : List ℕ → Cursor β) (rest : Bytes) :
    (p.readEach p.readU128 >>= f).run (p.sink.each p.sink.u128 ids ++ rest) = (f ids).run rest :=
  u128_forms.each.run h f rest

end Primitives

section

variable {write : {β : Type} → Sink β → α → β} {read : Cursor α} {a : α} {o : Option α}
  {as : List α}

theorem Forms.run_optional (h : Forms p write read) (ho : Sink.fits.optional (write Sink.fits) o)
    (f : Option α → Cursor β) (rest : Bytes) :
    (p.readOptional read >>= f).run (p.sink.optional (write p.sink) o ++ rest) = (f o).run rest :=
  h.optional.run ho f rest

theorem Forms.run_list (h : Forms p write read) (has : Sink.fits.list (write Sink.fits) as)
    (f : List α → Cursor β) (rest : Bytes) :
    (p.readList read >>= f).run (p.sink.list (write p.sink) as ++ rest) = (f as).run rest :=
  h.list.run has f rest

end

/-! ## Streams, Messages and Journeys -/

theorem StreamRecord.forms : Forms p StreamRecord.writeForm (StreamRecord.readForm p) := by
  intro record h rest
  simp only [writeForm, Sink.fits_all, List.forall_mem_cons] at h
  simp [-bind_pure_comp, -StateT.run_bind, writeForm, readForm, h]
  rfl

theorem StreamChunk.forms : Forms p StreamChunk.writeForm (StreamChunk.readForm p) := by
  intro chunk h rest
  simp only [writeForm, Sink.fits_all, List.forall_mem_cons] at h
  simp [-bind_pure_comp, -StateT.run_bind, writeForm, readForm, h]
  rfl

theorem JourneyFacts.forms : Forms p JourneyFacts.writeForm (JourneyFacts.readForm p) := by
  intro facts h rest
  simp only [writeForm, Sink.fits_all, List.forall_mem_cons] at h
  simp [-bind_pure_comp, -StateT.run_bind, writeForm, readForm, h]
  rfl

theorem MessageFacts.forms : Forms p MessageFacts.writeForm (MessageFacts.readForm p) := by
  intro facts h rest
  simp only [writeForm, Sink.fits_all, List.map_cons, List.map_nil, List.cons_append,
    List.nil_append, List.forall_mem_cons] at h
  simp [-bind_pure_comp, -StateT.run_bind, writeForm, readForm, h]
  rfl

theorem MessageRecord.forms : Forms p MessageRecord.writeForm (MessageRecord.readForm p) := by
  intro record h rest
  simp only [writeForm, Sink.fits_all, List.forall_mem_cons] at h
  simp [-bind_pure_comp, -StateT.run_bind, writeForm, readForm, MessageFacts.forms.run, h]
  rfl

theorem JourneyRecord.forms : Forms p JourneyRecord.writeForm (JourneyRecord.readForm p) := by
  intro record h rest
  simp only [writeForm, Sink.fits_all, List.forall_mem_cons] at h
  simp [-bind_pure_comp, -StateT.run_bind, writeForm, readForm, JourneyFacts.forms.run, h]
  rfl

/-! ## Claims -/

theorem Cursor.run_isEmpty {s : Bytes} (hs : s ≠ []) (f : Bool → Cursor β) :
    (Cursor.isEmpty >>= f).run s = (f false).run s := by
  cases s with
  | nil => exact absurd rfl hs
  | cons first rest => rfl

/-- A claim's fence is always written, so that its reader finds one. -/
theorem Claim.forms : Forms p Claim.writeForm (Claim.readForm p) := by
  intro claim h rest
  simp only [writeForm, Sink.fits_all, List.forall_mem_cons] at h
  have hne : p.sink.u64 claim.fence ++ rest ≠ [] :=
    List.append_ne_nil_of_left_ne_nil (p.u64_ne claim.fence) rest
  simp [-bind_pure_comp, -StateT.run_bind, writeForm, readForm, Cursor.run_isEmpty hne, h]
  rfl

/-! ## Administration records -/

theorem AdministrationKind.numbered_number (kind : AdministrationKind) :
    numbered kind.number = .ok kind := by
  cases kind <;> rfl

theorem AdministrationKind.forms :
    Forms p AdministrationKind.writeForm (AdministrationKind.readForm p) := by
  intro kind h rest
  rw [readForm]
  refine (p.run_byte h _ _).trans ?_
  rw [numbered_number]
  rfl

theorem AdministrationRecord.forms : Forms p AdministrationRecord.writeForm (AdministrationRecord.readForm p) := by
  intro record h rest
  simp only [writeForm, Sink.fits_all, List.forall_mem_cons] at h
  simp [-bind_pure_comp, -StateT.run_bind, writeForm, readForm, AdministrationKind.forms.run, h]
  rfl

/-! ## Audit records -/

theorem AuditFacts.forms : Forms p AuditFacts.writeForm (AuditFacts.readForm p) := by
  intro facts h rest
  simp only [writeForm, Sink.fits_all, List.map_cons, List.map_nil, List.cons_append,
    List.nil_append, List.forall_mem_cons] at h
  simp [-bind_pure_comp, -StateT.run_bind, writeForm, readForm, h]
  rfl

theorem Audited.forms : Forms p Audited.writeForm (Audited.readForm p) := by
  intro audited h rest
  simp only [writeForm, Sink.fits_all, List.forall_mem_cons] at h
  simp [-bind_pure_comp, -StateT.run_bind, writeForm, readForm, h]
  rfl

theorem body_forms : Forms p (fun out (body : Bytes × Option Audited) => writeBody out body.1 body.2)
    (readBody p) := by
  intro body h rest
  simp only [writeBody, Sink.fits_all, List.forall_mem_cons] at h
  simp [-bind_pure_comp, -StateT.run_bind, writeBody, readBody, Audited.forms.run_optional, h]
  rfl

theorem run_body {body : Bytes} {audited : Option Audited} (h : writeBody Sink.fits body audited)
    (f : Bytes × Option Audited → Cursor β) (rest : Bytes) :
    (readBody p >>= f).run (writeBody p.sink body audited ++ rest) = (f (body, audited)).run rest :=
  body_forms.run (a := (body, audited)) h f rest

theorem AuditEntry.forms : Forms p AuditEntry.writeForm (AuditEntry.readForm p) := by
  intro entry h rest
  simp only [writeForm, Sink.fits_all, List.forall_mem_cons] at h
  simp [-bind_pure_comp, -StateT.run_bind, writeForm, readForm, run_body, AuditFacts.forms.run, h]
  rfl

theorem KeptAudit.forms : Forms p KeptAudit.writeForm (KeptAudit.readForm p) := by
  intro kept h rest
  simp only [writeForm, Sink.fits_all, List.forall_mem_cons] at h
  simp [-bind_pure_comp, -StateT.run_bind, writeForm, readForm, AuditFacts.forms.run, h]
  rfl

/-! ## Queues -/

theorem Paged.forms {write : {β : Type} → Sink β → α → β} {read : Cursor α}
    (hforms : Forms p write read) :
    Forms p (fun out (page : Paged α) => page.writeForm out (write out)) (Paged.readForm p read) := by
  intro page h rest
  simp only [writeForm, Sink.fits_all, List.forall_mem_cons] at h
  simp [-bind_pure_comp, -StateT.run_bind, writeForm, readForm, hforms.run_list, h]
  rfl

theorem Paged.run {write : {β : Type} → Sink β → α → β} {read : Cursor α} {page : Paged α}
    (hforms : Forms p write read) (h : page.writeForm Sink.fits (write Sink.fits))
    (f : Paged α → Cursor β) (rest : Bytes) :
    (Paged.readForm p read >>= f).run (page.writeForm p.sink (write p.sink) ++ rest) =
      (f page).run rest :=
  (Paged.forms hforms).run (a := page) h f rest

theorem Hold.forms : Forms p Hold.writeForm (Hold.readForm p) := by
  intro hold h rest
  simp only [writeForm, Sink.fits_all, List.forall_mem_cons] at h
  simp [-bind_pure_comp, -StateT.run_bind, writeForm, readForm, h]
  rfl

theorem run_due {due : Option ℤ} (h : writeDue Sink.fits due) (f : Option ℤ → Cursor β)
    (rest : Bytes) :
    (readDue p >>= f).run (writeDue p.sink due ++ rest) = (f due).run rest := by
  simp only [writeDue, Sink.fits_all, List.forall_mem_cons] at h
  simp [-bind_pure_comp, -StateT.run_bind, writeDue, readDue, h]
  cases due <;> rfl

theorem Held.forms : Forms p Held.writeForm (Held.readForm p) := by
  intro held h rest
  simp only [writeForm, Sink.fits_all, List.forall_mem_cons] at h
  simp [-bind_pure_comp, -StateT.run_bind, writeForm, readForm, Hold.forms.run, run_due, h]
  rfl

theorem HeldQueue.forms : Forms p HeldQueue.writeForm (HeldQueue.readForm p) := by
  intro queue h rest
  simp only [writeForm, Sink.fits_all, List.forall_mem_cons] at h
  simp [-bind_pure_comp, -StateT.run_bind, writeForm, readForm, Paged.run Held.forms, h]
  rfl

theorem DuePart.forms : Forms p DuePart.writeForm (DuePart.readForm p) := by
  intro part h rest
  cases part <;> exact (p.run_byte h _ _).trans rfl

theorem Failure.forms : Forms p Failure.writeForm (Failure.readForm p) := by
  intro failure h rest
  simp only [writeForm, Sink.fits_all, List.forall_mem_cons] at h
  simp [-bind_pure_comp, -StateT.run_bind, writeForm, readForm, h]
  rfl

theorem Failed.forms : Forms p Failed.writeForm (Failed.readForm p) := by
  intro failed h rest
  simp only [writeForm, Sink.fits_all, List.forall_mem_cons] at h
  simp [-bind_pure_comp, -StateT.run_bind, writeForm, readForm, h]
  rfl

/-! ## Dead Message Queues -/

theorem Named.forms : Forms p Named.writeForm (Named.readForm p) := by
  intro named h rest
  simp only [writeForm, Sink.fits_all, List.forall_mem_cons] at h
  simp [-bind_pure_comp, -StateT.run_bind, writeForm, readForm, h]
  rfl

theorem DeadMessage.forms : Forms p DeadMessage.writeForm (DeadMessage.readForm p) := by
  intro dead h rest
  simp only [writeForm, Sink.fits_all, List.forall_mem_cons] at h
  simp [-bind_pure_comp, -StateT.run_bind, writeForm, readForm, Named.forms.run_list, h]
  rfl

theorem Dead.forms : Forms p Dead.writeForm (Dead.readForm p) := by
  intro dead h rest
  simp only [writeForm, Sink.fits_all, List.forall_mem_cons] at h
  simp [-bind_pure_comp, -StateT.run_bind, writeForm, readForm, DeadMessage.forms.run, h]
  rfl

theorem DeadEntry.forms : Forms p DeadEntry.writeForm (DeadEntry.readForm p) := by
  intro entry h rest
  cases entry with
  | kept entry =>
      simp only [writeForm, Sink.fits_all, List.forall_mem_cons] at h
      simp [-bind_pure_comp, -StateT.run_bind, writeForm, readForm, Dead.forms.run, h]
      rfl
  | replayed => exact (p.run_byte h _ _).trans rfl
  | never => exact (p.run_byte h _ _).trans rfl

theorem Replayed.forms : Forms p Replayed.writeForm (Replayed.readForm p) := by
  intro replayed h rest
  cases replayed <;> exact (p.run_byte h _ _).trans rfl

theorem Replay.forms : Forms p Replay.writeForm (Replay.readForm p) := by
  intro replay h rest
  simp only [writeForm, Sink.fits_all, List.forall_mem_cons] at h
  simp [-bind_pure_comp, -StateT.run_bind, writeForm, readForm, JourneyRecord.forms.run_list,
    Hold.forms.run_list, AuditEntry.forms.run, h]
  rfl

/-! ## Hand-ons, turns and Publications -/

theorem Wait.forms : Forms p Wait.writeForm (Wait.readForm p) := by
  intro wait h rest
  simp only [writeForm, Sink.fits_all, List.forall_mem_cons] at h
  simp [-bind_pure_comp, -StateT.run_bind, writeForm, readForm, h]
  rfl

theorem HandOn.forms : Forms p HandOn.writeForm (HandOn.readForm p) := by
  intro handOn h rest
  simp only [writeForm, Sink.fits_all, List.forall_mem_cons] at h
  simp [-bind_pure_comp, -StateT.run_bind, writeForm, readForm, Claim.forms.run,
    JourneyRecord.forms.run, MessageRecord.forms.run_list, JourneyRecord.forms.run_list,
    Hold.forms.run_list, Failure.forms.run_optional, Wait.forms.run_optional, h]
  rfl

theorem InstanceRecord.forms : Forms p InstanceRecord.writeForm (InstanceRecord.readForm p) := by
  intro record h rest
  simp only [writeForm, Sink.fits_all, List.forall_mem_cons] at h
  simp [-bind_pure_comp, -StateT.run_bind, writeForm, readForm, h]
  rfl

theorem InstanceWrite.forms : Forms p InstanceWrite.writeForm (InstanceWrite.readForm p) := by
  intro write h rest
  simp only [writeForm, Sink.fits_all, List.forall_mem_cons] at h
  simp [-bind_pure_comp, -StateT.run_bind, writeForm, readForm, InstanceRecord.forms.run, h]
  rfl

theorem InstanceKey.forms : Forms p InstanceKey.writeForm (InstanceKey.readForm p) := by
  intro key h rest
  simp only [writeForm, Sink.fits_all, List.forall_mem_cons] at h
  simp [-bind_pure_comp, -StateT.run_bind, writeForm, readForm, h]
  rfl

theorem Turn.forms : Forms p Turn.writeForm (Turn.readForm p) := by
  intro turn h rest
  simp only [writeForm, Sink.fits_all, List.forall_mem_cons] at h
  simp [-bind_pure_comp, -StateT.run_bind, writeForm, readForm, HandOn.forms.run,
    InstanceWrite.forms.run_list, InstanceKey.forms.run_list, h]
  rfl

theorem Publication.forms : Forms p Publication.writeForm (Publication.readForm p) := by
  intro publication h rest
  simp only [writeForm, Sink.fits_all, List.forall_mem_cons] at h
  simp [-bind_pure_comp, -StateT.run_bind, writeForm, readForm, MessageRecord.forms.run,
    JourneyRecord.forms.run_list, Hold.forms.run_list, DeadMessage.forms.run_optional,
    AuditEntry.forms.run, Claim.forms.run_list, h]
  rfl

/-! ## Standings -/

theorem run_next {next : Standby.Database → ℕ} (h : writeNext Sink.fits next)
    (f : (Standby.Database → ℕ) → Cursor β) (rest : Bytes) :
    (readNext p >>= f).run (writeNext p.sink next ++ rest) = (f next).run rest := by
  simp only [writeNext, Sink.fits_all, List.forall_mem_cons] at h
  have hnext : ![next 0, next 1, next 2] = next := by
    funext database
    obtain rfl | rfl | rfl := Standby.Database.each database
    · rfl
    · rfl
    · rfl
  simp [-bind_pure_comp, -StateT.run_bind, writeNext, readNext, h, hnext]

theorem Standby.Standing.forms :
    Forms p Standby.Standing.writeForm (Standby.Standing.readForm p) := by
  intro standing h rest
  simp only [writeForm, Sink.fits_all, List.forall_mem_cons] at h
  simp [-bind_pure_comp, -StateT.run_bind, writeForm, readForm, run_next, h]
  rfl

theorem Standby.Follow.forms : Forms p Standby.Follow.writeForm (Standby.Follow.readForm p) := by
  intro follow h rest
  simp only [writeForm, Sink.fits_all, List.forall_mem_cons] at h
  simp [-bind_pure_comp, -StateT.run_bind, writeForm, readForm, run_next, h]
  rfl

end XmipPersist
