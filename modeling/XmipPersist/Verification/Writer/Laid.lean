import XmipPersist.Verification.Writer.Group

/-! # What a decided batch leaves in the store -/

namespace XmipPersist

variable {digest : Publication → Bytes}

/-! ## Reading a decision that may fail -/

theorem bind_eq_ok {ε α β : Type} {x : Except ε α} {f : α → Except ε β} {b : β} :
    (x >>= f) = .ok b ↔ ∃ a, x = .ok a ∧ f a = .ok b := by
  cases x with
  | error e => simp [bind, Except.bind]
  | ok a => simp [bind, Except.bind]

theorem mem_of_mapM_ok {ε α β : Type} {f : α → Except ε β} {xs : List α} {ys : List β}
    (h : xs.mapM f = .ok ys) {y : β} (hy : y ∈ ys) : ∃ x ∈ xs, f x = .ok y := by
  induction xs generalizing ys with
  | nil =>
      obtain rfl := Except.ok.inj h
      cases hy
  | cons x xs ih =>
      simp only [List.mapM_cons, bind_eq_ok] at h
      obtain ⟨first, hfirst, rest, hrest, h⟩ := h
      obtain rfl := Except.ok.inj h
      rcases List.mem_cons.mp hy with rfl | hy
      · exact ⟨x, by simp, hfirst⟩
      · obtain ⟨z, hz, hok⟩ := ih hrest hy
        exact ⟨z, by simp [hz], hok⟩

/-! ## Settling -/

namespace Due

theorem settleQueue_adds {s : Store} {b b' : Batch} {queue : ℕ} {touched : List ℕ}
    (h : settleQueue s b queue touched = .ok b') : Adds [.duePlaces] b b' := by
  simp only [settleQueue, bind_eq_ok] at h
  obtain ⟨before, -, places, -, h⟩ := h
  simp only [pure, Except.pure, Except.ok.injEq] at h
  subst h
  split
  · exact ⟨rfl, le_rfl, fun _ => rfl, [_], rfl, by simp [Change.Proper, Kind.holds, Form.bytes]⟩
  · exact Adds.refl _ _

theorem settleEach_adds {s : Store} {places : List (ℕ × ℕ)} {queues : List ℕ} {b b' : Batch}
    (h : settleEach s places b queues = .ok b') : Adds [.duePlaces] b b' := by
  induction queues generalizing b with
  | nil => cases h; exact Adds.refl _ _
  | cons queue queues ih =>
      simp only [settleEach, bind_eq_ok] at h
      obtain ⟨b₁, h₁, h₂⟩ := h
      exact (settleQueue_adds h₁).trans (ih h₂)

/-- Settling adds due places to the batch, and nothing else. -/
theorem settle_adds {s : Store} {order : Arrangement} {b b' : Batch}
    (h : settle s order b = .ok b') : Adds [.duePlaces] b b' :=
  settleEach_adds h

end Due

/-! ## Laying out -/

/-- A change as it is written: at its place, and as it was unless its kind is laid out. -/
structure WrittenAs (c c' : Change) : Prop where
  kind : c'.kind = c.kind
  key : c'.key = c.key
  gone : c'.value = none ↔ c.value = none
  plain : Searched.of c.kind = none → c'.value = c.value

theorem WrittenAs.place {c c' : Change} (h : WrittenAs c c') : c'.place = c.place := by
  simp [Change.place, h.kind, h.key]

theorem laidOut_writtenAs {c c' : Change} {before : Option Content} {now : ℕ}
    {es : List IndexEntry} (h : laidOut c before now = .ok (c', es)) : WrittenAs c c' := by
  unfold laidOut at h
  split at h
  · simp only [Except.ok.injEq, Prod.mk.injEq] at h
    obtain ⟨rfl, -⟩ := h
    exact ⟨rfl, rfl, Iff.rfl, fun _ => rfl⟩
  · next searched hs =>
      simp only [bind_eq_ok] at h
      obtain ⟨gone, -, h⟩ := h
      split at h
      · next bytes hv =>
          simp only [bind_eq_ok] at h
          obtain ⟨⟨bytes', row, id⟩, -, h⟩ := h
          simp only [pure, Except.pure, Except.ok.injEq, Prod.mk.injEq] at h
          obtain ⟨rfl, -⟩ := h
          exact ⟨rfl, rfl, by simp [hv], fun hn => by simp [hs] at hn⟩
      · simp only [pure, Except.pure, Except.ok.injEq, Prod.mk.injEq] at h
        obtain ⟨rfl, -⟩ := h
        exact ⟨rfl, rfl, Iff.rfl, fun _ => rfl⟩

theorem writtenOver_writtenAs {kept : Place → Except PersistError (Option Content)} {now : ℕ}
    {done cs cs' : List Change} {es : List IndexEntry}
    (h : writtenOver kept now done cs = .ok (cs', es)) : List.Forall₂ WrittenAs cs cs' := by
  induction cs generalizing done cs' es with
  | nil => simp only [writtenOver, Except.ok.injEq, Prod.mk.injEq] at h; simp [← h.1]
  | cons c cs ih =>
      simp only [writtenOver, bind_eq_ok] at h
      obtain ⟨before, -, ⟨c', entries⟩, hc, ⟨rest, more⟩, hrest, h⟩ := h
      simp only [pure, Except.pure, Except.ok.injEq, Prod.mk.injEq] at h
      obtain ⟨rfl, -⟩ := h
      exact .cons (laidOut_writtenAs hc) (ih hrest)

theorem written_of_forall₂ {cs cs' : List Change} (h : List.Forall₂ WrittenAs cs cs')
    {p : Place} (hp : Searched.of p.1 = none) : written cs' p = written cs p := by
  induction h with
  | nil => rfl
  | cons hc _ ih =>
      rw [written_cons, written_cons, ih, hc.place]
      split
      · next heq => rw [hc.plain (by rw [← heq] at hp; exact hp)]
      · rfl

/-! ## The store after a group -/

/-- The kinds a store keeps as they were decided: those not laid out in columns, and not the
writer's own bookkeeping. -/
def Kind.plain (kind : Kind) : Prop :=
  Searched.of kind = none ∧ kind ≠ .duePlaces ∧ kind ≠ .sequence

/-- A place not laid out in columns is written as the settled batch has it. -/
theorem laying_settled {w : Writer} {m : Moment} {decided : Batch} {cs : List Change}
    {es : List IndexEntry} (h : w.laying m decided = .ok (cs, es)) :
    ∃ settled, Due.settle w.store m.order decided = .ok settled ∧
      ∀ p : Place, Searched.of p.1 = none → p.1 ≠ .sequence →
        written cs p = written settled.changes p := by
  simp only [Writer.laying, bind_eq_ok] at h
  obtain ⟨settled, hs, h⟩ := h
  refine ⟨settled, hs, fun p hp hsequence => ?_⟩
  rw [written_of_forall₂ (writtenOver_writtenAs h) hp]
  split
  · have hplace : ¬Change.place ⟨.sequence, .next, some (.number decided.next)⟩ = p := by
      rintro rfl
      exact hsequence rfl
    rw [Batch.put_changes, written_append]
    simp [written_cons, hplace]
  · rfl

/-- The audit sequence is written as it was decided, the next number with it where it moved. -/
theorem laying_sequence {w : Writer} {m : Moment} {decided : Batch} {cs : List Change}
    {es : List IndexEntry} (h : w.laying m decided = .ok (cs, es)) (key : Key) :
    written cs (.sequence, key) =
      if key = .next ∧ decided.next ≠ w.next then some (some (.number decided.next))
      else written decided.changes (.sequence, key) := by
  simp only [Writer.laying, bind_eq_ok] at h
  obtain ⟨settled, hs, h⟩ := h
  have hsettled := (Due.settle_adds hs).written_of_kind (p := (.sequence, key)) (by simp)
  rw [written_of_forall₂ (writtenOver_writtenAs h) rfl]
  by_cases hnext : decided.next = w.next
  · simp [hnext, hsettled]
  · simp only [ne_eq, hnext, not_false_eq_true, if_true, and_true, Batch.put_changes,
      written_append, written_cons, written_nil, Change.place, hsettled]
    by_cases hkey : key = .next
    · simp [hkey]
    · simp [hkey, Ne.symm hkey]

theorem laying_written {w : Writer} {m : Moment} {decided : Batch} {cs : List Change}
    {es : List IndexEntry} (h : w.laying m decided = .ok (cs, es)) {p : Place}
    (hp : p.1.plain) : written cs p = written decided.changes p := by
  obtain ⟨settled, hs, hwritten⟩ := laying_settled h
  have hkind : p.1 ∉ [Kind.duePlaces] := by
    rw [List.mem_singleton]
    exact hp.2.1
  rw [hwritten p hp.1 hp.2.2, (Due.settle_adds hs).written_of_kind hkind]

/-- What a written group leaves of a plain record is what it decided of it. -/
theorem laid_records {w : Writer} {m : Moment} {decided : Batch} {s : Store}
    (h : w.laid m decided = .ok s) {p : Place} (hp : p.1.plain) :
    s.records p = (written decided.changes p).getD (w.store.records p) := by
  unfold Writer.laid at h
  split at h
  · next hidle =>
      cases h
      simp [hidle.1]
  · simp only [bind_eq_ok] at h
    obtain ⟨⟨cs, es⟩, hl, h⟩ := h
    cases hr : m.refused with
    | some error => simp [hr, throw, throwThe, MonadExceptOf.throw] at h
    | none =>
        simp only [hr, pure, Except.pure, Except.ok.injEq] at h
        subst h
        simp only [Store.applyIndexed, laying_written hl hp]

/-- What a written group leaves of the audit sequence. -/
theorem laid_sequence {w : Writer} {m : Moment} {decided : Batch} {s : Store}
    (h : w.laid m decided = .ok s) (key : Key) :
    s.records (.sequence, key) =
      if key = .next ∧ decided.next ≠ w.next then some (.number decided.next)
      else (written decided.changes (.sequence, key)).getD (w.store.records (.sequence, key)) := by
  unfold Writer.laid at h
  split at h
  · next hidle =>
      cases h
      simp [hidle.1, hidle.2]
  · simp only [bind_eq_ok] at h
    obtain ⟨⟨cs, es⟩, hl, h⟩ := h
    cases hr : m.refused with
    | some error => simp [hr, throw, throwThe, MonadExceptOf.throw] at h
    | none =>
        simp only [hr, pure, Except.pure, Except.ok.injEq] at h
        subst h
        simp only [Store.applyIndexed, laying_sequence hl]
        split <;> rfl

end XmipPersist
