import XmipPersist.Model.Commit

/-! # What each operation writes

A decided operation adds changes to its batch and nothing else. Each of them leaves a record of
its place's own kind, under that record's own key, and its kind is one the operation writes.
-/

namespace XmipPersist

/-! ## A step that came out -/

theorem read_bind_ok {α : Type} {kind : Kind} {key : Key} {f : Option Content → Deciding α}
    {b b' : Batch} {a : α} :
    (read kind key >>= f).run b = .ok (a, b') ↔
      ∃ found, b.read (kind, key) = .ok found ∧ (f found).run b = .ok (a, b') :=
  Decision.reading_bind_ok_iff

theorem readAs_bind_ok {α β : Type} [Form β] {kind : Kind} {key : Key}
    {f : Option β → Deciding α} {b b' : Batch} {a : α} :
    (readAs β kind key >>= f).run b = .ok (a, b') ↔
      ∃ found, b.read (kind, key) >>= decoded = .ok found ∧ (f found).run b = .ok (a, b') :=
  Decision.reading_bind_ok_iff

theorem put_bind_ok {α : Type} {kind : Kind} {key : Key} {value : Option Content}
    {f : Unit → Deciding α} {b b' : Batch} {a : α} :
    (put kind key value >>= f).run b = .ok (a, b') ↔
      (f ()).run (b.put kind key value) = .ok (a, b') := by
  have hrun : (put kind key value).run b = .ok ((), b.put kind key value) := rfl
  rw [Decision.run_bind_ok hrun]

theorem put_ok {kind : Kind} {key : Key} {value : Option Content} {b b' : Batch} {a : Unit} :
    (put kind key value).run b = .ok (a, b') ↔ b' = b.put kind key value := by
  change Except.ok ((), b.put kind key value) = .ok (a, b') ↔ _
  simp [eq_comm]

theorem pure_ok {α : Type} {x a : α} {b b' : Batch} :
    (pure x : Deciding α).run b = .ok (a, b') ↔ x = a ∧ b = b' := by
  rw [Decision.run_pure]
  simp

/-! ## Proper changes -/

/-- Whether contents are a record of their place's kind, under its own key. -/
def Kind.holds : Kind → Key → Content → Prop
  | .chunk, .pair first second, .chunk c => c.stream = first ∧ c.index = second
  | .stream, .id id, .stream record => record.stream = id
  | .message, .id id, .message record => record.message = id
  | .journey, .id id, .journey record => record.journey = id
  | .claim, .id id, .claim stored => stored.claim.journey = id
  | .audit, .id _, .audit _ => True
  | .held, .pair _ _, .held _ => True
  | .heldJourney, .pair _ _, .number _ => True
  | .places, .id _, .places _ => True
  | .duePlaces, .id _, .duePlaces _ => True
  | .dead, .pair _ _, .dead _ => True
  | .deadMessage, .pair _ _, .number _ => True
  | .deadMessage, .pair _ _, .nothing => True
  | .deadPlaces, .id _, .places _ => True
  | .failed, .pair _ _, .failed _ => True
  | .failedByJourney, .pair _ _, .number _ => True
  | .failedPlaces, .id _, .places _ => True
  | .publication, .id _, .digest _ => True
  | .sequence, .next, .number _ => True
  | .sequence, .kept, .number _ => True
  | .origin, .id _, .origin _ => True
  | .processInstance, .id id, .processInstance record => record.identifier = id
  | .instanceKey, .id id, .instanceKey key => key.key = id
  | .keptAudit, .id id, .keptAudit record => record.id = id
  | .keptAuditStreams, .pair first second, .keptStream row =>
      row.audit = first ∧ row.stream.stream = second
  | .keptAuditStream, .triple _ _ _, .chunk _ => True
  | .keptAuditBody, .pair _ _, .body _ => True
  | .chain, .name _, .chainHead _ => True
  | .administration kind, .id id, .administration record => record.kind = kind ∧ record.id = id
  | .secret, .id id, .secret record => record.id = id
  | _, _, _ => False

/-- The kinds whose records are ever taken out. -/
def Kind.passes : Kind → Prop
  | .audit | .held | .heldJourney | .dead | .failed | .failedByJourney | .origin
  | .instanceKey | .administration _ => True
  | _ => False

/-- A change leaves a record of its place's kind, or takes one out where its kind's are. -/
def Change.Proper (c : Change) : Prop :=
  match c.value with
  | some content => c.kind.holds c.key content
  | none => c.kind.passes

/-! ## What a decision adds to its batch -/

/-- `b'` is `b` with proper changes of the kinds `kinds` added; where none is an audit record, the
next audit number stays. -/
structure Adds (kinds : List Kind) (b b' : Batch) : Prop where
  below : b'.below = b.below
  next : b.next ≤ b'.next
  stays : .audit ∉ kinds → b'.next = b.next
  changes : ∃ added, b'.changes = b.changes ++ added ∧
    ∀ c ∈ added, c.Proper ∧ c.kind ∈ kinds

namespace Adds

variable {kinds kinds' : List Kind} {b b' b'' : Batch}

theorem refl (kinds : List Kind) (b : Batch) : Adds kinds b b :=
  ⟨rfl, le_rfl, fun _ => rfl, [], by simp, by simp⟩

theorem trans (h : Adds kinds b b') (h' : Adds kinds b' b'') : Adds kinds b b'' := by
  obtain ⟨added, he, hp⟩ := h.changes
  obtain ⟨more, he', hp'⟩ := h'.changes
  refine ⟨h'.below.trans h.below, h.next.trans h'.next,
    fun hk => (h'.stays hk).trans (h.stays hk), added ++ more, ?_, ?_⟩
  · rw [he', he, List.append_assoc]
  · intro c hc
    rcases List.mem_append.mp hc with hc | hc
    · exact hp c hc
    · exact hp' c hc

theorem mono (h : Adds kinds b b') (hk : kinds ⊆ kinds') : Adds kinds' b b' := by
  obtain ⟨added, he, hp⟩ := h.changes
  exact ⟨h.below, h.next, fun hn => h.stays fun hm => hn (hk hm), added, he,
    fun c hc => ⟨(hp c hc).1, hk (hp c hc).2⟩⟩

theorem written_of_kind (h : Adds kinds b b') {p : Place} (hp : p.1 ∉ kinds) :
    written b'.changes p = written b.changes p := by
  obtain ⟨added, he, hadded⟩ := h.changes
  have hnone : written added p = none := by
    rw [written_eq_none]
    rintro c hc rfl
    exact hp (hadded c hc).2
  rw [he, written_append, hnone, Option.none_or]

/-- A place of another kind holds what it held. -/
theorem read_of_kind (h : Adds kinds b b') {p : Place} (hp : p.1 ∉ kinds) :
    b'.read p = b.read p := by
  rw [Batch.read, Batch.read, h.written_of_kind hp, h.below]

/-- A place holds what it held, or what a proper change of its kind left there. -/
theorem read_cases (h : Adds kinds b b') (p : Place) :
    b'.read p = b.read p ∨
      ∃ c : Change, c.Proper ∧ c.kind ∈ kinds ∧ c.place = p ∧ b'.read p = .ok c.value := by
  obtain ⟨added, he, hadded⟩ := h.changes
  cases hw : written added p with
  | none => exact .inl (by simp [Batch.read, he, h.below, written_append, hw])
  | some value =>
      obtain ⟨c, hc, hplace, rfl⟩ := exists_of_written hw
      refine .inr ⟨c, (hadded c hc).1, (hadded c hc).2, hplace, ?_⟩
      simp [Batch.read, he, written_append, hw]

end Adds

/-! ## The footprint of a decision -/

/-- Whatever `m` decides, it adds proper changes of the kinds `kinds`, and nothing else. -/
def Writes {α : Type} (kinds : List Kind) (m : Deciding α) : Prop :=
  Decision.Moves (Adds kinds) m

namespace Writes

variable {α β : Type} {kinds kinds' : List Kind}

theorem mono {m : Deciding α} (h : Writes kinds m) (hk : kinds ⊆ kinds') : Writes kinds' m :=
  Decision.Moves.mono (fun _ _ ha => ha.mono hk) h

theorem pure (a : α) : Writes kinds (pure a) :=
  Decision.Moves.pure (Adds.refl kinds) a

theorem throw (e : PersistError) : Writes (α := α) kinds (throw e) :=
  Decision.Moves.throw e

theorem bind {m : Deciding α} {f : α → Deciding β} (hm : Writes kinds m)
    (hf : ∀ a, Writes kinds (f a)) : Writes kinds (m >>= f) :=
  Decision.Moves.bind (fun _ _ _ => Adds.trans) hm hf

theorem forM {g : β → Deciding PUnit} (xs : List β) (hg : ∀ x ∈ xs, Writes kinds (g x)) :
    Writes kinds (xs.forM g) :=
  Decision.Moves.forM (Adds.refl kinds) (fun _ _ _ => Adds.trans) xs hg

theorem ite {m n : Deciding α} {c : Prop} [Decidable c] (hm : Writes kinds m)
    (hn : Writes kinds n) : Writes kinds (if c then m else n) :=
  Decision.Moves.ite hm hn

theorem reading (g : Batch → Except PersistError α) : Writes kinds (reading g) :=
  Decision.Moves.reading (Adds.refl kinds)

theorem of_reads {m : Deciding α} (h : Decision.Moves Eq m) : Writes kinds m :=
  Decision.Moves.of_eq (Adds.refl kinds) h

theorem put {kind : Kind} {key : Key} {value : Option Content} (hk : kind ∈ kinds)
    (hp : Change.Proper ⟨kind, key, value⟩) : Writes kinds (put kind key value) := by
  intro b a b' h
  change Except.ok ((), b.put kind key value) = _ at h
  simp only [Except.ok.injEq, Prod.mk.injEq] at h
  obtain ⟨-, rfl⟩ := h
  exact ⟨rfl, le_rfl, fun _ => rfl, [⟨kind, key, value⟩], rfl, by simpa using ⟨hp, hk⟩⟩

theorem put_one {kind : Kind} {key : Key} {value : Option Content}
    (hp : Change.Proper ⟨kind, key, value⟩) : Writes [kind] (XmipPersist.put kind key value) :=
  .put (by simp) hp

end Writes

/-! ## Queues -/

/-- Entries of `kinds` are proper at every place, as are their index and their places. -/
structure Kinds.Kept (kinds : Kinds) (Entry : Content → Prop) : Prop where
  entry : ∀ queue sequence content, Entry content →
    Change.Proper ⟨kinds.entry, .pair queue sequence, some content⟩
  entryGone : ∀ queue sequence, Change.Proper ⟨kinds.entry, .pair queue sequence, none⟩
  by' : ∀ queue about sequence,
    Change.Proper ⟨kinds.by', .pair queue about, some (.number sequence)⟩
  places : ∀ queue (places : Places),
    Change.Proper ⟨kinds.places, .id queue, some (Form.bytes places)⟩

theorem Hold.kept : Kinds.Kept Hold.kinds fun content => ∃ held : Held, content = .held held := by
  refine ⟨?_, fun _ _ => trivial, fun _ _ _ => trivial, fun _ _ => trivial⟩
  rintro queue sequence _ ⟨held, rfl⟩
  trivial

theorem Failed.kept :
    Kinds.Kept Failed.kinds fun content => ∃ failed : Failed, content = .failed failed := by
  refine ⟨?_, fun _ _ => trivial, fun _ _ _ => trivial, fun _ _ => trivial⟩
  rintro queue sequence _ ⟨failed, rfl⟩
  trivial

theorem Dead.kept : Kinds.Kept Dead.kinds fun content => ∃ dead : Dead, content = .dead dead := by
  refine ⟨?_, fun _ _ => trivial, fun _ _ _ => trivial, fun _ _ => trivial⟩
  rintro queue sequence _ ⟨dead, rfl⟩
  trivial

/-- The kinds one kind of queue is kept under. -/
def Kinds.all (kinds : Kinds) : List Kind := [kinds.entry, kinds.by', kinds.places]

namespace Queue

variable {kinds : Kinds} {Entry : Content → Prop}

theorem places_writes {ks : List Kind} (queue : ℕ) : Writes ks (places kinds queue) :=
  .bind (.reading _) fun _ => .pure _

theorem place_writes (h : kinds.Kept Entry) {entry : ℕ → Content}
    (he : ∀ sequence, Entry (entry sequence)) (queue about : ℕ) :
    Writes kinds.all (place kinds queue about entry) := by
  refine .bind (.reading _) fun found => .ite (.pure _) ?_
  refine .bind (places_writes queue) fun kept => ?_
  refine .bind (.put (by simp [Kinds.all]) (h.entry _ _ _ (he _))) fun _ => ?_
  refine .bind (.put (by simp [Kinds.all]) (h.by' _ _ _)) fun _ => ?_
  exact .bind (.put (by simp [Kinds.all]) (h.places _ _)) fun _ => .pure _

theorem takeOut_writes (h : kinds.Kept Entry) (queue sequence : ℕ) :
    Writes kinds.all (takeOut kinds queue sequence) := by
  refine .bind (.reading _) fun found => ?_
  cases found with
  | none => exact .pure _
  | some bytes =>
      refine .bind (.put (by simp [Kinds.all]) (h.entryGone _ _)) fun _ => ?_
      refine .bind (places_writes queue) fun kept => ?_
      exact .bind (.put (by simp [Kinds.all]) (h.places _ _)) fun _ => .pure _

end Queue

namespace Hold

theorem keep_writes (kept : Hold) : Writes kinds.all (keep kept) :=
  .bind (Queue.place_writes Hold.kept (fun _ => ⟨_, rfl⟩) _ _) fun _ => .pure _

theorem forget_writes (queue journey : ℕ) :
    Writes kinds.all (Queue.forget kinds queue journey) :=
  .put (by simp [Kinds.all]) trivial

theorem wait_writes (queue journey : ℕ) (due : ℤ) : Writes kinds.all (wait queue journey due) := by
  refine .bind (.reading _) fun placed => ?_
  cases placed with
  | never => exact .pure _
  | takenOut => exact .pure _
  | «at» sequence =>
      refine .bind (.reading _) fun found => ?_
      cases found with
      | none => exact .pure _
      | some bytes =>
          exact .bind (.reading _) fun held => .put (by simp [Kinds.all]) trivial

theorem mark_writes (queue sequence : ℕ) (failed : Bool) :
    Writes kinds.all (mark queue sequence failed) := by
  refine .bind (.reading _) fun found => ?_
  cases found with
  | none => exact .pure _
  | some bytes =>
      refine .bind (.reading _) fun held => .ite ?_ (.pure _)
      exact .put (by simp [Kinds.all]) trivial

theorem letGo_writes (queue sequence : ℕ) : Writes kinds.all (letGo queue sequence) := by
  refine .bind (Queue.takeOut_writes Hold.kept queue sequence) fun found => ?_
  cases found with
  | none => exact .pure _
  | some bytes => exact .bind (.reading _) fun held => forget_writes _ _

theorem letGoOf_writes (queue journey : ℕ) : Writes kinds.all (letGoOf queue journey) := by
  refine .bind (.reading _) fun placed => ?_
  cases placed with
  | never => exact .pure _
  | takenOut => exact .pure _
  | «at» sequence => exact letGo_writes queue sequence

theorem toTheEnd_writes (queue journey : ℕ) : Writes kinds.all (toTheEnd queue journey) := by
  refine .bind (.reading _) fun placed => ?_
  cases placed with
  | never => exact .pure _
  | takenOut => exact .pure _
  | «at» sequence =>
      refine .bind (Queue.takeOut_writes Hold.kept queue sequence) fun found => ?_
      cases found with
      | none => exact .pure _
      | some bytes =>
          refine .bind (.reading _) fun held => ?_
          exact .bind (forget_writes _ _) fun _ => keep_writes _

end Hold

namespace Failed

/-- The kinds an operation on what failed writes: the index of it, and the marks. -/
def writesKinds : List Kind := Hold.kinds.all ++ kinds.all

theorem enter_writes (journey : ℕ) (failure : Failure) (now : ℤ) :
    Writes writesKinds (enter journey failure now) := by
  refine .bind (.reading _) fun placed => ?_
  cases placed with
  | never => exact .pure _
  | takenOut => exact .pure _
  | «at» sequence =>
      refine .bind ((Hold.mark_writes _ _ _).mono (by simp [writesKinds])) fun _ => ?_
      refine .bind (.mono (Queue.place_writes Failed.kept (fun _ => ⟨_, rfl⟩) _ _) ?_)
        fun _ => .pure _
      simp [writesKinds]

theorem leave_writes (queue journey : ℕ) : Writes kinds.all (leave queue journey) := by
  refine .bind (.reading _) fun placed => ?_
  cases placed with
  | never => exact .pure _
  | takenOut => exact .pure _
  | «at» sequence =>
      exact .bind (Queue.takeOut_writes Failed.kept _ _) fun _ =>
        .put (by simp [Kinds.all]) trivial

theorem unmark_writes (queue journey : ℕ) :
    Writes Hold.kinds.all (unmark queue journey) := by
  refine .bind (.reading _) fun placed => ?_
  cases placed with
  | never => exact .pure _
  | takenOut => exact .pure _
  | «at» sequence => exact Hold.mark_writes _ _ _

theorem clear_writes (queue journey : ℕ) : Writes writesKinds (clear queue journey) :=
  .bind ((leave_writes _ _).mono (by simp [writesKinds])) fun _ =>
    (unmark_writes _ _).mono (by simp [writesKinds])

end Failed

theorem Dead.keep_writes (dead : DeadMessage) : Writes kinds.all (keep dead) :=
  .bind (Queue.place_writes Dead.kept (fun _ => ⟨_, rfl⟩) _ _) fun _ => .pure _

/-! ## Holders, claims and the operations -/

namespace Origin

/-- The kinds counting a Journey for its holders writes. -/
def countKinds : List Kind := .origin :: Hold.kinds.all

theorem count_writes (holder : ℕ) (move : Option Bool) (places : List Hold) :
    Writes countKinds (count holder move places) := by
  refine .bind (.reading _) fun found => .ite ?_ (.put (by simp [countKinds]) trivial)
  refine .bind (.forM _ fun queue _ => ?_) fun _ => .put (by simp [countKinds]) trivial
  exact (Hold.letGoOf_writes _ _).mono (by simp [countKinds])

theorem countedFor_writes (kept : Option (Option ℕ × Bool)) (holder : Option ℕ × Bool)
    (places : List Hold) : Writes countKinds (countedFor kept holder places) := by
  obtain ⟨holder, isOpen⟩ := holder
  cases holder with
  | none => exact .pure _
  | some holder => exact .ite (count_writes _ _ _) (.pure _)

theorem counted_writes (record : JourneyRecord) (places : List Hold) :
    Writes countKinds (counted record places) :=
  .bind (.reading _) fun _ => .bind (countedFor_writes _ _ _) fun _ => countedFor_writes _ _ _

/-- A Journey counted for its holders and written. -/
theorem counted_record_writes (record : JourneyRecord) (places : List Hold) :
    Writes (.journey :: countKinds) (do
      counted record places
      putRecord .journey record.journey record) :=
  .bind ((counted_writes _ _).mono (by simp)) fun _ => .put (by simp) rfl

end Origin

namespace Claim

theorem hold_writes (claim : Claim) (until' : ℤ) : Writes [.claim] (hold claim until') :=
  .bind (.put (by simp) rfl) fun _ => .pure _

theorem end_writes (claim : Claim) (standing : Standing) :
    Writes [.claim] (end' claim standing) :=
  .put (by simp) rfl

theorem take_writes (claim : Claim) (now until' : ℤ) (epoch : ℕ) :
    Writes [.claim] (claim.take now until' epoch) := by
  refine .bind (.reading _) fun found => ?_
  cases found with
  | none => exact .bind (hold_writes _ _) fun _ => .pure _
  | some stored => exact .ite (.pure _) (.bind (hold_writes _ _) fun _ => .pure _)

theorem renewOne_writes (lease now : ℤ) (claim : Claim) :
    Writes [.claim] (renewOne lease now claim) := by
  refine .bind (.reading _) fun found => ?_
  cases found with
  | none => exact .pure _
  | some stored => exact .ite (.bind (hold_writes _ _) fun _ => .pure _) (.pure _)

theorem renew_writes (lease now : ℤ) (claims : List Claim) :
    Writes [.claim] (renew lease now claims) := by
  induction claims with
  | nil => exact .pure _
  | cons claim claims ih =>
      exact .bind (renewOne_writes _ _ _) fun _ => .bind ih fun _ => .pure _

theorem release_writes (claim : Claim) : Writes [.claim] claim.release := by
  refine .bind (.reading _) fun found => ?_
  cases found with
  | none => exact .pure _
  | some stored => exact .ite (.bind (end_writes _ _) fun _ => .pure _) (.pure _)

end Claim

namespace HandOn

/-- The kinds a hand-on writes, its claim aside. -/
def writeKinds : List Kind :=
  .message :: .journey :: (Origin.countKinds ++ Failed.writesKinds)

theorem fails_writes (asked : HandOn) (now : ℤ) : Writes Failed.writesKinds (asked.fails now) := by
  unfold fails
  cases asked.failed with
  | none => exact .pure _
  | some failure => exact Failed.enter_writes _ _ _

theorem waiting_writes (asked : HandOn) (now : ℤ) :
    Writes Hold.kinds.all (asked.waiting now) := by
  unfold waiting
  cases asked.waits with
  | none => exact .pure _
  | some wait => exact Hold.wait_writes _ _ _

theorem writes_writes (asked : HandOn) (now : ℤ) : Writes writeKinds (asked.writes now) := by
  have hcount : ∀ record : JourneyRecord, Writes writeKinds (do
      Origin.counted record asked.queued
      putRecord .journey record.journey record) := fun record =>
    (Origin.counted_record_writes _ _).mono (by decide)
  have hheld : Hold.kinds.all ⊆ writeKinds := by decide
  have hfailed : Failed.writesKinds ⊆ writeKinds := by decide
  refine .bind ((Origin.counted_writes _ _).mono (by decide)) fun _ => ?_
  refine .bind (.put (by simp [writeKinds]) rfl) fun _ => ?_
  refine .bind (.forM _ fun _ _ => .put (by simp [writeKinds]) rfl) fun _ => ?_
  refine .bind (.forM _ fun next _ => hcount next) fun _ => ?_
  refine .bind (.forM _ fun _ _ => (Hold.letGoOf_writes _ _).mono hheld) fun _ => ?_
  refine .bind (.forM _ fun _ _ => (Hold.keep_writes _).mono hheld) fun _ => ?_
  refine .bind (.forM _ fun _ _ => (Hold.toTheEnd_writes _ _).mono hheld) fun _ => ?_
  refine .bind ((fails_writes _ _).mono hfailed) fun _ => ?_
  refine .bind (.forM _ fun _ _ => (Failed.clear_writes _ _).mono hfailed) fun _ => ?_
  exact (waiting_writes _ _).mono hheld

theorem closes_writes (asked : HandOn) (claim : Claim) (now : ℤ) :
    Writes [.claim] (asked.closes claim now) := by
  unfold closes
  cases asked.keptForNanos with
  | none => exact Claim.end_writes _ _
  | some nanos => exact .bind (Claim.hold_writes _ _) fun _ => .pure _

theorem decide_writes (asked : HandOn) (now : ℤ) :
    Writes (.claim :: writeKinds) (asked.decide now) := by
  refine .bind (.reading _) fun found => ?_
  cases found with
  | none => exact .pure _
  | some stored =>
      obtain ⟨claim, standing⟩ := stored
      cases standing with
      | handedOn => exact .pure _
      | released => exact .pure _
      | held =>
          refine .ite ?_ (.pure _)
          refine .bind ((writes_writes _ _).mono (by decide)) fun _ => ?_
          exact .bind ((closes_writes _ _ _).mono (by decide)) fun _ => .pure _

end HandOn

namespace Turn

/-- The kinds a turn writes beside its hand-on. -/
def writeKinds : List Kind := [.processInstance, .instanceKey]

theorem stands_reads (writes : List InstanceWrite) : Decision.Moves Eq (stands writes) := by
  induction writes with
  | nil => exact .pure (fun _ => rfl) _
  | cons write writes ih =>
      refine .bind (fun _ _ _ => Eq.trans) (.reading fun _ => rfl) fun _ => ?_
      exact .ite (.pure (fun _ => rfl) _) ih

theorem owner_reads (key : ℕ) : Decision.Moves Eq (owner key) :=
  .bind (fun _ _ _ => Eq.trans) (.reading fun _ => rfl) fun _ => .pure (fun _ => rfl) _

theorem free_reads (keys : List InstanceKey) : Decision.Moves Eq (free keys) := by
  induction keys with
  | nil => exact .pure (fun _ => rfl) _
  | cons key keys ih =>
      refine .bind (fun _ _ _ => Eq.trans) (owner_reads _) fun _ => ?_
      exact .ite (.pure (fun _ => rfl) _) ih

/-- Whether a turn's Instances and keys stand is read, and nothing is written of it. -/
theorem current_reads (writes : List InstanceWrite) (keys : List InstanceKey) :
    Decision.Moves Eq (current writes keys) :=
  .bind (fun _ _ _ => Eq.trans) (stands_reads writes) fun _ =>
    .ite (free_reads keys) (.pure (fun _ => rfl) _)

theorem instances_writes (writes : List InstanceWrite) :
    Writes [.processInstance] (writes.forM fun write =>
      putRecord .processInstance write.record.identifier write.record) :=
  .forM _ fun _ _ => .put (by simp) rfl

theorem keys_writes (keys : List InstanceKey) :
    Writes [.instanceKey] (keys.forM fun key => putRecord .instanceKey key.key key) :=
  .forM _ fun _ _ => .put (by simp) rfl

theorem unkeyed_writes (unkeyed : List InstanceKey) :
    Writes [.instanceKey] (unkeyed.forM fun gone => do
      let owner ← owner gone.key
      if owner = some gone.identifier then put .instanceKey (.id gone.key) none else pure ()) := by
  refine .forM _ fun gone _ => .bind (.of_reads (owner_reads _)) fun _ => ?_
  exact .ite (.put (by simp) trivial) (.pure _)

theorem write_writes (writes : List InstanceWrite) (keys unkeyed : List InstanceKey) :
    Writes writeKinds (write writes keys unkeyed) :=
  .bind ((instances_writes _).mono (by decide)) fun _ =>
    .bind ((keys_writes _).mono (by decide)) fun _ => (unkeyed_writes _).mono (by decide)

theorem decide_writes (turn : Turn) (now : ℤ) :
    Writes (.claim :: HandOn.writeKinds ++ writeKinds) (turn.decide now) := by
  refine .bind (.of_reads (current_reads _ _)) fun current => .ite ?_ (.pure _)
  refine .bind ((HandOn.decide_writes _ _).mono (by decide)) fun done => .ite ?_ (.pure _)
  exact .bind ((write_writes _ _ _).mono (by decide)) fun _ => .pure _

end Turn

namespace Publication

/-- The kinds a Publication writes, its claims and its own record aside. -/
def writeKinds : List Kind := .message :: .journey :: (Origin.countKinds ++ Dead.kinds.all)

/-- The claims of a Publication asked again are read, and nothing is written of it. -/
theorem standing_reads (claims : List Claim) : Decision.Moves Eq (standing claims) := by
  induction claims with
  | nil => exact .pure (fun _ => rfl) _
  | cons asked rest ih =>
      refine .bind (fun _ _ _ => Eq.trans) (.reading fun _ => rfl) fun _ => ?_
      exact .bind (fun _ _ _ => Eq.trans) ih fun _ => .pure (fun _ => rfl) _

theorem taking_writes (now until' : ℤ) (epoch : ℕ) (claims : List Claim) :
    Writes [.claim] (taking now until' epoch claims) := by
  induction claims with
  | nil => exact .pure _
  | cons asked rest ih =>
      exact .bind (Claim.take_writes _ _ _ _) fun _ => .bind ih fun _ => .pure _

theorem writes_writes (asked : Publication) : Writes writeKinds asked.writes := by
  refine .bind (.put (by simp [writeKinds]) rfl) fun _ => ?_
  refine .bind (.forM _ fun _ _ =>
    (Origin.counted_record_writes _ _).mono (by decide)) fun _ => ?_
  refine .bind (.forM _ fun _ _ => (Hold.keep_writes _).mono ?_) fun _ => ?_
  · decide
  unfold keepDead
  cases asked.dead with
  | none => exact .pure _
  | some entry => exact (Dead.keep_writes _).mono (by decide)

theorem decide_writes (digest : Publication → Bytes) (asked : Publication) (now : ℤ)
    (epoch : ℕ) :
    Writes (.publication :: .claim :: writeKinds) (asked.decide digest now epoch) := by
  refine .bind (.reading _) fun found => ?_
  cases found with
  | some written =>
      exact .ite (.throw _) (.bind (.of_reads (standing_reads _)) fun _ => .pure _)
  | none =>
      refine .bind ((writes_writes asked).mono (by decide)) fun _ => ?_
      refine .bind ((taking_writes _ _ _ _).mono (by decide)) fun _ => ?_
      exact .bind (.put (by simp) trivial) fun _ => .pure _

end Publication

theorem Replay.decide_writes (asked : Replay) :
    Writes (.journey :: (Origin.countKinds ++ Dead.kinds.all)) asked.decide := by
  refine .bind (.reading _) fun placed => ?_
  cases placed with
  | never => exact .pure _
  | takenOut => exact .pure _
  | «at» sequence =>
      refine .bind (.mono (Queue.takeOut_writes Dead.kept _ _) (by simp)) fun _ => ?_
      refine .bind (.put (by simp [Kinds.all]) trivial) fun _ => ?_
      refine .bind (.forM _ fun _ _ =>
        (Origin.counted_record_writes _ _).mono (by decide)) fun _ => ?_
      refine .bind (.forM _ fun _ _ => (Hold.keep_writes _).mono ?_) fun _ => .pure _
      decide

end XmipPersist
