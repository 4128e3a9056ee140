import XmipPersist.Verification.Queue.Orderly

/-! # What comes out whatever a proper batch holds

Over records of their own kinds every read decodes, so an operation's own steps cannot fail: what
it asks is written, or answered as it stands.
-/

namespace XmipPersist

open Decision

variable {b : Batch}

/-! ## Reads and puts -/

theorem ProperRead.decodes {α : Type} [Form α] {p : Place}
    {found : Except PersistError (Option Content)} (h : ProperRead p found)
    (hholds : ∀ content, p.1.holds p.2 content → ∃ a : α, content = Form.bytes a) :
    ∃ a, found >>= decoded (α := α) = .ok a := by
  obtain ⟨value, rfl, hvalue⟩ := h
  cases value with
  | none => exact ⟨none, rfl⟩
  | some content =>
      obtain ⟨a, rfl⟩ := hholds content (hvalue content rfl)
      exact ⟨some a, decoded_bytes a⟩

theorem readAs_comes (α : Type) [Form α] {kind : Kind} {key : Key}
    (hholds : ∀ content, kind.holds key content → ∃ a : α, content = Form.bytes a) :
    Comes Batch.Proper (readAs α kind key) :=
  .reading fun _ hb => (hb (kind, key)).decodes hholds

theorem put_comes {kind : Kind} {key : Key} {value : Option Content}
    (h : Change.Proper ⟨kind, key, value⟩) : Comes Batch.Proper (put kind key value) := by
  intro b hb
  have hrun : (put kind key value).run b = .ok ((), b.put kind key value) := rfl
  exact ⟨(), _, hrun, (Writes.put_one h b _ _ hrun).proper hb⟩

/-! ## A queue's own steps -/

namespace Queue

variable {k : Queues}

theorem placed_comes (k : Queues) (queue about : ℕ) :
    Comes Batch.Proper (placed k.kinds queue about) := by
  refine .reading fun b hb => ?_
  obtain ⟨found, hread, -, placed, hplaced, -⟩ := hb.read_index k queue about
  exact ⟨placed, by rw [hread]; exact hplaced⟩

theorem places_comes (k : Queues) (queue : ℕ) : Comes Batch.Proper (places k.kinds queue) := by
  refine .bind (readAs_comes Places fun content hcontent => ?_) fun _ => .pure _
  cases k <;> cases content <;> first | exact hcontent.elim | exact ⟨_, rfl⟩

theorem place_comes {queue about : ℕ} {entry : ℕ → Content} (hentry : ∀ n, k.Entry (entry n)) :
    Comes Batch.Proper (place k.kinds queue about entry) := by
  have hread : Comes Batch.Proper (read k.kinds.by' (.pair queue about)) :=
    .reading fun b hb => by
      obtain ⟨found, hfound, -⟩ := hb (k.kinds.by', .pair queue about)
      exact ⟨found, hfound⟩
  refine .bind hread fun found => .ite (.pure _) ?_
  refine .bind (places_comes k queue) fun kept => ?_
  refine .bind (put_comes (k.kept.entry _ _ _ (hentry _))) fun _ => ?_
  refine .bind (put_comes (k.kept.by' _ _ _)) fun _ => ?_
  exact .bind (put_comes (k.kept.places _ _)) fun _ => .pure _

/-- An entry taken out, or nothing there to take. -/
theorem takeOut_comes (hb : b.Proper) (k : Queues) (queue sequence : ℕ) :
    ∃ found b', (takeOut k.kinds queue sequence).run b = .ok (found, b') ∧ b'.Proper ∧
      ∀ content, found = some content → k.Entry content := by
  have htake : Comes Batch.Proper (takeOut k.kinds queue sequence) := by
    have hread : Comes Batch.Proper (read k.kinds.entry (.pair queue sequence)) :=
      .reading fun b hb => by
        obtain ⟨found, hfound, -⟩ := hb (k.kinds.entry, .pair queue sequence)
        exact ⟨found, hfound⟩
    refine .bind hread fun found => ?_
    cases found with
    | none => exact .pure _
    | some bytes =>
        refine .bind (put_comes (k.kept.entryGone _ _)) fun _ => ?_
        refine .bind (places_comes k queue) fun kept => ?_
        exact .bind (put_comes (k.kept.places _ _)) fun _ => .pure _
  obtain ⟨found, b', hrun, hproper⟩ := htake b hb
  refine ⟨found, b', hrun, hproper, fun content hcontent => ?_⟩
  rcases takeOut_ok hb hrun with ⟨rfl, -, -⟩ | ⟨bytes, rfl, hbytes, -⟩
  · cases hcontent
  · cases hcontent
    exact hbytes

end Queue

/-! ## What is held, and the places kept for an origin -/

namespace Hold

theorem keep_comes (kept : Hold) : Comes Batch.Proper (keep kept) :=
  .bind (Queue.place_comes (k := .held) fun _ => ⟨_, rfl⟩) fun _ => .pure _

theorem letGo_comes (queue sequence : ℕ) : Comes Batch.Proper (letGo queue sequence) := by
  intro b hb
  obtain ⟨found, b', htake, hb', hentry⟩ := Queue.takeOut_comes hb .held queue sequence
  change (Queue.takeOut kinds queue sequence).run b = _ at htake
  unfold letGo
  rw [Decision.run_bind_ok htake]
  cases found with
  | none => exact ⟨_, _, rfl, hb'⟩
  | some bytes =>
      obtain ⟨held, rfl⟩ := hentry bytes rfl
      have hdecode : Comes Batch.Proper (decode (.held held)) :=
        .reading fun _ _ => ⟨held, rfl⟩
      have hforget : ∀ journey, Comes Batch.Proper (Queue.forget kinds queue journey) :=
        fun _ => put_comes trivial
      exact hdecode.bind (fun held => hforget held.hold.journey) b' hb'

/-- A held entry read and moved on by its record. -/
theorem held_comes {move : Held → Deciding Unit} (hmove : ∀ held, Comes Batch.Proper (move held))
    (queue sequence : ℕ) : Comes Batch.Proper (do
      match ← XmipPersist.read kinds.entry (.pair queue sequence) with
      | none => pure ()
      | some bytes => do
          let held ← decode bytes
          move held) := by
  intro b hb
  obtain ⟨found, hfound, hholds⟩ := hb (.held, .pair queue sequence)
  have hread : (XmipPersist.read kinds.entry (.pair queue sequence)).run b = .ok (found, b) := by
    change (b.read (.held, .pair queue sequence)).map (·, b) = _
    rw [hfound]
    rfl
  rw [Decision.run_bind_ok hread]
  cases found with
  | none => exact ⟨(), b, rfl, hb⟩
  | some content =>
      obtain ⟨held, rfl⟩ : ∃ held, content = .held held := by
        have hcontent := hholds content rfl
        cases content <;> first | exact hcontent.elim | exact ⟨_, rfl⟩
      have hdecode : (decode (.held held)).run b = .ok (held, b) := rfl
      simp only [Decision.run_bind_ok hdecode]
      exact hmove held b hb

theorem wait_comes (queue journey : ℕ) (due : ℤ) : Comes Batch.Proper (wait queue journey due) := by
  refine .bind (Queue.placed_comes .held queue journey) fun placed => ?_
  cases placed with
  | never => exact .pure _
  | takenOut => exact .pure _
  | «at» sequence =>
      refine held_comes (fun held => ?_) queue sequence
      exact put_comes trivial

theorem mark_comes (queue sequence : ℕ) (failed : Bool) :
    Comes Batch.Proper (mark queue sequence failed) := by
  refine held_comes (fun held => ?_) queue sequence
  exact .ite (put_comes trivial) (.pure _)

theorem toTheEnd_comes (queue journey : ℕ) : Comes Batch.Proper (toTheEnd queue journey) := by
  refine .bind (Queue.placed_comes .held queue journey) fun placed => ?_
  cases placed with
  | never => exact .pure _
  | takenOut => exact .pure _
  | «at» sequence =>
      intro b hb
      obtain ⟨found, b', htake, hb', hentry⟩ := Queue.takeOut_comes hb .held queue sequence
      change (Queue.takeOut kinds queue sequence).run b = _ at htake
      rw [Decision.run_bind_ok htake]
      cases found with
      | none => exact ⟨_, _, rfl, hb'⟩
      | some bytes =>
          obtain ⟨held, rfl⟩ := hentry bytes rfl
          have hdecode : Comes Batch.Proper (decode (.held held)) :=
            .reading fun _ _ => ⟨held, rfl⟩
          have hforget : Comes Batch.Proper (Queue.forget kinds queue journey) :=
            put_comes trivial
          exact hdecode.bind (fun held => hforget.bind fun _ => keep_comes held.hold) b' hb'

theorem letGoOf_comes (queue journey : ℕ) : Comes Batch.Proper (letGoOf queue journey) := by
  refine .bind (Queue.placed_comes .held queue journey) fun placed => ?_
  cases placed with
  | never => exact .pure _
  | takenOut => exact .pure _
  | «at» sequence => exact letGo_comes queue sequence

end Hold

namespace Origin

theorem count_comes (holder : ℕ) (move : Option Bool) (places : List Hold) :
    Comes Batch.Proper (count holder move places) := by
  refine .bind (readAs_comes Origin fun content hcontent => ?_) fun found => .ite ?_ ?_
  · cases content <;> first | exact hcontent.elim | exact ⟨_, rfl⟩
  · exact .bind (.forM _ fun queue _ => Hold.letGoOf_comes _ _) fun _ => put_comes trivial
  · exact put_comes trivial

theorem counted_comes (record : JourneyRecord) (places : List Hold) :
    Comes Batch.Proper (counted record places) := by
  have hfor : ∀ kept holder, Comes Batch.Proper (countedFor kept holder places) := by
    rintro kept ⟨holder, isOpen⟩
    cases holder with
    | none => exact .pure _
    | some holder => exact .ite (count_comes _ _ _) (.pure _)
  refine .bind (readAs_comes JourneyRecord fun content hcontent => ?_) fun _ => ?_
  · cases content <;> first | exact hcontent.elim | exact ⟨_, rfl⟩
  · exact .bind (hfor _ _) fun _ => hfor _ _

end Origin

/-! ## What failed -/

namespace Failed

theorem enter_comes (journey : ℕ) (failure : Failure) (now : ℤ) :
    Comes Batch.Proper (enter journey failure now) := by
  refine .bind (Queue.placed_comes .held failure.queue journey) fun placed => ?_
  cases placed with
  | never => exact .pure _
  | takenOut => exact .pure _
  | «at» place =>
      refine .bind (Hold.mark_comes _ _ _) fun _ => ?_
      exact .bind (Queue.place_comes (k := .failed) fun _ => ⟨_, rfl⟩) fun _ => .pure _

theorem clear_comes (queue journey : ℕ) : Comes Batch.Proper (clear queue journey) := by
  have hleave : Comes Batch.Proper (leave queue journey) := by
    refine .bind (Queue.placed_comes .failed queue journey) fun placed => ?_
    cases placed with
    | never => exact .pure _
    | takenOut => exact .pure _
    | «at» sequence =>
        have htake : Comes Batch.Proper (Queue.takeOut kinds queue sequence) := fun b hb => by
          obtain ⟨found, b', hrun, hb', -⟩ := Queue.takeOut_comes hb .failed queue sequence
          exact ⟨found, b', hrun, hb'⟩
        exact .bind htake fun _ => put_comes trivial
  refine .bind hleave fun _ => .bind (Queue.placed_comes .held queue journey) fun placed => ?_
  cases placed with
  | never => exact .pure _
  | takenOut => exact .pure _
  | «at» place => exact Hold.mark_comes _ _ _

end Failed

/-! ## Claims, and a hand-on's writes -/

namespace Claim

theorem stored_comes (claim : Claim) : Comes Batch.Proper claim.stored :=
  readAs_comes Stored fun content hcontent => by
    cases content <;> first | exact hcontent.elim | exact ⟨_, rfl⟩

theorem hold_comes (claim : Claim) (until' : ℤ) : Comes Batch.Proper (claim.hold until') :=
  .bind (put_comes rfl) fun _ => .pure _

theorem take_comes (claim : Claim) (now until' : ℤ) (epoch : ℕ) :
    Comes Batch.Proper (claim.take now until' epoch) := by
  refine .bind claim.stored_comes fun found => ?_
  cases found with
  | none => exact .bind (hold_comes _ _) fun _ => .pure _
  | some stored => exact .ite (.pure _) (.bind (hold_comes _ _) fun _ => .pure _)

theorem renew_comes (lease now : ℤ) (claims : List Claim) :
    Comes Batch.Proper (renew lease now claims) := by
  induction claims with
  | nil => exact .pure _
  | cons claim claims ih =>
      have hone : Comes Batch.Proper (renewOne lease now claim) := by
        refine .bind claim.stored_comes fun found => ?_
        cases found with
        | none => exact .pure _
        | some stored => exact .ite (.bind (hold_comes _ _) fun _ => .pure _) (.pure _)
      exact .bind hone fun _ => .bind ih fun _ => .pure _

end Claim

theorem HandOn.writes_comes (asked : HandOn) (now : ℤ) :
    Comes Batch.Proper (asked.writes now) := by
  refine .bind (Origin.counted_comes _ _) fun _ => .bind (put_comes rfl) fun _ => ?_
  refine .bind (.forM _ fun _ _ => put_comes rfl) fun _ => ?_
  refine .bind (.forM _ fun _ _ => .bind (Origin.counted_comes _ _) fun _ => put_comes rfl)
    fun _ => ?_
  refine .bind (.forM _ fun _ _ => Hold.letGoOf_comes _ _) fun _ => ?_
  refine .bind (.forM _ fun kept _ => Hold.keep_comes kept) fun _ => ?_
  refine .bind (.forM _ fun _ _ => Hold.toTheEnd_comes _ _) fun _ => ?_
  have hfails : Comes Batch.Proper (asked.fails now) := by
    unfold fails
    cases asked.failed with
    | none => exact .pure _
    | some failure => exact Failed.enter_comes _ _ _
  refine .bind hfails fun _ => .bind (.forM _ fun _ _ => Failed.clear_comes _ _) fun _ => ?_
  unfold waiting
  cases asked.waits with
  | none => exact .pure _
  | some wait => exact Hold.wait_comes _ _ _

/-! ## A Publication -/

namespace Publication

theorem writes_comes (asked : Publication) : Comes Batch.Proper asked.writes := by
  refine .bind (put_comes rfl) fun _ => ?_
  refine .bind (.forM _ fun _ _ => .bind (Origin.counted_comes _ _) fun _ => put_comes rfl)
    fun _ => ?_
  refine .bind (.forM _ fun kept _ => Hold.keep_comes kept) fun _ => ?_
  unfold keepDead
  cases asked.dead with
  | none => exact .pure _
  | some entry =>
      exact .bind (Queue.place_comes (k := .dead) fun _ => ⟨_, rfl⟩) fun _ => .pure _

theorem taking_comes (now until' : ℤ) (epoch : ℕ) (claims : List Claim) :
    Comes Batch.Proper (taking now until' epoch claims) := by
  induction claims with
  | nil => exact .pure _
  | cons claim claims ih =>
      exact .bind (claim.take_comes _ _ _) fun _ => .bind ih fun _ => .pure _

end Publication

/-! ## A turn's own writes -/

theorem Turn.write_comes (writes : List InstanceWrite) (keys unkeyed : List InstanceKey) :
    Comes Batch.Proper (write writes keys unkeyed) := by
  refine .bind (.forM _ fun _ _ => put_comes rfl) fun _ => ?_
  refine .bind (.forM _ fun _ _ => put_comes rfl) fun _ => .forM _ fun gone _ => ?_
  have howner : Comes Batch.Proper (owner gone.key) :=
    .bind (readAs_comes InstanceKey fun content hcontent => by
      cases content <;> first | exact hcontent.elim | exact ⟨_, rfl⟩) fun _ => .pure _
  exact .bind howner fun _ => .ite (put_comes trivial) (.pure _)

/-! ## A Replay -/

theorem Replay.decide_comes (asked : Replay) : Comes Batch.Proper asked.decide := by
  refine .bind (Queue.placed_comes .dead asked.queue asked.message) fun placed => ?_
  cases placed with
  | never => exact .pure _
  | takenOut => exact .pure _
  | «at» sequence =>
      have htake : Comes Batch.Proper (Queue.takeOut Dead.kinds asked.queue sequence) :=
        fun b hb => by
          obtain ⟨found, b', hrun, hb', -⟩ := Queue.takeOut_comes hb .dead asked.queue sequence
          exact ⟨found, b', hrun, hb'⟩
      refine .bind htake fun _ => .bind (put_comes trivial) fun _ => ?_
      refine .bind (.forM _ fun journey _ => ?_) fun _ => ?_
      · exact .bind (Origin.counted_comes _ _) fun _ => put_comes rfl
      · exact .bind (.forM _ fun kept _ => Hold.keep_comes kept) fun _ => .pure _

end XmipPersist
