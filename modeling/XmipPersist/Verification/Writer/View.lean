import XmipPersist.Verification.Writer.Run

/-! # What an operation sees of the store, its stamps aside

The times Xmip Storage stamps a Journey, a Message or a held entry with are set as a batch is
laid out, so what a written group left of one is what it decided but for them. Without them a
store is what its last batch read, due places and the audit sequence's places aside.
-/

namespace XmipPersist

variable {digest : Publication → Bytes}

/-! ## Without its stamps -/

/-- Contents without the times they are stamped with. -/
def Content.bare : Content → Content
  | .journey kept =>
      .journey { kept with facts := { kept.facts with
        createdUnixNanos := 0, updatedUnixNanos := 0 } }
  | .message kept =>
      .message { kept with facts := { kept.facts with createdUnixNanos := 0 } }
  | .held entry => .held { entry with heldUnixNanos := 0 }
  | .keptAudit kept => .keptAudit { kept with facts := { kept.facts with keptUnixNanos := 0 } }
  | .administration kept => .administration { kept with updatedUnixNanos := 0 }
  | .secret kept => .secret { kept with setUnixNanos := 0 }
  | other => other

/-- What is seen at each place. -/
abbrev View := Place → Option Content

/-- A kind a group leaves as it decided it. -/
def Kind.seen : Kind → Bool
  | .chunk | .stream | .duePlaces | .sequence => false
  | _ => true

def Batch.view (b : Batch) : View := fun p =>
  if p.1.seen then
    match b.read p with
    | .ok found => found.map Content.bare
    | .error _ => none
  else none

def Store.view (s : Store) : View := fun p =>
  if p.1.seen then (s.records p).map Content.bare else none

theorem Store.Proper.view_over {s : Store} (h : s.Proper) (next : ℕ) :
    (Batch.over' s next).view = s.view := by
  funext p
  simp [Batch.view, Store.view, h.get]

theorem Batch.view_eq {b : Batch} {p : Place} {found : Option Content} (hp : p.1.seen = true)
    (h : b.read p = .ok found) : b.view p = found.map Content.bare := by
  simp [Batch.view, hp, h]

theorem Batch.view_congr {b b' : Batch} {p : Place} (h : b'.read p = b.read p) :
    b'.view p = b.view p := by
  simp [Batch.view, h]

theorem Batch.view_put (b : Batch) {kind : Kind} (key : Key) (value : Option Content)
    (hk : kind.seen = true) :
    (b.put kind key value).view = Function.update b.view (kind, key) (value.map Content.bare) := by
  funext p
  by_cases hp : p = (kind, key)
  · subst hp
    rw [Function.update_self]
    exact Batch.view_eq hk (Batch.read_put_self b kind key value)
  · rw [Function.update_of_ne hp]
    exact Batch.view_congr (Batch.read_put_of_ne b value (Ne.symm hp))

theorem Adds.view_of_kind {kinds : List Kind} {b b' : Batch} (h : Adds kinds b b') {p : Place}
    (hp : p.1 ∉ kinds) : b'.view p = b.view p :=
  Batch.view_congr (h.read_of_kind hp)

theorem Ruling.Holds.view_after {r : Ruling} (h : r.Holds digest) :
    r.after.view = r.stage.view := by
  funext p
  exact Batch.view_congr (by rw [h.read_after])

/-! ## Laid out -/

theorem stamp_bare {α : Type} [Columned α] {bytes bytes' : Content} {before : Option Content}
    {now id : ℕ} {row : Row}
    (hbare : ∀ (a : α) b, (Form.bytes (Columned.stamp a now b)).bare = (Form.bytes a).bare)
    (h : stamp α bytes before now = .ok (bytes', row, id)) : bytes'.bare = bytes.bare := by
  simp only [stamp, bind_eq_ok] at h
  obtain ⟨a, ha, b, -, h⟩ := h
  simp only [pure, Except.pure, Except.ok.injEq, Prod.mk.injEq] at h
  obtain ⟨rfl, -⟩ := h
  rw [Form.bytes_of_fromBytes _ _ ha]
  exact hbare a b

theorem stamped_bare {searched : Searched} {bytes bytes' : Content} {before : Option Content}
    {now id : ℕ} {row : Row} (h : searched.stamped bytes before now = .ok (bytes', row, id)) :
    bytes'.bare = bytes.bare := by
  cases searched with
  | journey => exact stamp_bare (fun _ _ => rfl) h
  | message => exact stamp_bare (fun _ _ => rfl) h
  | held => exact stamp_bare (fun _ _ => rfl) h
  | dead => exact stamp_bare (fun _ _ => rfl) h
  | failed => exact stamp_bare (fun _ _ => rfl) h
  | audit => exact stamp_bare (fun _ _ => rfl) h
  | auditStream => exact stamp_bare (fun _ _ => rfl) h
  | administration => exact stamp_bare (fun _ _ => rfl) h
  | secret => exact stamp_bare (fun _ _ => rfl) h

theorem laidOut_bare {c c' : Change} {before : Option Content} {now : ℕ} {es : List IndexEntry}
    (h : laidOut c before now = .ok (c', es)) :
    c'.place = c.place ∧ c'.value.map Content.bare = c.value.map Content.bare := by
  refine ⟨(laidOut_writtenAs h).place, ?_⟩
  unfold laidOut at h
  split at h
  · simp only [Except.ok.injEq, Prod.mk.injEq] at h
    obtain ⟨rfl, -⟩ := h
    rfl
  · simp only [bind_eq_ok] at h
    obtain ⟨gone, -, h⟩ := h
    split at h
    · next bytes hv =>
        simp only [bind_eq_ok] at h
        obtain ⟨⟨bytes', row, id⟩, hst, h⟩ := h
        simp only [pure, Except.pure, Except.ok.injEq, Prod.mk.injEq] at h
        obtain ⟨rfl, -⟩ := h
        simp [hv, stamped_bare hst]
    · simp only [pure, Except.pure, Except.ok.injEq, Prod.mk.injEq] at h
      obtain ⟨rfl, -⟩ := h
      rfl

/-- What is written at a place is what was decided there, its stamps aside. -/
theorem writtenOver_bare {kept : Place → Except PersistError (Option Content)} {now : ℕ}
    {done cs cs' : List Change} {es : List IndexEntry}
    (h : writtenOver kept now done cs = .ok (cs', es)) (p : Place) :
    (written cs' p).map (Option.map Content.bare) =
      (written cs p).map (Option.map Content.bare) := by
  induction cs generalizing done cs' es with
  | nil =>
      simp only [writtenOver, Except.ok.injEq, Prod.mk.injEq] at h
      rw [← h.1]
  | cons c cs ih =>
      simp only [writtenOver, bind_eq_ok] at h
      obtain ⟨before, -, ⟨c', entries⟩, hc, ⟨rest, more⟩, hrest, h⟩ := h
      simp only [pure, Except.pure, Except.ok.injEq, Prod.mk.injEq] at h
      obtain ⟨rfl, -⟩ := h
      obtain ⟨hplace, hvalue⟩ := laidOut_bare hc
      have hrest' := ih hrest
      rw [written_cons, written_cons, hplace]
      cases hw : written rest p with
      | some value =>
          cases hw' : written cs p with
          | some value' => simpa [hw, hw'] using hrest'
          | none => simp [hw, hw'] at hrest'
      | none =>
          cases hw' : written cs p with
          | some value' => simp [hw, hw'] at hrest'
          | none =>
              by_cases hp : c.place = p
              · simp [hp, hvalue]
              · simp [hp]

theorem laying_bare {w : Writer} {m : Moment} {decided : Batch} {cs : List Change}
    {es : List IndexEntry} (h : w.laying m decided = .ok (cs, es)) {p : Place}
    (hp : p.1.seen = true) :
    (written cs p).map (Option.map Content.bare) =
      (written decided.changes p).map (Option.map Content.bare) := by
  simp only [Writer.laying, bind_eq_ok] at h
  obtain ⟨settled, hs, h⟩ := h
  rw [writtenOver_bare h p]
  obtain ⟨added, he, hadded⟩ := (Due.settle_adds hs).changes
  have hnone : written added p = none := by
    rw [written_eq_none]
    rintro c hc rfl
    have hkind := (hadded c hc).2
    simp only [List.mem_singleton] at hkind
    simp [Change.place, hkind, Kind.seen] at hp
  have hnext : ¬Change.place ⟨.sequence, .next, some (.number decided.next)⟩ = p := by
    rintro rfl
    simp [Change.place, Kind.seen] at hp
  split
  · simp [he, written_append, written_cons, hnone, hnext]
  · simp [he, written_append, hnone]

/-- What a written group decided is what is seen in its store. -/
theorem laid_view {w : Writer} {m : Moment} {decided : Batch} {s : Store}
    (h : w.laid m decided = .ok s) (hw : w.store.Proper)
    (hbelow : decided.below = w.store.get) : s.view = decided.view := by
  funext p
  by_cases hp : p.1.seen = true
  · have hread : ∀ found, s.records p = found → s.view p = found.map Content.bare := by
      rintro _ rfl
      simp [Store.view, hp]
    have hstore : decided.below p = .ok (w.store.records p) := by rw [hbelow, hw.get]
    unfold Writer.laid at h
    split at h
    · next hidle =>
        cases h
        rw [hread _ rfl, Batch.view_eq hp (by rw [Batch.read, hidle.1, written_nil, hstore])]
    · simp only [bind_eq_ok] at h
      obtain ⟨⟨cs, es⟩, hl, h⟩ := h
      cases hr : m.refused with
      | some error => simp [hr, throw, throwThe, MonadExceptOf.throw] at h
      | none =>
          simp only [hr, pure, Except.pure, Except.ok.injEq] at h
          have hbare := laying_bare hl hp
          subst h
          rw [hread _ rfl, Batch.view]
          simp only [hp, if_true, Batch.read, Store.applyIndexed, hstore]
          cases hd : written decided.changes p with
          | none =>
              rw [hd] at hbare
              simp only [Option.map_none, Option.map_eq_none_iff] at hbare
              simp [hbare]
          | some value =>
              rw [hd, Option.map_some] at hbare
              obtain ⟨value', hvalue', hsame⟩ := Option.map_eq_some_iff.mp hbare
              simp [hvalue', hsame]
  · simp [Store.view, Batch.view, hp]

@[simp] theorem Batch.view_staged (b : Batch) : b.staged.view = b.view := by
  funext p
  exact Batch.view_congr (by rw [Batch.read_staged])

/-! ## Over a run -/

/-- A property of what is seen, and of the rulings so far, that each of a group's rulings keeps
holds of what the group decided. -/
theorem Ruled.keeps {I : List Ruling → View → Prop} {b b' : Batch} {rs before : List Ruling}
    (h : Ruled b rs b') (hrs : ∀ r ∈ rs, r.Holds digest) (hstart : I before b.view)
    (hkeep : ∀ pre r post, rs = pre ++ r :: post → I (before ++ pre) r.before.view →
      I (before ++ pre ++ [r]) r.stage.view) :
    I (before ++ rs) b'.view := by
  induction h generalizing before with
  | nil b => simpa using hstart
  | @cons r rs b h ih =>
      have hfirst : I (before ++ [r]) r.after.view := by
        rw [(hrs r (by simp)).view_after]
        simpa using hkeep [] r rs rfl (by simpa using hstart)
      have hrest : I (before ++ [r] ++ rs) b.view := by
        refine ih (fun s hs => hrs s (by simp [hs])) hfirst fun pre s post he hpre => ?_
        have hlater := hkeep (r :: pre) s post (by simp [he]) (by simpa using hpre)
        simpa using hlater
      simpa using hrest

theorem Writer.deferred_view {w : Writer} {changes : List Change}
    (h : ∀ c ∈ changes, c.kind.seen = false) : (w.deferred changes).store.view = w.store.view := by
  funext p
  by_cases hp : p.1.seen = true
  · have hnone : written changes p = none := by
      rw [written_eq_none]
      rintro c hc rfl
      have hseen := h c hc
      simp [Change.place, hseen] at hp
    simp [Store.view, Writer.deferred, Store.applyIndexed, hnone]
  · simp [Store.view, hp]

/-- A property of what is seen, and of the rulings so far, that every ruling of a run keeps
holds at its end. -/
theorem Writer.run_keeps {I : List Ruling → View → Prop} {w : Writer} {steps : List Step}
    {before : List Ruling} (hmade : ∀ s ∈ steps, s.Made) (hw : w.store.Proper)
    (hstart : I before w.store.view)
    (hkeep : ∀ pre r post, w.ruled digest steps = pre ++ r :: post → r.Holds digest →
      r.before.Proper → I (before ++ pre) r.before.view →
      I (before ++ pre ++ [r]) r.stage.view) :
    I (before ++ w.ruled digest steps) (w.run digest steps).store.view := by
  induction steps generalizing w before with
  | nil => simpa [Writer.ruled, Writer.run] using hstart
  | cons step steps ih =>
      have hstep : step.Made := hmade step (by simp)
      have hafter : I (before ++ w.rulings digest step) (w.after digest step).store.view := by
        cases step with
        | group m ops =>
            cases hl : w.laid m (decideEach digest m (Batch.over' w.store w.next) ops).2 with
            | error e => simpa [Writer.rulings, Writer.after, Writer.committed, hl] using hstart
            | ok store =>
                have hrulings : w.rulings digest (.group m ops) =
                    XmipPersist.rulings digest m (Batch.over' w.store w.next) ops := by
                  simp [Writer.rulings, hl]
                have hstore : (w.after digest (.group m ops)).store = store := by
                  simp [Writer.after, Writer.committed, hl]
                have hold : ∀ r ∈ XmipPersist.rulings digest m (Batch.over' w.store w.next) ops,
                    r.Holds digest := rulings_hold hstep
                rw [hrulings, hstore, laid_view hl hw (decideEach_below m _ ops)]
                refine (rulings_ruled m (Batch.over' w.store w.next) ops).keeps hold
                  (by rw [hw.view_over]; exact hstart) fun pre r post he hpre => ?_
                have hr : r ∈ XmipPersist.rulings digest m (Batch.over' w.store w.next) ops := by
                  simp [he]
                refine hkeep pre r (post ++ (w.after digest (.group m ops)).ruled digest steps) ?_
                  (hold r hr) (rulings_proper hstep (hw.over' w.next) r hr) hpre
                rw [Writer.ruled, hrulings, he]
                simp
        | chunk chunk =>
            rw [Writer.after, Writer.deferred_view (by simp [Writer.chunkChange, Kind.seen])]
            simpa [Writer.rulings] using hstart
        | stream last stream now =>
            rw [Writer.after, Writer.deferred_view
              (by simp [Writer.streamChanges, Writer.chunkChange, Kind.seen])]
            simpa [Writer.rulings] using hstart
        | restart =>
            have hstore : (w.after digest .restart).store = w.store := by
              simp only [Writer.after, Writer.start]
              cases w.store.get (.sequence, .next) >>= numbered <;> rfl
            rw [hstore]
            simpa [Writer.rulings] using hstart
      have hrest : I (before ++ w.rulings digest step ++
          (w.after digest step).ruled digest steps)
          ((w.after digest step).run digest steps).store.view := by
        refine ih (fun s hs => hmade s (by simp [hs])) (Writer.after_proper hstep hw) hafter
          fun pre r post he hr hproper hpre => ?_
        have hlater := hkeep (w.rulings digest step ++ pre) r post
          (by rw [Writer.ruled, he]; simp) hr hproper (by simpa using hpre)
        simpa using hlater
      simpa [Writer.ruled, Writer.run] using hrest

/-- A property of what is seen, and of the operations that came out, that each of them keeps holds
of the batch one asked after a run is decided in. -/
theorem Writer.heard_keeps {I : List Ruling → View → Prop} {w : Writer} {steps : List Step}
    {m : Moment} {pre : List Op} (hmade : ∀ s ∈ steps, s.Made) (hpre : ∀ op ∈ pre, op.Made)
    (hw : w.store.Proper) (hstart : I [] w.store.view)
    (hkeep : ∀ before r after, w.heard digest steps m pre = before ++ r :: after →
      r.Holds digest → r.before.Proper → I before r.before.view →
      I (before ++ [r]) r.stage.view) :
    I (w.ruled digest steps) (w.run digest steps).store.view ∧
      I (w.heard digest steps m pre) ((w.run digest steps).deciding digest m pre).view := by
  have hheard : w.heard digest steps m pre = w.ruled digest steps ++
    XmipPersist.rulings digest m
      (Batch.over' (w.run digest steps).store (w.run digest steps).next) pre := rfl
  have hrun : I ([] ++ w.ruled digest steps) (w.run digest steps).store.view := by
    refine Writer.run_keeps hmade hw hstart fun before r after hsplit hr hproper hbefore => ?_
    have hsplit' : w.heard digest steps m pre = before ++ r :: (after ++ XmipPersist.rulings digest m
        (Batch.over' (w.run digest steps).store (w.run digest steps).next) pre) := by
      rw [hheard, hsplit, List.append_assoc, List.cons_append]
    exact hkeep before r _ hsplit' hr hproper hbefore
  have hproper : (w.run digest steps).store.Proper := run_proper hmade hw
  let b := Batch.over' (w.run digest steps).store (w.run digest steps).next
  have hold : ∀ r ∈ XmipPersist.rulings digest m b pre, r.Holds digest := rulings_hold hpre
  have hgroup : Ruled b (XmipPersist.rulings digest m b pre) _ := rulings_ruled m b pre
  refine ⟨hrun, hgroup.keeps hold ?_ fun before r after hsplit hbefore => ?_⟩
  · rw [hproper.view_over]
    exact hrun
  · have hr : r ∈ XmipPersist.rulings digest m b pre := by simp [hsplit]
    refine hkeep _ r after ?_ (hold r hr) (rulings_proper hpre (hproper.over' _) r hr) hbefore
    rw [hheard, hsplit, List.append_assoc]

end XmipPersist
