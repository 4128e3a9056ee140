import XmipPersist.Verification.Writer.Laid

/-! # Runs of the writer, as the sequence of what it decided -/

namespace XmipPersist

variable {digest : Publication → Bytes}

/-! ## Proper stores -/

/-- Every record is one of its place's kind, under its own key. -/
def Store.Proper (s : Store) : Prop :=
  ∀ p content, s.records p = some content → p.1.holds p.2 content

theorem Store.empty_proper : Store.empty.Proper := by
  intro p content h
  simp [Store.empty] at h

theorem Store.Proper.get {s : Store} (h : s.Proper) (p : Place) : s.get p = .ok (s.records p) := by
  unfold Store.get
  split
  · next e heq =>
      have := h p _ heq
      obtain ⟨kind, key⟩ := p
      cases kind <;> cases key <;> exact this.elim
  · rfl

/-- What a batch reads of a place, where each record is one of its place's kind. -/
def ProperRead (p : Place) (found : Except PersistError (Option Content)) : Prop :=
  ∃ value, found = .ok value ∧ ∀ content, value = some content → p.1.holds p.2 content

def Batch.Proper (b : Batch) : Prop := ∀ p, ProperRead p (b.read p)

theorem Store.Proper.over' {s : Store} (h : s.Proper) (next : ℕ) : (Batch.over' s next).Proper :=
  fun p => ⟨s.records p, h.get p, h p⟩

theorem Adds.proper {kinds : List Kind} {b b' : Batch} (h : Adds kinds b b') (hb : b.Proper) :
    b'.Proper := by
  intro p
  rcases h.read_cases p with he | ⟨c, hc, -, rfl, he⟩
  · rw [he]; exact hb p
  · refine ⟨c.value, he, fun content hv => ?_⟩
    simpa [Change.Proper, Change.place, hv] using hc

/-! ### Laying out keeps a store proper -/

theorem stamped_holds {kind : Kind} {key : Key} {searched : Searched}
    (hs : Searched.of kind = some searched) {bytes bytes' : Content} {before : Option Content}
    {now id : ℕ} {row : Row} (h : searched.stamped bytes before now = .ok (bytes', row, id))
    (hk : kind.holds key bytes) : kind.holds key bytes' := by
  have hstamp : ∀ {α : Type} [Columned α], stamp α bytes before now = .ok (bytes', row, id) →
      ∃ (a : α) (b : Option α), bytes = Form.bytes a ∧
        bytes' = Form.bytes (Columned.stamp a now b) := by
    intro α _ h
    simp only [stamp, bind_eq_ok] at h
    obtain ⟨a, ha, b, -, h⟩ := h
    simp only [pure, Except.pure, Except.ok.injEq, Prod.mk.injEq] at h
    exact ⟨a, b, Form.bytes_of_fromBytes _ _ ha, h.1.symm⟩
  cases kind <;> simp only [Searched.of, Option.some.injEq, reduceCtorEq] at hs <;> subst hs <;>
    obtain ⟨a, b, rfl, rfl⟩ := hstamp h <;> cases key <;> exact hk

theorem laidOut_proper {c c' : Change} {before : Option Content} {now : ℕ}
    {es : List IndexEntry} (h : laidOut c before now = .ok (c', es)) (hc : c.Proper) :
    c'.Proper := by
  unfold laidOut at h
  split at h
  · simp only [Except.ok.injEq, Prod.mk.injEq] at h
    exact h.1 ▸ hc
  · next searched hs =>
      simp only [bind_eq_ok] at h
      obtain ⟨gone, -, h⟩ := h
      split at h
      · next bytes hv =>
          simp only [bind_eq_ok] at h
          obtain ⟨⟨bytes', row, id⟩, hst, h⟩ := h
          simp only [pure, Except.pure, Except.ok.injEq, Prod.mk.injEq] at h
          obtain ⟨rfl, -⟩ := h
          exact stamped_holds hs hst (by simpa [Change.Proper, hv] using hc)
      · simp only [pure, Except.pure, Except.ok.injEq, Prod.mk.injEq] at h
        exact h.1 ▸ hc

theorem writtenOver_proper {kept : Place → Except PersistError (Option Content)} {now : ℕ}
    {done cs cs' : List Change} {es : List IndexEntry}
    (h : writtenOver kept now done cs = .ok (cs', es)) (hcs : ∀ c ∈ cs, c.Proper) :
    ∀ c ∈ cs', c.Proper := by
  induction cs generalizing done cs' es with
  | nil => simp only [writtenOver, Except.ok.injEq, Prod.mk.injEq] at h; simp [← h.1]
  | cons c cs ih =>
      simp only [writtenOver, bind_eq_ok] at h
      obtain ⟨before, -, ⟨c', entries⟩, hc, ⟨rest, more⟩, hrest, h⟩ := h
      simp only [pure, Except.pure, Except.ok.injEq, Prod.mk.injEq] at h
      obtain ⟨rfl, -⟩ := h
      intro d hd
      rcases List.mem_cons.mp hd with rfl | hd
      · exact laidOut_proper hc (hcs c (by simp))
      · exact ih hrest (fun e he => hcs e (by simp [he])) d hd

theorem Store.Proper.applyIndexed {s : Store} (h : s.Proper) {cs : List Change}
    {es : List IndexEntry} (hcs : ∀ c ∈ cs, c.Proper) : (s.applyIndexed cs es).Proper := by
  intro p content hp
  simp only [Store.applyIndexed] at hp
  cases hw : written cs p with
  | none => exact h p content (by simpa [hw] using hp)
  | some value =>
      obtain ⟨c, hc, rfl, rfl⟩ := exists_of_written hw
      have := hcs c hc
      simp only [hw, Option.getD_some] at hp
      simpa [Change.Proper, Change.place, hp] using this

/-- A batch whose changes are proper. -/
def Batch.Changing (b : Batch) : Prop := ∀ c ∈ b.changes, c.Proper

theorem laid_proper {w : Writer} {m : Moment} {decided : Batch} {s : Store}
    (h : w.laid m decided = .ok s) (hw : w.store.Proper) (hd : decided.Changing) : s.Proper := by
  unfold Writer.laid at h
  split at h
  · cases h; exact hw
  · simp only [bind_eq_ok] at h
    obtain ⟨⟨cs, es⟩, hl, h⟩ := h
    cases hr : m.refused with
    | some error => simp [hr, throw, throwThe, MonadExceptOf.throw] at h
    | none =>
        simp only [hr, pure, Except.pure, Except.ok.injEq] at h
        subst h
        simp only [Writer.laying, bind_eq_ok] at hl
        obtain ⟨settled, hs, hl⟩ := hl
        refine hw.applyIndexed (writtenOver_proper hl ?_)
        obtain ⟨added, he, hadded⟩ := (Due.settle_adds hs).changes
        have hsettled : ∀ c ∈ settled.changes, c.Proper := by
          intro c hc
          rw [he] at hc
          rcases List.mem_append.mp hc with hc | hc
          · exact hd c hc
          · exact (hadded c hc).1
        split
        · intro c hc
          rw [Batch.put_changes] at hc
          rcases List.mem_append.mp hc with hc | hc
          · exact hsettled c hc
          · rw [List.mem_singleton.mp hc]
            trivial
        · exact hsettled

/-! ## Steps as the storage operations make them -/

/-- A step whose raw writes are a Message's or a Journey's own record. -/
def Step.Made : Step → Prop
  | .group _ ops => ∀ op ∈ ops, op.Made
  | _ => True

theorem decideEach_changing {m : Moment} {b : Batch} {ops : List Op}
    (hmade : ∀ op ∈ ops, op.Made) (hb : b.Changing) : (decideEach digest m b ops).2.Changing := by
  induction ops generalizing b with
  | nil => exact hb
  | cons op ops ih =>
      have hops : ∀ op ∈ ops, op.Made := fun op hop => hmade op (by simp [hop])
      rw [decideEach]
      cases hr : (op.decide digest m).run b.staged with
      | error e => exact ih hops hb
      | ok p =>
          refine ih hops fun c hc => ?_
          obtain ⟨added, he, hadded⟩ := (Op.decide_adds (hmade op (by simp)) hr).changes
          rcases List.mem_append.mp hc with hc | hc
          · exact hb c hc
          · rw [he] at hc
            exact (hadded c (by simpa [Batch.staged] using hc)).1

theorem Writer.after_proper {w : Writer} {step : Step} (hmade : step.Made)
    (hw : w.store.Proper) : (w.after digest step).store.Proper := by
  cases step with
  | group m ops =>
      simp only [Writer.after, Writer.committed]
      split
      · next store hl =>
          exact laid_proper hl hw
            (decideEach_changing hmade (by simp [Batch.Changing, Batch.over']))
      · exact hw
  | chunk chunk =>
      refine hw.applyIndexed fun c hc => ?_
      rw [List.mem_singleton.mp hc]
      exact ⟨rfl, rfl⟩
  | stream last stream now =>
      refine hw.applyIndexed fun c hc => ?_
      rcases List.mem_cons.mp hc with rfl | hc
      · exact ⟨rfl, rfl⟩
      · rw [List.mem_singleton.mp hc]
        rfl
  | restart =>
      simp only [Writer.after, Writer.start]
      cases hn : w.store.get (.sequence, .next) >>= numbered with
      | error e => simpa [bind, Except.bind] using hw
      | ok next => simpa [bind, Except.bind, pure, Except.pure] using hw

/-- Every store a run reaches from a proper one is proper. -/
theorem Writer.run_proper {w : Writer} {steps : List Step} (hmade : ∀ s ∈ steps, s.Made)
    (hw : w.store.Proper) : (w.run digest steps).store.Proper := by
  induction steps generalizing w with
  | nil => exact hw
  | cons step steps ih =>
      exact ih (fun s hs => hmade s (by simp [hs])) (Writer.after_proper (hmade step (by simp)) hw)

/-! ## The rulings of a run -/

/-- The operations of a step that came out and were written. -/
def Writer.rulings (digest : Publication → Bytes) (w : Writer) : Step → List Ruling
  | .group m ops =>
      match w.laid m (decideEach digest m (Batch.over' w.store w.next) ops).2 with
      | .ok _ => XmipPersist.rulings digest m (Batch.over' w.store w.next) ops
      | .error _ => []
  | _ => []

/-- The operations of a run that came out and were written, in order. -/
def Writer.ruled (digest : Publication → Bytes) : Writer → List Step → List Ruling
  | _, [] => []
  | w, step :: steps => w.rulings digest step ++ ruled digest (w.after digest step) steps

theorem Writer.ruled_append (w : Writer) (steps more : List Step) :
    w.ruled digest (steps ++ more) =
      w.ruled digest steps ++ (w.run digest steps).ruled digest more := by
  induction steps generalizing w with
  | nil => rfl
  | cons step steps ih =>
      rw [List.cons_append, Writer.ruled, Writer.ruled, ih, List.append_assoc]
      rfl

theorem Writer.ruled_hold {w : Writer} {steps : List Step} (hmade : ∀ s ∈ steps, s.Made) :
    ∀ r ∈ w.ruled digest steps, r.Holds digest := by
  induction steps generalizing w with
  | nil => simp [Writer.ruled]
  | cons step steps ih =>
      intro r hr
      rcases List.mem_append.mp hr with hr | hr
      · cases step with
        | group m ops =>
            simp only [Writer.rulings] at hr
            split at hr
            · exact rulings_hold (hmade (.group m ops) (by simp)) r hr
            · simp at hr
        | chunk chunk => simp [Writer.rulings] at hr
        | stream last stream now => simp [Writer.rulings] at hr
        | restart => simp [Writer.rulings] at hr
      · exact ih (fun s hs => hmade s (by simp [hs])) r hr

theorem rulings_proper {m : Moment} {b : Batch} {ops : List Op} (hmade : ∀ op ∈ ops, op.Made)
    (hb : b.Proper) : ∀ r ∈ XmipPersist.rulings digest m b ops, r.before.Proper := by
  induction ops generalizing b with
  | nil => simp [XmipPersist.rulings]
  | cons op ops ih =>
      have hops : ∀ op ∈ ops, op.Made := fun op hop => hmade op (by simp [hop])
      rw [XmipPersist.rulings]
      cases hr : (op.decide digest m).run b.staged with
      | error e => exact ih hops hb
      | ok p =>
          have hadds := Op.decide_adds (hmade op (by simp)) hr
          have htaken : (b.taking p.2).Proper := by
            intro place
            rw [Batch.read_taking hadds.below]
            exact hadds.proper (b := b.staged) hb place
          intro r hmem
          rcases List.mem_cons.mp hmem with rfl | hmem
          · exact hb
          · exact ih hops htaken r hmem

/-- Every ruling of a run from a proper store is decided over a proper batch. -/
theorem Writer.ruled_proper {w : Writer} {steps : List Step} (hmade : ∀ s ∈ steps, s.Made)
    (hw : w.store.Proper) : ∀ r ∈ w.ruled digest steps, r.before.Proper := by
  induction steps generalizing w with
  | nil => simp [Writer.ruled]
  | cons step steps ih =>
      intro r hr
      rcases List.mem_append.mp hr with hr | hr
      · cases step with
        | group m ops =>
            simp only [Writer.rulings] at hr
            split at hr
            · exact rulings_proper (hmade (.group m ops) (by simp)) (hw.over' w.next) r hr
            · simp at hr
        | chunk chunk => simp [Writer.rulings] at hr
        | stream last stream now => simp [Writer.rulings] at hr
        | restart => simp [Writer.rulings] at hr
      · exact ih (fun s hs => hmade s (by simp [hs]))
          (Writer.after_proper (hmade step (by simp)) hw) r hr

/-- What each ruling reads of a place is what the one before it left there. -/
inductive Follows (p : Place) :
    Except PersistError (Option Content) → List Ruling →
      Except PersistError (Option Content) → Prop
  | nil (found : Except PersistError (Option Content)) : Follows p found [] found
  | cons {r : Ruling} {rs : List Ruling} {found : Except PersistError (Option Content)}
      (h : Follows p (r.stage.read p) rs found) : Follows p (r.before.read p) (r :: rs) found

namespace Follows

variable {p : Place} {x y z : Except PersistError (Option Content)} {rs rs' : List Ruling}

theorem append (h : Follows p x rs y) (h' : Follows p y rs' z) : Follows p x (rs ++ rs') z := by
  induction h with
  | nil _ => exact h'
  | cons _ ih => exact .cons (ih h')

/-- A property of a place that every ruling keeps holds at the end of them. -/
theorem keeps {I : Except PersistError (Option Content) → Prop} (h : Follows p x rs y) (hx : I x)
    (hkeep : ∀ r ∈ rs, I (r.before.read p) → I (r.stage.read p)) : I y := by
  induction h with
  | nil _ => exact hx
  | @cons r rs found h ih =>
      exact ih (hkeep r (by simp) hx) fun s hs => hkeep s (by simp [hs])

theorem split {pre post : List Ruling} {r : Ruling} (h : Follows p x (pre ++ r :: post) y) :
    Follows p x pre (r.before.read p) ∧ Follows p (r.stage.read p) post y := by
  induction pre generalizing x with
  | nil =>
      cases h with
      | cons h => exact ⟨.nil _, h⟩
  | cons s pre ih =>
      cases h with
      | cons h => exact ⟨.cons (ih h).1, (ih h).2⟩

end Follows

theorem Ruled.follows {b b' : Batch} {rs : List Ruling} (h : Ruled b rs b')
    (hrs : ∀ r ∈ rs, r.Holds digest) (p : Place) : Follows p (b.read p) rs (b'.read p) := by
  induction h with
  | nil b => exact .nil _
  | @cons r rs b h ih =>
      refine .cons ?_
      rw [← (hrs r (by simp)).read_after]
      exact ih fun s hs => hrs s (by simp [hs])

/-- A plain record the writer alone writes. -/
def Kind.ruled (kind : Kind) : Prop := kind.plain ∧ kind ≠ .chunk ∧ kind ≠ .stream

/-- What a written group decided of a plain record is what its store gives back. -/
theorem laid_get {w : Writer} {m : Moment} {decided : Batch} {s : Store}
    (h : w.laid m decided = .ok s) (hw : w.store.Proper) (hd : decided.Changing)
    (hbelow : decided.below = w.store.get) {p : Place} (hp : p.1.plain) :
    s.get p = decided.read p := by
  rw [(laid_proper h hw hd).get, laid_records h hp, Batch.read, hbelow, hw.get]
  cases written decided.changes p <;> rfl

theorem decideEach_below (m : Moment) (b : Batch) (ops : List Op) :
    (decideEach digest m b ops).2.below = b.below := by
  induction ops generalizing b with
  | nil => rfl
  | cons op ops ih =>
      rw [decideEach]
      cases (op.decide digest m).run b.staged with
      | ok p => simp only [ih, Batch.taking]
      | error e => simp only [ih]

theorem Store.get_applyIndexed_of_ne {s : Store} {cs : List Change} {es : List IndexEntry}
    {p : Place} (h : ∀ c ∈ cs, c.place ≠ p) : (s.applyIndexed cs es).get p = s.get p := by
  simp [Store.get, Store.applyIndexed, written_eq_none.mpr h]

theorem Writer.after_follows {w : Writer} {step : Step} (hmade : step.Made)
    (hw : w.store.Proper) {p : Place} (hp : p.1.ruled) :
    Follows p (w.store.get p) (w.rulings digest step) ((w.after digest step).store.get p) := by
  cases step with
  | group m ops =>
      simp only [Writer.rulings, Writer.after, Writer.committed]
      cases hl : w.laid m (decideEach digest m (Batch.over' w.store w.next) ops).2 with
      | error e => exact .nil _
      | ok store =>
          simp only
          rw [laid_get hl hw (decideEach_changing hmade (by simp [Batch.Changing, Batch.over']))
            (decideEach_below m _ ops) hp.1]
          exact (rulings_ruled m (Batch.over' w.store w.next) ops).follows (rulings_hold hmade) p
  | chunk chunk =>
      rw [show (w.after digest (.chunk chunk)).store.get p = w.store.get p from
        Store.get_applyIndexed_of_ne fun c hc => ?_]
      · exact .nil _
      · rw [List.mem_singleton.mp hc]
        rintro rfl
        exact hp.2.1 rfl
  | stream last stream now =>
      rw [show (w.after digest (.stream last stream now)).store.get p = w.store.get p from
        Store.get_applyIndexed_of_ne fun c hc => ?_]
      · exact .nil _
      · rcases List.mem_cons.mp hc with rfl | hc
        · rintro rfl
          exact hp.2.1 rfl
        · rw [List.mem_singleton.mp hc]
          rintro rfl
          exact hp.2.2 rfl
  | restart =>
      simp only [Writer.after, Writer.start]
      cases hn : w.store.get (.sequence, .next) >>= numbered with
      | error e => exact .nil _
      | ok next => exact .nil _

/-- Over a run, each ruling reads of a plain record what the one before it left, and the store
gives back what the last one left. -/
theorem Writer.run_follows {w : Writer} {steps : List Step} (hmade : ∀ s ∈ steps, s.Made)
    (hw : w.store.Proper) {p : Place} (hp : p.1.ruled) :
    Follows p (w.store.get p) (w.ruled digest steps) ((w.run digest steps).store.get p) := by
  induction steps generalizing w with
  | nil => exact .nil _
  | cons step steps ih =>
      have hstep := hmade step (by simp)
      exact (Writer.after_follows hstep hw hp).append
        (ih (fun s hs => hmade s (by simp [hs])) (Writer.after_proper hstep hw))

/-! ## An operation asked after a run -/

theorem decideEach_proper {m : Moment} {b : Batch} {ops : List Op} (hmade : ∀ op ∈ ops, op.Made)
    (hb : b.Proper) : (decideEach digest m b ops).2.Proper := by
  have hruled : Ruled b (XmipPersist.rulings digest m b ops) (decideEach digest m b ops).2 :=
    rulings_ruled m b ops
  have hhold : ∀ r ∈ XmipPersist.rulings digest m b ops, r.Holds digest := rulings_hold hmade
  have hproper : ∀ r ∈ XmipPersist.rulings digest m b ops, r.before.Proper :=
    rulings_proper hmade hb
  intro p
  refine (hruled.follows hhold p).keeps (hb p) fun r hr _ => ?_
  exact (hhold r hr).adds.proper (b := r.before.staged) (hproper r hr) p

namespace Writer

/-- The batch an operation is decided in, after the ones of its group before it. -/
def deciding (digest : Publication → Bytes) (w : Writer) (m : Moment) (pre : List Op) : Batch :=
  (decideEach digest m (Batch.over' w.store w.next) pre).2

/-- The operations that came out before one asked after a run: those of the run, and those of
its own group before it. -/
def heard (digest : Publication → Bytes) (w : Writer) (steps : List Step) (m : Moment)
    (pre : List Op) : List Ruling :=
  w.ruled digest steps ++
    XmipPersist.rulings digest m
      (Batch.over' (w.run digest steps).store (w.run digest steps).next) pre

section Heard

variable {w : Writer} {steps : List Step} {m : Moment} {pre : List Op}

theorem heard_hold (hmade : ∀ s ∈ steps, s.Made) (hpre : ∀ op ∈ pre, op.Made) :
    ∀ r ∈ w.heard digest steps m pre, r.Holds digest := by
  intro r hr
  rcases List.mem_append.mp hr with hr | hr
  · exact ruled_hold hmade r hr
  · exact rulings_hold hpre r hr

theorem heard_proper (hmade : ∀ s ∈ steps, s.Made) (hpre : ∀ op ∈ pre, op.Made)
    (hw : w.store.Proper) : ∀ r ∈ w.heard digest steps m pre, r.before.Proper := by
  intro r hr
  have hrun : (w.run digest steps).store.Proper := run_proper hmade hw
  rcases List.mem_append.mp hr with hr | hr
  · exact ruled_proper hmade hw r hr
  · exact rulings_proper hpre (hrun.over' _) r hr

theorem heard_follows (hmade : ∀ s ∈ steps, s.Made) (hpre : ∀ op ∈ pre, op.Made)
    (hw : w.store.Proper) {p : Place} (hp : p.1.ruled) :
    Follows p (w.store.get p) (w.heard digest steps m pre)
      (((w.run digest steps).deciding digest m pre).read p) := by
  have hgroup : Ruled _ (XmipPersist.rulings digest m _ pre) _ := rulings_ruled m
    (Batch.over' (w.run digest steps).store (w.run digest steps).next) pre
  exact (run_follows hmade hw hp).append (hgroup.follows (rulings_hold hpre) p)

theorem deciding_proper (hmade : ∀ s ∈ steps, s.Made) (hpre : ∀ op ∈ pre, op.Made)
    (hw : w.store.Proper) : ((w.run digest steps).deciding digest m pre).Proper := by
  have hrun : (w.run digest steps).store.Proper := run_proper hmade hw
  exact decideEach_proper hpre (hrun.over' _)

end Heard

end Writer

/-- What an operation asked among others does where it comes out: it is one of its group that did,
and it is answered so, but where what the group decided is not written. -/
structure Among (digest : Publication → Bytes) (w : Writer) (m : Moment) (pre : List Op) (op : Op)
    (done : Done) (stage : Batch) (post : List Op) : Prop where
  ruled : ⟨m, op, done, w.deciding digest m pre, stage⟩ ∈
    rulings digest m (Batch.over' w.store w.next) (pre ++ op :: post)
  answers : (w.committed digest m (pre ++ op :: post)).answers[pre.length]? =
    some (w.given digest m (pre ++ op :: post) (.ok done))

theorem among_of_decided {w : Writer} {m : Moment} {pre : List Op} {op : Op} {done : Done}
    {stage : Batch} (post : List Op)
    (h : (op.decide digest m).run (w.deciding digest m pre).staged = .ok (done, stage)) :
    Among digest w m pre op done stage post := by
  let b := Batch.over' w.store w.next
  change (op.decide digest m).run (decideEach digest m b pre).2.staged = _ at h
  constructor
  · rw [rulings_append, rulings]
    simp only [b] at h
    simp only [h]
    exact List.mem_append_right _ List.mem_cons_self
  · have hanswer : (decideEach digest m b (pre ++ op :: post)).1[pre.length]? =
        some (.ok done) := by
      rw [decideEach_append, List.getElem?_append_right (by rw [decideEach_length]),
        decideEach_length, decideEach]
      simp [h]
    cases hlaid : w.laid m (decideEach digest m b (pre ++ op :: post)).2 with
    | ok s =>
        simp only [b] at hlaid hanswer
        simp [Writer.committed, Writer.given, hlaid, hanswer]
    | error e =>
        simp only [b] at hlaid
        simp [Writer.committed, Writer.given, hlaid]

end XmipPersist
