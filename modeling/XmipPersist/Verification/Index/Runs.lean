import XmipPersist.Verification.Index.Exact

/-! # Every store a run reaches has its queues in order and its index entries exact -/

namespace XmipPersist

variable {digest : Publication → Bytes}

/-! ## A batch, change by change -/

namespace View

theorem Soles.take {v : View} (hv : v.Sole) {cs : List Change} (h : v.Soles cs) (n : ℕ) :
    (v.after (cs.take n)).Sole := by
  induction cs generalizing v n with
  | nil => simpa using hv
  | cons c cs ih =>
      cases n with
      | zero => exact hv
      | succ n => exact ih h.1 h.2 n

/-- Changes that leave the same at the same places are seen the same. -/
theorem after_congr {v : View} {cs cs' : List Change}
    (h : List.Forall₂ (fun c c' : Change => c'.place = c.place ∧
      c'.value.map Content.bare = c.value.map Content.bare) cs cs') : v.after cs' = v.after cs := by
  induction h generalizing v with
  | nil => rfl
  | @cons c c' cs cs' hc h ih =>
      have hkind : c'.kind = c.kind := congrArg Prod.fst hc.1
      have hwith : v.with' c' = v.with' c := by rw [with', with', hkind, hc.1, hc.2]
      rw [after_cons, after_cons, hwith, ih]

end View

theorem Store.view_applyIndexed (s : Store) (cs : List Change) (es : List IndexEntry) :
    (s.applyIndexed cs es).view = s.view.after cs := by
  induction cs using List.reverseRecOn with
  | nil =>
      funext p
      simp [Store.view, Store.applyIndexed]
  | append_singleton cs c ih =>
      rw [View.after_append, ← ih, View.after_cons, View.after_nil, View.with']
      funext p
      have hafter : (s.applyIndexed (cs ++ [c]) es).view p =
          if p.1.seen then
            ((Function.update (s.applyIndexed cs es).records c.place c.value) p).map Content.bare
          else none := by
        rw [Store.view, applyIndexed_records, applyIndexed_snoc]
        rfl
      rw [hafter]
      by_cases hp : p = c.place
      · subst hp
        by_cases hseen : c.kind.seen = true <;> simp [Store.view, Change.place, hseen]
      · by_cases hseen : c.kind.seen = true <;> simp [Store.view, hp, hseen]

theorem writtenOver_laid {kept : Place → Except PersistError (Option Content)} {now : ℕ}
    {done cs cs' : List Change} {es : List IndexEntry}
    (h : writtenOver kept now done cs = .ok (cs', es)) :
    List.Forall₂ (fun c c' : Change => c'.place = c.place ∧
      c'.value.map Content.bare = c.value.map Content.bare) cs cs' := by
  induction cs generalizing done cs' es with
  | nil =>
      simp only [writtenOver, Except.ok.injEq, Prod.mk.injEq] at h
      rw [← h.1]
      exact .nil
  | cons c cs ih =>
      simp only [writtenOver, bind_eq_ok] at h
      obtain ⟨before, -, ⟨c', entries⟩, hc, ⟨rest, more⟩, hrest, h⟩ := h
      simp only [pure, Except.pure, Except.ok.injEq, Prod.mk.injEq] at h
      rw [← h.1]
      exact .cons (laidOut_bare hc) (ih hrest)

/-! ## Within their bounds -/

def Change.Fits (columns : Set Column) (c : Change) : Prop :=
  ∀ content, c.value = some content → content.Fits columns c.kind

instance (columns : Set Column) [DecidablePred (· ∈ columns)] (c : Change) :
    Decidable (c.Fits columns) :=
  match hvalue : c.value with
  | none => .isTrue fun _ h => nomatch hvalue.symm.trans h
  | some content =>
      decidable_of_iff (content.Fits columns c.kind)
        ⟨fun h _ he => Option.some.inj (hvalue.symm.trans he) ▸ h, fun h => h content hvalue⟩

theorem Kind.holds_places {kind : Kind} {key : Key} {places : Places}
    (h : kind.holds key (.places places)) : ∃ k : Queues, kind = k.kinds.places := by
  cases kind <;> cases key <;>
    first | exact h.elim | exact ⟨.held, rfl⟩ | exact ⟨.failed, rfl⟩ | exact ⟨.dead, rfl⟩

/-- A record that is neither searchable nor a queue's places. -/
theorem Change.fits_of_kind {columns : Set Column} {c : Change} (hproper : c.Proper)
    (hsearched : Searched.of c.kind = none) (hplaces : ∀ k : Queues, c.kind ≠ k.kinds.places) :
    c.Fits columns := by
  intro content hvalue
  refine ⟨?_, fun searched row id htable => ?_⟩
  · cases content with
    | places kept =>
        simp only [Change.Proper, hvalue] at hproper
        obtain ⟨k, hk⟩ := Kind.holds_places hproper
        exact absurd hk (hplaces k)
    | _ => trivial
  · rw [hsearched] at htable
    cases htable

section Fits

variable {columns : Set Column} {s : Store}

theorem Store.Fits.applyIndexed (h : s.Fits columns) {cs : List Change} (es : List IndexEntry)
    (hcs : ∀ c ∈ cs, c.Fits columns) : (s.applyIndexed cs es).Fits columns := by
  intro p content hp
  simp only [Store.applyIndexed] at hp
  cases hw : written cs p with
  | none => exact h p content (by simpa [hw] using hp)
  | some value =>
      obtain ⟨c, hc, rfl, rfl⟩ := exists_of_written hw
      exact hcs c hc content (by simpa [hw] using hp)

theorem writtenOver_fits (hs : s.Proper) (hfits : s.Fits columns) {now : ℕ} (hnow : now ≤ u64Max)
    {done cs cs' : List Change} {es : List IndexEntry} (hdone : ∀ c ∈ done, c.Fits columns)
    (hcs : ∀ c ∈ cs, c.Fits columns) (h : writtenOver s.get now done cs = .ok (cs', es)) :
    ∀ c ∈ cs', c.Fits columns := by
  induction cs generalizing done cs' es with
  | nil =>
      simp only [writtenOver, Except.ok.injEq, Prod.mk.injEq] at h
      simp [← h.1]
  | cons c cs ih =>
      simp only [writtenOver, bind_eq_ok] at h
      obtain ⟨before, hbefore, ⟨c', entries⟩, hc, ⟨rest, more⟩, hrest, h⟩ := h
      simp only [pure, Except.pure, Except.ok.injEq, Prod.mk.injEq] at h
      have hlast : c'.Fits columns := by
        cases htable : Searched.of c.kind with
        | none =>
            simp only [laidOut, htable, Except.ok.injEq, Prod.mk.injEq] at hc
            rw [← hc.1]
            exact hcs c (by simp)
        | some searched =>
            have hkept : ∀ content, before = some content → content.Fits columns c.kind := by
              rintro content rfl
              simp only [replaced, htable] at hbefore
              cases hw : written done c.place with
              | none =>
                  refine hfits c.place content ?_
                  simpa [hw, hs.get] using hbefore
              | some value =>
                  obtain ⟨d, hd, hplace, rfl⟩ := exists_of_written hw
                  have hkind : d.kind = c.kind := congrArg Prod.fst hplace
                  rw [← hkind]
                  exact hdone d hd content (by simpa [hw] using hbefore)
            simp only [laidOut, htable, bind_eq_ok] at hc
            obtain ⟨gone, -, hc⟩ := hc
            cases hvalue : c.value with
            | none =>
                simp only [hvalue, pure, Except.pure, Except.ok.injEq, Prod.mk.injEq] at hc
                rw [← hc.1]
                intro content he
                rw [hvalue] at he
                cases he
            | some bytes =>
                simp only [hvalue, bind_eq_ok] at hc
                obtain ⟨⟨bytes', row, id⟩, hst, hc⟩ := hc
                simp only [pure, Except.pure, Except.ok.injEq, Prod.mk.injEq] at hc
                rw [← hc.1]
                intro content he
                obtain rfl := Option.some.inj he
                exact (hcs c (by simp) bytes hvalue).stamped htable hnow hkept hst
      rw [← h.1]
      intro d hd
      rcases List.mem_cons.mp hd with rfl | hd
      · exact hlast
      · refine ih (fun e he => ?_) (fun e he => hcs e (by simp [he])) hrest d hd
        rcases List.mem_append.mp he with he | he
        · exact hdone e he
        · rwa [List.mem_singleton.mp he]

end Fits

/-! ## A group -/

/-- Deciding a group keeps every queue in order. -/
theorem decideEach_orders {m : Moment} {b : Batch} {ops : List Op} (hmade : ∀ op ∈ ops, op.Made)
    (hb : b.InOrder) : Orders b (decideEach digest m b ops).2 := by
  induction ops generalizing b with
  | nil => exact .refl hb
  | cons op ops ih =>
      have hops : ∀ op ∈ ops, op.Made := fun op hop => hmade op (by simp [hop])
      rw [decideEach]
      cases hr : (op.decide digest m).run b.staged with
      | error e => exact ih hops hb
      | ok p =>
          have hsame : b.staged.view = b.view := by
            funext place
            exact Batch.view_congr (by rw [Batch.read_staged])
          have hstaged : b.staged.InOrder := ⟨hb.proper, by rw [hsame]; exact hb.queued⟩
          have hstage := Op.decide_ordering (hmade op (by simp)) m _ _ _ hr hstaged
          have hread : (b.taking p.2).read = p.2.read := Batch.read_taking hstage.below
          have hview : (b.taking p.2).view = p.2.view := by
            funext place
            exact Batch.view_congr (by rw [hread])
          have hproper : (b.taking p.2).Proper := by
            intro place
            rw [hread]
            exact hstage.inOrder.proper place
          have htaken : Orders b (b.taking p.2) := by
            obtain ⟨added, he, hsoles⟩ := hstage.changes
            refine ⟨⟨hproper, by rw [hview]; exact hstage.inOrder.queued⟩, rfl, fun k q => ?_,
              added, ?_, ?_⟩
            · rw [hview, ← hsame]
              exact hstage.later k q
            · simp [Batch.taking, he, Batch.staged]
            · rwa [← hsame]
          exact htaken.trans (ih hops htaken.inOrder)

/-- What a group decided is what its rulings did. -/
theorem decideEach_changes {m : Moment} {b : Batch} {ops : List Op} {c : Change}
    (hc : c ∈ (decideEach digest m b ops).2.changes) :
    c ∈ b.changes ∨ ∃ r ∈ XmipPersist.rulings digest m b ops, c ∈ r.stage.changes := by
  induction ops generalizing b with
  | nil => exact .inl hc
  | cons op ops ih =>
      rw [decideEach] at hc
      rw [XmipPersist.rulings]
      cases hr : (op.decide digest m).run b.staged with
      | error e =>
          rw [hr] at hc
          exact ih hc
      | ok p =>
          rw [hr] at hc
          rcases ih hc with h | ⟨r, hmem, h⟩
          · rcases List.mem_append.mp h with h | h
            · exact .inl h
            · exact .inr ⟨⟨m, op, p.1, b, p.2⟩, by simp, h⟩
          · exact .inr ⟨r, by simp [hmem], h⟩

/-! ## Sound stores -/

/-- A store whose records are of their own kinds and within their bounds, whose queues are in
order, and whose entries of the indexes of these numbers are exact. -/
structure Store.Sound (numbers : Set ℕ) (s : Store) : Prop where
  proper : s.Proper
  queued : s.view.Queued
  fits : s.Fits (columnsOf numbers)
  exact : Indexed.Exact entriesAt (keysOf numbers) s.records s.entries

theorem Store.empty_sound (numbers : Set ℕ) : Store.empty.Sound numbers where
  proper := Store.empty_proper
  queued k q := by
    have hempty : Store.empty.view.queue k q = ⟨fun _ => none, fun _ => none, 0, 0, 0⟩ := by
      simp [View.queue, View.placesOf, Store.view, Store.empty, Content.placing]
    rw [hempty]
    exact .nothing
  fits p content h := by simp [Store.empty] at h
  exact := Indexed.exact_empty

section Sound

variable {numbers : Set ℕ} {s : Store}

theorem Store.Sound.over' (h : s.Sound numbers) (next : ℕ) : (Batch.over' s next).InOrder :=
  ⟨h.proper.over' next, by rw [h.proper.view_over]; exact h.queued⟩

/-- Changes laid out over a sound store, each of whose entries stands alone. -/
theorem Store.Sound.written (h : s.Sound numbers) {cs cs' : List Change} {es : List IndexEntry}
    {now : ℕ} (hnow : now ≤ u64Max) (hproper : ∀ c ∈ cs, c.Proper)
    (hfits : ∀ c ∈ cs, c.Fits (columnsOf numbers)) (hsoles : s.view.Soles cs)
    (hqueued : (s.view.after cs).Queued) (hw : writtenOver s.get now [] cs = .ok (cs', es)) :
    (s.applyIndexed cs' es).Sound numbers := by
  have hlaid := writtenOver_laid hw
  have hproper' := writtenOver_proper hw hproper
  have hfits' := writtenOver_fits h.proper h.fits hnow (by simp) hfits hw
  have hapart : ∀ n, Indexed.Apart entriesAt (keysOf numbers)
      (s.applyIndexed ([] ++ cs'.take n) []).records := by
    intro n
    rw [List.nil_append]
    have htake : ∀ c ∈ cs'.take n, c ∈ cs' := fun c hc => List.mem_of_mem_take hc
    refine Store.apart (h.proper.applyIndexed fun c hc => hproper' c (htake c hc)) ?_
      (h.fits.applyIndexed [] fun c hc => hfits' c (htake c hc))
    rw [Store.view_applyIndexed, View.after_congr (List.forall₂_take n hlaid)]
    exact hsoles.take h.queued.sole n
  refine ⟨h.proper.applyIndexed hproper', ?_, h.fits.applyIndexed es hfits', ?_⟩
  · rw [Store.view_applyIndexed, View.after_congr hlaid]
    exact hqueued
  · have hstart : Indexed.Exact entriesAt (keysOf numbers) (s.applyIndexed [] []).records
        s.entries := h.exact
    have hexact := writtenOver_exact h.proper hw hstart hapart
    rw [List.nil_append] at hexact
    exact hexact

/-- A record's entry is in the index, within its bounds. -/
theorem Store.Sound.get_entered (hs : s.Sound numbers) {p : Place} {content : Content}
    {key : IndexKey} {searched : Searched} {row : Row} {index : Index} {values : List Value}
    {id : ℕ} (hp : s.records p = some content)
    (h : Entered p content key searched row index values id) (hn : index.number ∈ numbers) :
    s.entries.get key = some id ∧ id < 256 ^ 16 ∧ ∀ v ∈ values, v.Fits := by
  have hkey : key ∈ keysOf numbers := ⟨index.number, hn, by rw [h.told]; rfl⟩
  refine ⟨(hs.exact key hkey id).mpr ⟨p, content, hp, ?_⟩, h.fits hkey (hs.fits p content hp)⟩
  exact mem_entriesAt.mpr ⟨searched, row, index, values, h⟩

/-- An entry of an index is of a record there is. -/
theorem Store.Sound.entered_of_get (hs : s.Sound numbers) {searched : Searched} {index : Index}
    (hindex : index ∈ searched.indexes) (hn : index.number ∈ numbers) {key : IndexKey} {id : ℕ}
    (hget : s.entries.get key = some id) (hhead : key.head? = some index.number) :
    ∃ p content row values, s.records p = some content ∧
      Entered p content key searched row index values id := by
  obtain ⟨p, content, hp, hmem⟩ := (hs.exact key ⟨_, hn, hhead⟩ id).mp hget
  obtain ⟨searched', row, index', values, h⟩ := mem_entriesAt.mp hmem
  have hnumber : index.number = index'.number := by
    rw [h.told] at hhead
    exact (Option.some.inj hhead).symm
  obtain ⟨rfl, rfl⟩ := Searched.index_unique hindex h.mem hnumber
  exact ⟨p, content, row, values, hp, h⟩

end Sound

/-! ## A group written -/

/-- What a group writes beside what its operations decided: due places, and the audit
sequence's next number. -/
theorem laying_ok {w : Writer} {m : Moment} {decided : Batch} {cs : List Change}
    {es : List IndexEntry} (h : w.laying m decided = .ok (cs, es)) :
    ∃ extra, writtenOver w.store.get (nanos m.now) [] (decided.changes ++ extra) = .ok (cs, es) ∧
      ∀ c ∈ extra, c.Proper ∧ c.kind ∈ [Kind.duePlaces, .sequence] := by
  simp only [Writer.laying, bind_eq_ok] at h
  obtain ⟨settled, hs, h⟩ := h
  obtain ⟨added, he, hadded⟩ := (Due.settle_adds hs).changes
  have hextra : ∀ c ∈ added, c.Proper ∧ c.kind ∈ [Kind.duePlaces, .sequence] := by
    intro c hc
    obtain ⟨hproper, hkind⟩ := hadded c hc
    exact ⟨hproper, by simpa using .inl (List.mem_singleton.mp hkind)⟩
  split at h
  · refine ⟨added ++ [⟨.sequence, .next, some (.number decided.next)⟩], ?_, ?_⟩
    · rwa [Batch.put_changes, he, List.append_assoc] at h
    · intro c hc
      rcases List.mem_append.mp hc with hc | hc
      · exact hextra c hc
      · rw [List.mem_singleton.mp hc]
        exact ⟨trivial, by simp⟩
  · exact ⟨added, by rwa [he] at h, hextra⟩

theorem View.after_unseen {v : View} {cs : List Change} (h : ∀ c ∈ cs, c.kind.seen = false) :
    v.after cs = v := by
  induction cs generalizing v with
  | nil => rfl
  | cons c cs ih =>
      have hc : v.with' c = v := by simp [View.with', h c (by simp)]
      rw [View.after_cons, hc, ih fun d hd => h d (by simp [hd])]

theorem laid_sound {numbers : Set ℕ} {w : Writer} {m : Moment} {decided : Batch} {s : Store}
    (h : w.laid m decided = .ok s) (hw : w.store.Sound numbers)
    (horders : Orders (Batch.over' w.store w.next) decided) (hproper : decided.Changing)
    (hfits : ∀ c ∈ decided.changes, c.Fits (columnsOf numbers)) : s.Sound numbers := by
  unfold Writer.laid at h
  split at h
  · cases h
    exact hw
  · simp only [bind_eq_ok] at h
    obtain ⟨⟨cs, es⟩, hl, h⟩ := h
    cases hr : m.refused with
    | some error => simp [hr, throw, throwThe, MonadExceptOf.throw] at h
    | none =>
        simp only [hr, pure, Except.pure, Except.ok.injEq] at h
        obtain ⟨extra, hover, hextra⟩ := laying_ok hl
        obtain ⟨added, he, hsoles⟩ := horders.changes
        obtain rfl : decided.changes = added := by simpa [Batch.over'] using he
        have hview : decided.view = w.store.view.after decided.changes := by
          rw [← hw.proper.view_over w.next]
          exact Batch.view_append horders.below (by simp [Batch.over'])
        have hunseen : ∀ c ∈ extra, c.kind.seen = false := by
          intro c hc
          rcases List.mem_pair.mp (hextra c hc).2 with hkind | hkind <;> rw [hkind] <;> rfl
        rw [← h]
        refine hw.written (min_le_right _ _) (fun c hc => ?_) (fun c hc => ?_) ?_ ?_ hover
        · rcases List.mem_append.mp hc with hc | hc
          · exact hproper c hc
          · exact (hextra c hc).1
        · rcases List.mem_append.mp hc with hc | hc
          · exact hfits c hc
          · refine Change.fits_of_kind (hextra c hc).1 ?_ fun k => ?_ <;>
              rcases List.mem_pair.mp (hextra c hc).2 with hkind | hkind <;> rw [hkind]
            · rfl
            · rfl
            · cases k <;> decide
            · cases k <;> decide
        · rw [hw.proper.view_over] at hsoles
          refine hsoles.append ?_
          rw [← hview]
          refine horders.inOrder.queued.sole.soles fun c hc k => ?_
          intro hkind
          have hseen := hunseen c hc
          rw [hkind, k.seen.1] at hseen
          cases hseen
        · rw [View.after_append, ← hview, View.after_unseen hunseen]
          exact horders.inOrder.queued

theorem writtenOver_unsearched {kept : Place → Except PersistError (Option Content)} {now : ℕ}
    {done cs : List Change} (h : ∀ c ∈ cs, Searched.of c.kind = none) :
    writtenOver kept now done cs = .ok (cs, []) := by
  induction cs generalizing done with
  | nil => rfl
  | cons c cs ih =>
      have hc := h c (by simp)
      have hlaid : ∀ before, laidOut c before now = .ok (c, []) := fun before => by
        simp [laidOut, hc]
      simp [writtenOver, replaced, hc, hlaid, ih fun d hd => h d (by simp [hd]), bind, Except.bind,
        pure, Except.pure]

/-- A Stream's chunks and its record, written straight to the engine. -/
theorem Writer.deferred_sound {numbers : Set ℕ} {w : Writer} (hw : w.store.Sound numbers)
    {cs : List Change} (hproper : ∀ c ∈ cs, c.Proper)
    (hkinds : ∀ c ∈ cs, c.kind ∈ [Kind.chunk, .stream]) :
    (w.deferred cs).store.Sound numbers := by
  have hplain : ∀ c ∈ cs, Searched.of c.kind = none ∧ c.kind.seen = false := by
    intro c hc
    rcases List.mem_pair.mp (hkinds c hc) with hkind | hkind <;> rw [hkind] <;> exact ⟨rfl, rfl⟩
  have hover : writtenOver w.store.get 0 [] cs = .ok (cs, []) :=
    writtenOver_unsearched fun c hc => (hplain c hc).1
  refine hw.written (Nat.zero_le _) hproper (fun c hc => ?_) ?_ ?_ hover
  · refine Change.fits_of_kind (hproper c hc) (hplain c hc).1 fun k => ?_
    rcases List.mem_pair.mp (hkinds c hc) with hkind | hkind <;> rw [hkind] <;> cases k <;> decide
  · refine hw.queued.sole.soles fun c hc k hkind => ?_
    have hseen := (hplain c hc).2
    rw [hkind, k.seen.1] at hseen
    cases hseen
  · rw [View.after_unseen fun c hc => (hplain c hc).2]
    exact hw.queued

/-! ## Over a run -/

namespace Writer

/-- What every operation of a run wrote is within its bounds in `columns`. -/
def Fits (digest : Publication → Bytes) (columns : Set Column) (w : Writer) (steps : List Step) :
    Prop :=
  ∀ r ∈ w.ruled digest steps, ∀ c ∈ r.stage.changes, c.Fits columns

instance (columns : Set Column) [DecidablePred (· ∈ columns)] (w : Writer) (steps : List Step) :
    Decidable (w.Fits digest columns steps) :=
  inferInstanceAs (Decidable (∀ r ∈ w.ruled digest steps, ∀ c ∈ r.stage.changes, c.Fits columns))

theorem Fits.mono {columns columns' : Set Column} {w : Writer} {steps : List Step}
    (hsub : columns' ⊆ columns) (h : w.Fits digest columns steps) :
    w.Fits digest columns' steps :=
  fun r hr c hc content hvalue => (h r hr c hc content hvalue).mono hsub

theorem after_sound {numbers : Set ℕ} {w : Writer} {step : Step} (hmade : step.Made)
    (hw : w.store.Sound numbers)
    (hfits : ∀ r ∈ w.rulings digest step, ∀ c ∈ r.stage.changes, c.Fits (columnsOf numbers)) :
    (w.after digest step).store.Sound numbers := by
  cases step with
  | group m ops =>
      simp only [after, committed]
      cases hl : w.laid m (decideEach digest m (Batch.over' w.store w.next) ops).2 with
      | error e => exact hw
      | ok store =>
          simp only [rulings, hl] at hfits
          refine laid_sound hl hw (decideEach_orders hmade (hw.over' w.next))
            (decideEach_changing hmade (by simp [Batch.Changing, Batch.over'])) fun c hc => ?_
          rcases decideEach_changes hc with hc | ⟨r, hr, hc⟩
          · simp [Batch.over'] at hc
          · exact hfits r hr c hc
  | chunk chunk =>
      refine deferred_sound hw (fun c hc => ?_) (by simp [chunkChange])
      rw [List.mem_singleton.mp hc]
      exact ⟨rfl, rfl⟩
  | stream last stream now =>
      refine deferred_sound hw (fun c hc => ?_) (by simp [streamChanges, chunkChange])
      rcases List.mem_cons.mp hc with rfl | hc
      · exact ⟨rfl, rfl⟩
      · rw [List.mem_singleton.mp hc]
        rfl
  | restart =>
      simp only [after, start]
      cases w.store.get (.sequence, .next) >>= numbered <;> exact hw

/-- Every store a run reaches from a sound one is sound. -/
theorem run_sound {numbers : Set ℕ} {w : Writer} {steps : List Step}
    (hmade : ∀ s ∈ steps, s.Made) (hw : w.store.Sound numbers)
    (hfits : w.Fits digest (columnsOf numbers) steps) :
    (w.run digest steps).store.Sound numbers := by
  induction steps generalizing w with
  | nil => exact hw
  | cons step steps ih =>
      have hnext := after_sound (hmade step (by simp)) hw fun r hr =>
        hfits r (List.mem_append_left _ hr)
      exact ih (fun s hs => hmade s (by simp [hs])) hnext fun r hr =>
        hfits r (List.mem_append_right _ hr)

/-- No queue gives a place again, whatever a step writes. -/
theorem after_later {numbers : Set ℕ} {w : Writer} {step : Step} (hmade : step.Made)
    (hw : w.store.Sound numbers) (k : Queues) (q : ℕ) :
    Numbered.Later Content.about (w.store.view.queue k q)
      ((w.after digest step).store.view.queue k q) := by
  cases step with
  | group m ops =>
      simp only [after, committed]
      cases hl : w.laid m (decideEach digest m (Batch.over' w.store w.next) ops).2 with
      | error e => exact .refl _ _
      | ok store =>
          rw [laid_view hl hw.proper (decideEach_below m _ ops),
            ← hw.proper.view_over w.next]
          exact (decideEach_orders hmade (hw.over' w.next)).later k q
  | chunk chunk =>
      rw [after, deferred_view (by simp [chunkChange, Kind.seen])]
      exact .refl _ _
  | stream last stream now =>
      rw [after, deferred_view (by simp [streamChanges, chunkChange, Kind.seen])]
      exact .refl _ _
  | restart =>
      simp only [after, start]
      cases w.store.get (.sequence, .next) >>= numbered <;> exact .refl _ _

theorem run_later {numbers : Set ℕ} {w : Writer} {steps : List Step}
    (hmade : ∀ s ∈ steps, s.Made) (hw : w.store.Sound numbers)
    (hfits : w.Fits digest (columnsOf numbers) steps) (k : Queues) (q : ℕ) :
    Numbered.Later Content.about (w.store.view.queue k q)
      ((w.run digest steps).store.view.queue k q) := by
  induction steps generalizing w with
  | nil => exact .refl _ _
  | cons step steps ih =>
      have hnext := after_sound (hmade step (by simp)) hw fun r hr =>
        hfits r (List.mem_append_left _ hr)
      have hstep : Numbered.Later Content.about (w.store.view.queue k q)
          ((w.after digest step).store.view.queue k q) :=
        after_later (hmade step (by simp)) hw k q
      exact hstep.trans (ih (fun s hs => hmade s (by simp [hs])) hnext fun r hr =>
        hfits r (List.mem_append_right _ hr))

end Writer

end XmipPersist
