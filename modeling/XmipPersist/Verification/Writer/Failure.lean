import XmipPersist.Verification.Writer.Torn

/-! # A failing operation and the others of its group

Each operation of a group is decided on a stage of its own, dropped where it fails. What the
group decided is settled and laid out as a whole, though, and the first torn record read for that
fails all of it.
-/

namespace XmipPersist

variable {digest : Publication → Bytes}

/-- Where an operation of a group fails, every other is answered, and the store and the audit
sequence are left, as in the same group without it. -/
def FailsAlone (digest : Publication → Bytes) (w : Writer) (m : Moment) (ops : List Op) : Prop :=
  ∀ i e, (w.committed digest m ops).answers[i]? = some (.error e) →
    (w.committed digest m (ops.eraseIdx i)).answers =
        (w.committed digest m ops).answers.eraseIdx i ∧
      (w.committed digest m (ops.eraseIdx i)).writer = (w.committed digest m ops).writer

namespace Writer

/-- What a group decided, each operation's outcome and the batch. -/
def decided (digest : Publication → Bytes) (w : Writer) (m : Moment) (ops : List Op) :
    List Outcome × Batch :=
  decideEach digest m (Batch.over' w.store w.next) ops

/-- A group leaves something to write, and of what is read to settle and lay it out the first
record that is torn, else the engine, refuses it with `e`. -/
def Stops (digest : Publication → Bytes) (w : Writer) (m : Moment) (ops : List Op)
    (e : PersistError) : Prop :=
  ¬w.idle (w.decided digest m ops).2 ∧
    (w.torn m (w.decided digest m ops).2).or m.refused = some e

/-- Each operation of a group is refused by itself, with `e`. -/
def Refuses (digest : Publication → Bytes) (w : Writer) (m : Moment) (ops : List Op)
    (e : PersistError) : Prop :=
  ∀ op ∈ ops, (op.decide digest m).run (Batch.over' w.store w.next).staged = .error e

end Writer

/-! ## Deciding without a failed operation -/

/-- A failed operation left nothing in the batch, and the others were decided without it. -/
theorem decideEach_without {m : Moment} {b : Batch} {ops : List Op} {i : ℕ} {e : PersistError}
    (h : (decideEach digest m b ops).1[i]? = some (.error e)) :
    decideEach digest m b (ops.eraseIdx i) =
      ((decideEach digest m b ops).1.eraseIdx i, (decideEach digest m b ops).2) := by
  induction ops generalizing b i with
  | nil => simp [decideEach] at h
  | cons op ops ih =>
      rw [decideEach] at h ⊢
      cases hr : (op.decide digest m).run b.staged with
      | ok p =>
          simp only [hr] at h
          cases i with
          | zero => simp at h
          | succ i =>
              have hrest := ih (i := i) (by simpa using h)
              simp [decideEach, hr, hrest]
      | error e' =>
          simp only [hr] at h
          cases i with
          | zero => simp
          | succ i =>
              have hrest := ih (i := i) (by simpa using h)
              simp [decideEach, hr, hrest]

/-- Operations each refused by itself leave the batch as it was. -/
theorem decideEach_refused {m : Moment} {b : Batch} {ops : List Op} {e : PersistError}
    (h : ∀ op ∈ ops, (op.decide digest m).run b.staged = .error e) :
    decideEach digest m b ops = (ops.map fun _ => .error e, b) := by
  induction ops with
  | nil => rfl
  | cons op ops ih =>
      have hrest := ih fun other hother => h other (List.mem_cons_of_mem _ hother)
      simp [decideEach, h op List.mem_cons_self, hrest]

theorem refused_of_decideEach {m : Moment} {b : Batch} {ops : List Op} {e : PersistError}
    (h : ∀ a ∈ (decideEach digest m b ops).1, a = .error e) :
    ∀ op ∈ ops, (op.decide digest m).run b.staged = .error e := by
  induction ops with
  | nil => simp
  | cons op ops ih =>
      rw [decideEach] at h
      cases hr : (op.decide digest m).run b.staged with
      | ok p =>
          simp only [hr] at h
          cases h _ List.mem_cons_self
      | error e' =>
          simp only [hr] at h
          obtain rfl := Except.error.inj (h _ List.mem_cons_self)
          intro other hother
          rcases List.mem_cons.mp hother with rfl | hother
          · exact hr
          · exact ih (fun a ha => h a (List.mem_cons_of_mem _ ha)) other hother

namespace Writer

variable {w : Writer} {m : Moment} {ops : List Op}

theorem laid_idle {decided : Batch} (h : w.idle decided) : w.laid m decided = .ok w.store := by
  simp [laid, h]

/-- What stops a group is what laying it out comes to. -/
theorem stops_iff {e : PersistError} :
    w.Stops digest m ops e ↔ w.laid m (w.decided digest m ops).2 = .error e := by
  by_cases hidle : w.idle (w.decided digest m ops).2
  · simp [Stops, hidle, laid_idle hidle]
  · rw [Stops, ← laid_failed hidle, failureOf_eq_some]
    simp [hidle]

theorem committed_ok {s : Store} (h : w.laid m (w.decided digest m ops).2 = .ok s) :
    (w.committed digest m ops).answers = (w.decided digest m ops).1 ∧
      (w.committed digest m ops).writer = ⟨s, (w.decided digest m ops).2.next⟩ := by
  simp only [decided] at h
  simp [committed, decided, h]

theorem committed_error {e : PersistError}
    (h : w.laid m (w.decided digest m ops).2 = .error e) :
    (w.committed digest m ops).answers = ops.map (fun _ => .error e.again) ∧
      (w.committed digest m ops).writer = w := by
  simp only [decided] at h
  simp [committed, h]

/-- Operations each refused by itself leave the writer as it was. -/
theorem Refuses.committed {e : PersistError} (h : w.Refuses digest m ops e) :
    (w.committed digest m ops).answers = ops.map (fun _ => .error e) ∧
      (w.committed digest m ops).writer = w := by
  have hdecided : w.decided digest m ops =
      (ops.map fun _ => .error e, Batch.over' w.store w.next) := decideEach_refused h
  have hidle : w.idle (w.decided digest m ops).2 := by
    rw [hdecided]
    exact ⟨rfl, rfl⟩
  obtain ⟨hanswers, hwriter⟩ := committed_ok (laid_idle (m := m) hidle)
  rw [hanswers, hwriter, hdecided]
  exact ⟨rfl, rfl⟩

theorem committed_length : (w.committed digest m ops).answers.length = ops.length := by
  cases h : w.laid m (w.decided digest m ops).2 with
  | ok s =>
      rw [(committed_ok h).1]
      exact decideEach_length m _ ops
  | error e =>
      rw [(committed_error h).1]
      simp

/-- What a group without one of its operations comes to where it stops all of the group. -/
theorem without_of_failsAlone (h : FailsAlone digest w m ops) {e : PersistError}
    (hstops : w.Stops digest m ops e) {i : ℕ} (hi : i < ops.length) :
    (∃ e', w.Stops digest m (ops.eraseIdx i) e' ∧ e'.again = e.again) ∨
      w.Refuses digest m (ops.eraseIdx i) e.again := by
  obtain ⟨hanswers, -⟩ := committed_error (stops_iff.mp hstops)
  have hi' : (w.committed digest m ops).answers[i]? = some (.error e.again) := by
    simp [hanswers, hi]
  have hall : ∀ a ∈ (w.committed digest m (ops.eraseIdx i)).answers, a = .error e.again := by
    intro a ha
    rw [(h i e.again hi').1, hanswers] at ha
    obtain ⟨_, -, rfl⟩ := List.mem_map.mp (List.mem_of_mem_eraseIdx ha)
    rfl
  cases hl : w.laid m (w.decided digest m (ops.eraseIdx i)).2 with
  | ok s =>
      rw [(committed_ok hl).1] at hall
      exact .inr (refused_of_decideEach hall)
  | error e' =>
      rw [(committed_error hl).1] at hall
      cases hrest : ops.eraseIdx i with
      | nil => exact .inr (by simp [Refuses])
      | cons op rest =>
          rw [hrest] at hall hl
          have hsame := hall _ (List.mem_map_of_mem List.mem_cons_self)
          exact .inl ⟨e', stops_iff.mpr hl, Except.error.inj hsame⟩

/-- Where what a group decided is written, a failing operation left the others as they were
without it. -/
theorem without_of_laid {s : Store} (hl : w.laid m (w.decided digest m ops).2 = .ok s) {i : ℕ}
    {e : PersistError} (hi : (w.committed digest m ops).answers[i]? = some (.error e)) :
    (w.committed digest m (ops.eraseIdx i)).answers =
        (w.committed digest m ops).answers.eraseIdx i ∧
      (w.committed digest m (ops.eraseIdx i)).writer = (w.committed digest m ops).writer := by
  obtain ⟨hanswers, hwriter⟩ := committed_ok hl
  rw [hanswers] at hi
  have hwithout : w.decided digest m (ops.eraseIdx i) =
      ((w.decided digest m ops).1.eraseIdx i, (w.decided digest m ops).2) :=
    decideEach_without hi
  have hl' : w.laid m (w.decided digest m (ops.eraseIdx i)).2 = .ok s := by
    rw [hwithout]
    exact hl
  obtain ⟨hanswers', hwriter'⟩ := committed_ok hl'
  exact ⟨by rw [hanswers', hwithout, hanswers], by rw [hwriter', hwithout, hwriter]⟩

/-- In every state a run reaches a failing operation leaves the others of its group as they were
without it, unless the engine refuses what they write: the writer tears no record itself. -/
theorem run_failsAlone {numbers : Set ℕ} {w : Writer} {steps : List Step}
    (hmade : ∀ s ∈ steps, s.Made) (hw : w.store.Sound numbers) (hn : Due.index.number ∈ numbers)
    (hsettled : w.store.Settled) (hfits : w.Fits digest (columnsOf numbers) steps)
    (hops : ∀ op ∈ ops, op.Made) (hengine : m.refused = none)
    (hqueues : ∀ q n, written ((w.run digest steps).decided digest m ops).2.changes
      (.held, .pair q n) ≠ none → q < 256 ^ 16) :
    FailsAlone digest (w.run digest steps) m ops := by
  have htorn : (w.run digest steps).torn m ((w.run digest steps).decided digest m ops).2 = none :=
    torn_of_sound (run_sound hmade hw hfits) hn (run_settled hmade hn hw hsettled hfits) hops
      hqueues
  intro i e hi
  cases hl : (w.run digest steps).laid m ((w.run digest steps).decided digest m ops).2 with
  | ok s => exact without_of_laid hl hi
  | error e' =>
      have hstops := (stops_iff.mpr hl).2
      rw [htorn, hengine] at hstops
      cases hstops

/-- A failing operation leaves the others of its group as they were without it exactly where no
record read to settle and lay out what the group decided is torn and the engine does not refuse it,
or, without any one of its operations, the others are stopped in the same words, or each refused in
them by itself. -/
theorem failsAlone_iff (w : Writer) (m : Moment) (ops : List Op) :
    FailsAlone digest w m ops ↔ ∀ e, w.Stops digest m ops e → ∀ i < ops.length,
      (∃ e', w.Stops digest m (ops.eraseIdx i) e' ∧ e'.again = e.again) ∨
        w.Refuses digest m (ops.eraseIdx i) e.again := by
  constructor
  · intro h e hstops i hi
    exact without_of_failsAlone h hstops hi
  · intro h i e' hi
    cases hl : w.laid m (w.decided digest m ops).2 with
    | ok s => exact without_of_laid hl hi
    | error e =>
        obtain ⟨hanswers, hwriter⟩ := committed_error hl
        obtain ⟨hlt, -⟩ := List.getElem?_eq_some_iff.mp hi
        rw [committed_length] at hlt
        have hsame : (w.committed digest m (ops.eraseIdx i)).answers =
            (ops.eraseIdx i).map (fun _ => .error e.again) ∧
              (w.committed digest m (ops.eraseIdx i)).writer = w := by
          rcases h e (stops_iff.mpr hl) i hlt with ⟨e'', hstops, hagain⟩ | hrefuses
          · rw [← hagain]
            exact committed_error (stops_iff.mp hstops)
          · exact hrefuses.committed
        refine ⟨?_, hsame.2.trans hwriter.symm⟩
        rw [hsame.1, hanswers, List.eraseIdx_map]

end Writer

/-- A store whose Message 1 is torn. -/
def tornMessage : Store where
  records p := if p = (.message, .id 1) then some (.torn "an unexpected end") else none
  entries := .empty

/-- A raw write over it, and another operation's claim. -/
def overTorn : List Op :=
  [.put .message (.id 1) (Form.bytes ({ message := 1 } : MessageRecord)),
    .claim ⟨2, "first", 7, 0, 0⟩ 10]

/-- The write over a torn record fails the claim in its group too, which is taken without it. -/
theorem overTorn_not_failsAlone :
    let w : Writer := ⟨tornMessage, 0⟩
    let m : Moment := ⟨0, 3, .asWritten, none⟩
    (w.committed (fun _ => []) m overTorn).answers =
        [.error (.record "record: an unexpected end"),
          .error (.record "record: an unexpected end")] ∧
      (w.committed (fun _ => []) m (overTorn.eraseIdx 0)).answers =
        [.ok (.claim (some ⟨2, "first", 7, 10, 12884901889⟩))] ∧
      ¬FailsAlone (fun _ => []) w m overTorn := by
  intro w m
  refine ⟨by decide, by decide, ?_⟩
  intro h
  have hanswers := (h 0 (.record "record: an unexpected end") (by decide)).1
  revert hanswers
  decide

end XmipPersist
