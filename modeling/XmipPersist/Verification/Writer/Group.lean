import XmipPersist.Verification.Writer.Footprint

/-! # What a group of writes leaves of a run

A group's batch takes whole stages, and what it decided of a plain record, one that is neither
laid out in columns nor the writer's own bookkeeping, is what the store holds once it is
written. So a run is the sequence of its decisions, each seeing of every plain record what the
one before it left.
-/

namespace XmipPersist

variable {digest : Publication → Bytes}

/-! ## One operation -/

/-- The kinds an operation can write. -/
def Op.kinds : Op → List Kind
  | .put kind _ _ => [kind]
  | .claim _ _ => [.claim]
  | .renew _ _ => [.claim]
  | .release _ => [.claim]
  | .handOn _ => .claim :: HandOn.writeKinds
  | .turn _ => .claim :: HandOn.writeKinds ++ Turn.writeKinds
  | .publish _ => .audit :: .publication :: .claim :: Publication.writeKinds
  | .replay _ => .audit :: .journey :: (Origin.countKinds ++ Dead.kinds.all)
  | .audit _ => [.audit]
  | .kept _ => [.audit, .sequence]

theorem audit_writes (entry : AuditEntry) : Writes [.audit] (audit entry) := by
  intro b a b' h
  simp only [audit, StateT.run, Except.ok.injEq, Prod.mk.injEq] at h
  obtain ⟨-, rfl⟩ := h
  exact ⟨rfl, Nat.le_succ _, fun h => absurd (List.mem_singleton_self _) h, [_], rfl,
    by simp [Change.Proper, Kind.holds, Form.bytes]⟩

theorem forgetKept_writes (number : ℕ) : Writes [.audit, .sequence] (forgetKept number) := by
  refine .bind (.reading _) fun kept => .ite (.pure _) ?_
  refine .bind (.put (by simp) trivial) fun _ => ?_
  exact .bind (.put (by simp) trivial) fun _ => .pure _

theorem Op.decide_writes {op : Op} (hmade : op.Made) (m : Moment) :
    Writes op.kinds (op.decide digest m) := by
  cases op with
  | put kind key value =>
      refine .bind (.put (by simp [kinds]) ?_) fun _ => .pure _
      rcases hmade with ⟨record, rfl, rfl, rfl⟩ | ⟨record, rfl, rfl, rfl⟩ <;> rfl
  | claim asked lease => exact .bind (Claim.take_writes _ _ _ _) fun _ => .pure _
  | renew claims lease => exact .bind (Claim.renew_writes _ _ _) fun _ => .pure _
  | release held => exact .bind (Claim.release_writes _) fun _ => .pure _
  | handOn asked => exact .bind (HandOn.decide_writes _ _) fun _ => .pure _
  | turn asked => exact .bind (Turn.decide_writes _ _) fun _ => .pure _
  | publish asked =>
      refine .bind ((Publication.decide_writes _ _ _ _).mono (by simp [kinds])) fun decided => ?_
      cases decided with
      | before held => exact .pure _
      | now held =>
          exact .bind ((audit_writes _).mono (by simp [kinds])) fun _ => .pure _
  | replay asked =>
      refine .bind ((Replay.decide_writes _).mono (by simp [kinds])) fun replayed => ?_
      cases replayed with
      | now => exact .bind ((audit_writes _).mono (by simp [kinds])) fun _ => .pure _
      | before => exact .pure _
      | absent => exact .pure _
  | audit entry => exact .bind (audit_writes _) fun _ => .pure _
  | kept number => exact .bind (forgetKept_writes _) fun _ => .pure _

/-- A stage over a batch, once an operation came out on it. -/
theorem Op.decide_adds {op : Op} (hmade : op.Made) {m : Moment} {b stage : Batch} {done : Done}
    (h : (op.decide digest m).run b.staged = .ok (done, stage)) :
    Adds op.kinds b.staged stage :=
  Op.decide_writes hmade m _ _ _ h

/-! ## A group -/

theorem decideEach_append (m : Moment) (b : Batch) (ops more : List Op) :
    decideEach digest m b (ops ++ more) =
      ((decideEach digest m b ops).1 ++ (decideEach digest m (decideEach digest m b ops).2 more).1,
        (decideEach digest m (decideEach digest m b ops).2 more).2) := by
  induction ops generalizing b with
  | nil => rfl
  | cons op ops ih =>
      rw [List.cons_append, decideEach, decideEach]
      cases (op.decide digest m).run b.staged with
      | ok p => simp only [ih, List.cons_append]
      | error e => simp only [ih, List.cons_append]

theorem decideEach_length (m : Moment) (b : Batch) (ops : List Op) :
    (decideEach digest m b ops).1.length = ops.length := by
  induction ops generalizing b with
  | nil => rfl
  | cons op ops ih =>
      rw [decideEach]
      cases (op.decide digest m).run b.staged with
      | ok p => simp [ih]
      | error e => simp [ih]

@[simp] theorem Batch.taking_staged (b : Batch) : b.taking b.staged = b := by
  simp [Batch.taking, Batch.staged]

/-- An operation that leaves its stage as it was, or fails on it. -/
def Still (digest : Publication → Bytes) (m : Moment) (b : Batch) (op : Op) (answer : Outcome) :
    Prop :=
  match answer with
  | .ok done => (op.decide digest m).run b.staged = .ok (done, b.staged)
  | .error e => (op.decide digest m).run b.staged = .error e

/-- A still operation is answered, and the rest of its group decided as without it. -/
theorem decideEach_still {m : Moment} {b : Batch} {op : Op} {answer : Outcome} {pre : List Op}
    (post : List Op) (h : Still digest m (decideEach digest m b pre).2 op answer) :
    decideEach digest m b (pre ++ op :: post) =
      ((decideEach digest m b (pre ++ post)).1.take pre.length ++
          answer :: (decideEach digest m b (pre ++ post)).1.drop pre.length,
        (decideEach digest m b (pre ++ post)).2) := by
  have hlen : (decideEach digest m b pre).1.length = pre.length := decideEach_length m b pre
  rw [decideEach_append, decideEach_append, decideEach]
  cases answer with
  | ok done => simp only [Still] at h; simp [h, ← hlen]
  | error e => simp only [Still] at h; simp [h, ← hlen]

/-- An answer as its group gives it: as it was decided, or, where what the group decided is not
written, as the failure to write it. -/
def Writer.given (digest : Publication → Bytes) (w : Writer) (m : Moment) (ops : List Op)
    (answer : Outcome) : Outcome :=
  match w.laid m (decideEach digest m (Batch.over' w.store w.next) ops).2 with
  | .ok _ => answer
  | .error e => .error e.again

/-- What an operation asked among others does when it is inert there: the group leaves the
same store, audit sequence and durability as without it, every other operation is answered the
same, and it is answered `answer`, but where the others' changes are not written: always so where
they leave none. -/
structure Inert (digest : Publication → Bytes) (w : Writer) (m : Moment) (pre : List Op)
    (op : Op) (answer : Outcome) (post : List Op) : Prop where
  writer : (w.committed digest m (pre ++ op :: post)).writer =
    (w.committed digest m (pre ++ post)).writer
  durable : (w.committed digest m (pre ++ op :: post)).durable =
    (w.committed digest m (pre ++ post)).durable
  answers : (w.committed digest m (pre ++ op :: post)).answers =
    (w.committed digest m (pre ++ post)).answers.take pre.length ++
      w.given digest m (pre ++ post) answer ::
        (w.committed digest m (pre ++ post)).answers.drop pre.length
  idle : w.idle (decideEach digest m (Batch.over' w.store w.next) (pre ++ post)).2 →
    (w.committed digest m (pre ++ op :: post)).answers[pre.length]? = some answer

theorem inert_of_still {w : Writer} {m : Moment} {pre : List Op} {op : Op} {answer : Outcome}
    (post : List Op)
    (h : Still digest m (decideEach digest m (Batch.over' w.store w.next) pre).2 op answer) :
    Inert digest w m pre op answer post := by
  have hd := decideEach_still post h
  have hlen : (decideEach digest m (Batch.over' w.store w.next) (pre ++ post)).1.length =
      pre.length + post.length := by
    rw [decideEach_length, List.length_append]
  have hle : pre.length ≤ pre.length + post.length := Nat.le_add_right _ _
  cases hl : w.laid m (decideEach digest m (Batch.over' w.store w.next) (pre ++ post)).2 with
  | ok store => constructor <;> simp [Writer.committed, Writer.given, hd, hl, hlen, hle]
  | error e =>
      have hnot : ¬w.idle (decideEach digest m (Batch.over' w.store w.next) (pre ++ post)).2 := by
        intro hidle
        rw [Writer.laid, if_pos hidle] at hl
        cases hl
      constructor <;> simp [Writer.committed, Writer.given, hd, hl, hnot]

/-- Asked by itself, an inert operation is answered so and leaves the writer as it was. -/
theorem Inert.alone {w : Writer} {m : Moment} {op : Op} {answer : Outcome}
    (h : Inert digest w m [] op answer []) :
    (w.committed digest m [op]).answers = [answer] ∧ (w.committed digest m [op]).writer = w := by
  have hlaid : w.laid m (Batch.over' w.store w.next) = .ok w.store := if_pos ⟨rfl, rfl⟩
  have hfirst : (w.committed digest m [op]).answers[0]? = some answer := h.idle ⟨rfl, rfl⟩
  have hlength : (w.committed digest m [op]).answers.length = 1 := by
    rw [show [op] = [] ++ op :: [] from rfl, h.answers]
    simp [Writer.committed, decideEach, hlaid]
  constructor
  · obtain ⟨first, hanswers⟩ := List.length_eq_one_iff.mp hlength
    rw [hanswers] at hfirst ⊢
    rw [Option.some.inj hfirst]
  · rw [show [op] = [] ++ op :: [] from rfl, h.writer]
    simp only [Writer.committed, List.append_nil, decideEach, hlaid]
    rfl

/-! ## The operations that came out -/

/-- An operation that came out, with its answer, and the batch it was decided in before and
after it. -/
structure Ruling where
  moment : Moment
  op : Op
  done : Done
  before : Batch
  stage : Batch

namespace Ruling

def after (r : Ruling) : Batch := r.before.taking r.stage

/-- A ruling is what deciding its operation on a stage comes to. -/
structure Holds (digest : Publication → Bytes) (r : Ruling) : Prop where
  made : r.op.Made
  ran : (r.op.decide digest r.moment).run r.before.staged = .ok (r.done, r.stage)

theorem Holds.adds {r : Ruling} (h : r.Holds digest) : Adds r.op.kinds r.before.staged r.stage :=
  Op.decide_adds h.made h.ran

theorem Holds.read_after {r : Ruling} (h : r.Holds digest) : r.after.read = r.stage.read :=
  Batch.read_taking h.adds.below

end Ruling

/-- The operations of a group that came out. -/
def rulings (digest : Publication → Bytes) (m : Moment) : Batch → List Op → List Ruling
  | _, [] => []
  | b, op :: ops =>
      match (op.decide digest m).run b.staged with
      | .ok (done, stage) => ⟨m, op, done, b, stage⟩ :: rulings digest m (b.taking stage) ops
      | .error _ => rulings digest m b ops

/-- A run of rulings, each deciding where the one before it left off. -/
inductive Ruled : Batch → List Ruling → Batch → Prop
  | nil (b : Batch) : Ruled b [] b
  | cons {r : Ruling} {rs : List Ruling} {b : Batch} (h : Ruled r.after rs b) :
      Ruled r.before (r :: rs) b

theorem rulings_ruled (m : Moment) (b : Batch) (ops : List Op) :
    Ruled b (rulings digest m b ops) (decideEach digest m b ops).2 := by
  induction ops generalizing b with
  | nil => exact .nil b
  | cons op ops ih =>
      rw [rulings, decideEach]
      cases (op.decide digest m).run b.staged with
      | ok p => exact .cons (r := ⟨m, op, p.1, b, p.2⟩) (ih (b.taking p.2))
      | error e => exact ih b

theorem rulings_hold {m : Moment} {b : Batch} {ops : List Op} (hmade : ∀ op ∈ ops, op.Made) :
    ∀ r ∈ rulings digest m b ops, r.Holds digest := by
  induction ops generalizing b with
  | nil => simp [rulings]
  | cons op ops ih =>
      have hops : ∀ op ∈ ops, op.Made := fun op hop => hmade op (by simp [hop])
      rw [rulings]
      cases hr : (op.decide digest m).run b.staged with
      | ok p =>
          intro r hmem
          rcases List.mem_cons.mp hmem with rfl | hmem
          · exact ⟨hmade op (by simp), hr⟩
          · exact ih hops r hmem
      | error e => exact ih hops

theorem rulings_append (m : Moment) (b : Batch) (ops more : List Op) :
    rulings digest m b (ops ++ more) =
      rulings digest m b ops ++ rulings digest m (decideEach digest m b ops).2 more := by
  induction ops generalizing b with
  | nil => rfl
  | cons op ops ih =>
      rw [List.cons_append, rulings, rulings, decideEach]
      cases (op.decide digest m).run b.staged with
      | ok p => simp only [ih, List.cons_append]
      | error e => simp only [ih]

end XmipPersist
