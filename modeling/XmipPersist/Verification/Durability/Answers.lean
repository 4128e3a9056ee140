import XmipPersist.Library.Steps
import XmipPersist.Model.Syncer
import XmipPersist.Verification.Durability.Spent
import XmipPersist.Verification.Writer.View

/-! # What an answer attests is kept

An operation answers once a sync begun after its batch was written has come to its end, and so
what it wrote outlives every crash. A group that leaves nothing to write answers at once: what
its answers rest on is then as durable as the writes they found it in.
-/

namespace XmipPersist

variable {digest : Publication → Bytes}

/-! ## What an answer rests on -/

/-- The places an operation's answer rests on, beside what its batch wrote. -/
def Op.rests : Op → List Place
  | .put _ _ _ => []
  | .claim asked _ => [claimPlace asked.journey]
  | .renew claims _ => claims.map fun asked => claimPlace asked.journey
  | .release asked => [claimPlace asked.journey]
  | .handOn asked => [claimPlace asked.claim.journey]
  | .turn asked =>
      claimPlace asked.handOn.claim.journey ::
        (asked.instances.map fun write => (.processInstance, .id write.record.identifier)) ++
          (asked.keys ++ asked.unkeyed).map fun key => (.instanceKey, .id key.key)
  | .publish asked =>
      markerPlace asked.message.message :: asked.claims.map fun c => claimPlace c.journey
  | .replay asked => [(.deadMessage, .pair asked.queue asked.message)]
  | .audit _ => []
  | .kept _ => [(.sequence, .kept)]

/-- What an answer attests: the places its operation rests on, and those its batch wrote. -/
def Answered.attests (a : Answered) : List Place := a.op.rests ++ a.wrote.map Change.place

/-- What an operation's batch wrote is in the store it left, the times it is stamped with
aside. -/
def Answered.Stands (disk : Synced Store) (a : Answered) : Prop :=
  ∀ p value, p.1.seen = true ∨ p = (.sequence, .kept) → written a.wrote p = some value →
    ((disk.after a.position).records p).map Content.bare = value.map Content.bare

/-- What an answer attests was written, and is there still after every crash. -/
structure Answered.Kept (disk : Synced Store) (a : Answered) : Prop where
  holds : ∀ p ∈ a.attests, disk.Holds (fun s => s.get p) a.position
  stands : a.Stands disk

/-- An event whose raw writes are a Message's or a Journey's own record. -/
def Event.Made : Event → Prop
  | .group _ ops => ∀ op ∈ ops, op.Made
  | _ => True

namespace Node

/-- Whatever returned attests what was written and no crash takes back. -/
def Safe (n : Node) : Prop := ∀ a ∈ n.returned, a.Kept n.disk

/-! ## The order of writes, syncs and answers -/

/-- The answers a batch awaits are of its own position, and it was written before `size`. -/
def PendingBy (size : ℕ) (pending : Pending) : Prop :=
  pending.position ≤ size ∧ ∀ a ∈ pending.answers, a.position = pending.position

/-- Every batch awaiting a sync was written, a sync in progress began after every batch it is
for, and what returned was written. -/
structure Ordered (n : Node) : Prop where
  unhanded : ∀ pending, n.unhanded = some pending → PendingBy n.disk.size pending
  inbox : ∀ pending ∈ n.inbox, PendingBy n.disk.size pending
  taken : ∀ pending ∈ n.taken, PendingBy n.disk.size pending
  began : ∀ began, n.began = some began → began ≤ n.disk.size ∧
    ∀ pending ∈ n.taken, PendingBy began pending
  idle : n.taken = [] → n.began = none
  returned : ∀ a ∈ n.returned, a.position ≤ n.disk.size

theorem PendingBy.mono {size size' : ℕ} {pending : Pending} (h : PendingBy size pending)
    (hle : size ≤ size') : PendingBy size' pending :=
  ⟨h.1.trans hle, h.2⟩

theorem mem_answered {n : Node} {m : Moment} {ops : List Op} {position : ℕ}
    {wrote : List Change} {a : Answered} :
    a ∈ n.answered digest m ops position wrote ↔
      (a.op, .ok a.done) ∈ ops.zip (n.writer.committed digest m ops).answers ∧
        a.position = position ∧ a.wrote = wrote := by
  simp only [answered, List.mem_filterMap]
  constructor
  · rintro ⟨⟨op, outcome⟩, hmem, h⟩
    cases outcome with
    | ok done =>
        simp only [Option.some.injEq] at h
        rw [← h]
        exact ⟨hmem, rfl, rfl⟩
    | error e => simp at h
  · rintro ⟨hmem, hposition, hwrote⟩
    exact ⟨_, hmem, by rw [← hposition, ← hwrote]⟩

theorem opened_ordered (s : Store) (next : ℕ) : (opened s next).Ordered :=
  ⟨by simp [opened], by simp [opened], by simp [opened], by simp [opened], by simp [opened],
    by simp [opened]⟩

/-- A write leaves what waits for a sync, and what returned, in order. -/
theorem Ordered.write {n : Node} (h : n.Ordered) (state : Store) :
    ({ n with disk := n.disk.write state } : Node).Ordered := by
  have hsize : n.disk.size ≤ (n.disk.write state).size := by simp
  refine ⟨fun p hp => (h.unhanded p hp).mono hsize, fun p hp => (h.inbox p hp).mono hsize,
    fun p hp => (h.taken p hp).mono hsize, fun b hb => ?_, h.idle,
    fun a ha => (h.returned a ha).trans hsize⟩
  have hbegan := h.began b hb
  exact ⟨hbegan.1.trans hsize, hbegan.2⟩

/-- What an operation's batch wrote stays in the store it left. -/
theorem Stands.write {disk : Synced Store} {a : Answered} (h : a.Stands disk)
    (hposition : a.position ≤ disk.size) (state : Store) : a.Stands (disk.write state) := by
  intro p value hp hwritten
  rw [Synced.after_write disk state hposition]
  exact h p value hp hwritten

theorem Safe.write {n : Node} (h : n.Safe) (ho : n.Ordered) (state : Store) :
    ({ n with disk := n.disk.write state } : Node).Safe :=
  fun a ha => ⟨fun p hp => ((h a ha).holds p hp).write (ho.returned a ha) state,
    Stands.write (h a ha).stands (ho.returned a ha) state⟩

/-- The batches written and not synced, wherever they are on their way. -/
def awaiting (n : Node) : List Pending := n.unhanded.toList ++ n.inbox ++ n.taken

theorem mem_awaiting {n : Node} {pending : Pending} :
    pending ∈ n.awaiting ↔
      n.unhanded = some pending ∨ pending ∈ n.inbox ∨ pending ∈ n.taken := by
  simp [awaiting]

/-- Every state written is of proper records, and what a batch wrote is in the state it left. -/
structure Written (n : Node) : Prop where
  proper : ∀ k ≤ n.disk.size, (n.disk.after k).Proper
  stands : ∀ pending ∈ n.awaiting, ∀ a ∈ pending.answers, a.Stands n.disk

/-- No write since the last state kept moved the record at a place. -/
def Unmoved (n : Node) (p : Place) : Prop :=
  ∀ k, n.disk.kept ≤ k → k ≤ n.disk.size → (n.disk.after k).get p = n.disk.now.get p

/-- Where no operation of a group finds anything left to do, the records that tell them so are as
the last sync kept them. -/
def Rests (digest : Publication → Bytes) (n : Node) : Event → Prop
  | .group m ops => n.unhanded = none →
      (∀ op ∈ ops, op.Spent digest m n.batch ∨ op.Refused digest n.batch) →
        ∀ op ∈ ops, op.Spent digest m n.batch → ∀ p ∈ op.rests, n.Unmoved p
  | _ => True

/-! ## One step -/

theorem group_ordered {n : Node} (h : n.Ordered) (m : Moment) (ops : List Op) :
    (n.group digest m ops).Ordered := by
  unfold group
  cases hu : n.unhanded with
  | some pending => exact h
  | none =>
      cases (n.writer.committed digest m ops).durable with
      | kept =>
          refine ⟨by simp, h.inbox, h.taken, h.began, h.idle, fun a ha => ?_⟩
          rcases List.mem_append.mp ha with ha | ha
          · exact h.returned a ha
          · exact (mem_answered.mp ha).2.1.le
      | pending =>
          have hw := h.write (n.writer.committed digest m ops).writer.store
          refine ⟨fun pending hp => ?_, hw.inbox, hw.taken, hw.began, hw.idle, hw.returned⟩
          cases hp
          exact ⟨by simp, fun a ha => (mem_answered.mp ha).2.1⟩

/-- What is answered at once is answered by operations that found nothing to do. -/
theorem spent_of_kept {n : Node} (hn : n.disk.now.Proper) {m : Moment} {ops : List Op}
    (hd : (n.writer.committed digest m ops).durable = .kept) {op : Op} {done : Done}
    (hmem : (op, .ok done) ∈ ops.zip (n.writer.committed digest m ops).answers) :
    (∀ op ∈ ops, op.Spent digest m n.batch ∨ op.Refused digest n.batch) ∧
      op.Spent digest m n.batch := by
  rcases Writer.committed_of_kept hd with ⟨e, hanswers⟩ | hidle
  · rw [hanswers] at hmem
    obtain ⟨_, -, herror⟩ := List.mem_map.mp (List.of_mem_zip hmem).2
    cases herror
  · have hall : ∀ op ∈ ops, op.Spent digest m n.batch ∨ op.Refused digest n.batch :=
      (Writer.idle_iff (w := n.writer) hn m ops).mp hidle
    have hstill : List.Forall₂ (Still digest m n.batch) ops (decideEach digest m n.batch ops).1 :=
      (decideEach_spent (hn.over' n.next) hall).1
    rw [(Writer.committed_of_idle hidle).1] at hmem
    refine ⟨hall, (hall op (List.of_mem_zip hmem).1).resolve_right fun hrefused => ?_⟩
    obtain ⟨e, herror⟩ := hrefused.still (m := m)
    cases (List.forall₂_zip hstill hmem).unique herror

/-- What a written group decided is in the store it left. -/
theorem stands_of_pending {n : Node} (hn : n.disk.now.Proper) {m : Moment} {ops : List Op}
    (hd : (n.writer.committed digest m ops).durable = .pending) {a : Answered}
    (ha : a ∈ n.answered digest m ops (n.disk.size + 1) (n.wrote digest m ops)) :
    a.Stands (n.disk.write (n.writer.committed digest m ops).writer.store) := by
  obtain ⟨-, hposition, hwrote⟩ := mem_answered.mp ha
  have hnow : (n.disk.write (n.writer.committed digest m ops).writer.store).after a.position =
      (n.writer.committed digest m ops).writer.store := by
    rw [hposition, ← Synced.size_write n.disk (n.writer.committed digest m ops).writer.store]
    exact Synced.now_write _ _
  have hlaid := Writer.committed_of_pending hd
  intro p value hp hvalue
  rw [hnow]
  have hwritten : written (decideEach digest m n.batch ops).2.changes p = some value := by
    rw [hwrote] at hvalue
    exact hvalue
  rcases hp with hseen | rfl
  · have hread : (decideEach digest m n.batch ops).2.read p = .ok value := by
      simp [Batch.read, hwritten]
    have hview := congrFun (laid_view hlaid hn (decideEach_below m n.batch ops)) p
    rw [show decideEach digest m (Batch.over' n.writer.store n.writer.next) ops =
      decideEach digest m n.batch ops from rfl, Batch.view_eq hseen hread] at hview
    rw [← hview]
    simp [Store.view, hseen]
  · have hkept := laid_sequence hlaid .kept
    rw [show decideEach digest m (Batch.over' n.writer.store n.writer.next) ops =
      decideEach digest m n.batch ops from rfl, hwritten] at hkept
    simp only [reduceCtorEq, false_and, if_false, Option.getD_some] at hkept
    rw [hkept]

theorem deferred_written {n : Node} (h : n.Written) (ho : n.Ordered) {state : Store}
    (hstate : state.Proper) : ({ n with disk := n.disk.write state } : Node).Written := by
  constructor
  · intro k hk
    rw [Synced.size_write] at hk
    rcases Nat.lt_or_ge n.disk.size k with hlt | hle
    · obtain rfl : k = (n.disk.write state).size := by rw [Synced.size_write]; omega
      have hnow := Synced.now_write n.disk state
      rw [Synced.now] at hnow
      rw [hnow]
      exact hstate
    · rw [Synced.after_write n.disk state hle]
      exact h.proper k hle
  · intro pending hpending a ha
    refine Stands.write (h.stands pending hpending a ha) ?_ state
    have hby : PendingBy n.disk.size pending := by
      rcases mem_awaiting.mp hpending with hunhanded | hinbox | htaken
      · exact ho.unhanded pending hunhanded
      · exact ho.inbox pending hinbox
      · exact ho.taken pending htaken
    exact (hby.2 a ha).le.trans hby.1

theorem group_written {n : Node} (h : n.Written) (ho : n.Ordered) {m : Moment} {ops : List Op}
    (hmade : ∀ op ∈ ops, op.Made) : (n.group digest m ops).Written := by
  have hn : n.writer.store.Proper := h.proper n.disk.size le_rfl
  unfold group
  cases hu : n.unhanded with
  | some pending => exact h
  | none =>
      cases hd : (n.writer.committed digest m ops).durable with
      | kept =>
          refine ⟨h.proper, fun pending hp => h.stands pending ?_⟩
          rw [mem_awaiting] at hp ⊢
          simpa [hu] using hp
      | pending =>
          have hstate : (n.writer.after digest (.group m ops)).store.Proper :=
            Writer.after_proper hmade hn
          obtain ⟨hproper, hstands⟩ := deferred_written h ho hstate
          refine ⟨hproper, fun pending hp => ?_⟩
          rcases mem_awaiting.mp hp with hnew | hp
          · obtain rfl := Option.some.inj hnew
            exact fun a ha => stands_of_pending hn hd ha
          · exact hstands pending (mem_awaiting.mpr (.inr hp))

theorem hand_ordered {n : Node} (h : n.Ordered) : n.hand.Ordered := by
  unfold hand
  cases hu : n.unhanded with
  | none => exact h
  | some pending =>
      refine ⟨by simp, fun p hp => ?_, h.taken, h.began, h.idle, h.returned⟩
      rcases List.mem_append.mp hp with hp | hp
      · exact h.inbox p hp
      · rw [List.mem_singleton.mp hp]
        exact h.unhanded pending hu

theorem take_ordered {n : Node} (h : n.Ordered) (more : ℕ) : (n.take more).Ordered := by
  unfold take
  split
  · next first rest htaken hinbox =>
      have hmem : ∀ p ∈ first :: rest, PendingBy n.disk.size p := fun p hp =>
        h.inbox p (by rw [hinbox]; exact hp)
      have hbegan : n.began = none := h.idle htaken
      refine ⟨h.unhanded, fun p hp => hmem p ?_, fun p hp => hmem p ?_, ?_, by simp, h.returned⟩
      · exact List.mem_cons_of_mem _ (List.mem_of_mem_drop hp)
      · rcases List.mem_cons.mp hp with rfl | hp
        · exact List.mem_cons_self
        · exact List.mem_cons_of_mem _ (List.mem_of_mem_take hp)
      · intro b hb
        rw [hbegan] at hb
        cases hb
  · exact h

theorem begins_ordered {n : Node} (h : n.Ordered) : n.begins.Ordered := by
  unfold begins
  split
  · next first rest htaken _ =>
      refine ⟨h.unhanded, h.inbox, h.taken, ?_, by simp [htaken], h.returned⟩
      intro b hb
      cases hb
      exact ⟨le_rfl, h.taken⟩
  · exact h

theorem ends_ordered {n : Node} (h : n.Ordered) (synced : Bool) : (n.ends synced).Ordered := by
  unfold ends
  cases hb : n.began with
  | none => exact h
  | some began =>
      cases synced with
      | false => exact ⟨h.unhanded, h.inbox, by simp, by simp, by simp, h.returned⟩
      | true =>
          refine ⟨h.unhanded, h.inbox, by simp, by simp, by simp, fun a ha => ?_⟩
          rcases List.mem_append.mp ha with ha | ha
          · exact h.returned a ha
          · obtain ⟨pending, hp, ha⟩ := List.mem_flatMap.mp ha
            have hby := h.taken pending hp
            rw [hby.2 a ha]
            exact hby.1

theorem crash_ordered {n : Node} : n.crash.Ordered := by
  refine ⟨by simp [crash], by simp [crash], by simp [crash], by simp [crash], by simp [crash], ?_⟩
  intro a ha
  obtain ⟨before, -, rfl⟩ := List.mem_map.mp ha
  simp [crash]

theorem after_ordered {n : Node} (h : n.Ordered) (e : Event) : (n.after digest e).Ordered := by
  cases e with
  | group m ops => exact group_ordered h m ops
  | hand => exact hand_ordered h
  | take more => exact take_ordered h more
  | begins => exact begins_ordered h
  | ends synced => exact ends_ordered h synced
  | chunk chunk => exact h.write _
  | stream last stream now => exact h.write _
  | crash => exact crash_ordered

/-- Steps that hand batches on and drop them leave what the rest wrote where it was. -/
theorem Written.of_awaiting {n n' : Node} (h : n.Written) (hsize : n'.disk.size ≤ n.disk.size)
    (hafter : ∀ k ≤ n'.disk.size, n'.disk.after k = n.disk.after k)
    (hawaiting : ∀ pending ∈ n'.awaiting, pending ∈ n.awaiting ∧
      ∀ a ∈ pending.answers, n'.disk.after a.position = n.disk.after a.position) : n'.Written := by
  constructor
  · intro k hk
    rw [hafter k hk]
    exact h.proper k (hk.trans hsize)
  · intro pending hpending a ha p value hp hvalue
    obtain ⟨hmem, hsame⟩ := hawaiting pending hpending
    rw [hsame a ha]
    exact h.stands pending hmem a ha p value hp hvalue

theorem Written.crash {n : Node} (h : n.Written) : n.crash.Written := by
  refine ⟨fun k hk => ?_, by simp [Node.crash, awaiting]⟩
  have hk' : k ≤ n.disk.kept := by simpa [Node.crash] using hk
  have hstate : n.crash.disk.after k = n.disk.after k := Synced.after_crash n.disk hk'
  rw [hstate]
  exact h.proper k (hk'.trans n.disk.kept_le_size)

theorem after_written {n : Node} (h : n.Written) (ho : n.Ordered) {e : Event} (hmade : e.Made) :
    (n.after digest e).Written := by
  cases e with
  | group m ops => exact group_written h ho hmade
  | hand =>
      simp only [after, hand]
      cases hu : n.unhanded with
      | none => exact h
      | some pending =>
          refine h.of_awaiting le_rfl (fun _ _ => rfl) fun other hother => ⟨?_, fun _ _ => rfl⟩
          simp only [mem_awaiting, hu, reduceCtorEq, false_or, List.mem_append,
            List.mem_singleton, Option.some.injEq] at hother ⊢
          tauto
  | take more =>
      simp only [after, take]
      split
      · next first rest htaken hinbox =>
          refine h.of_awaiting le_rfl (fun _ _ => rfl) fun other hother => ⟨?_, fun _ _ => rfl⟩
          have hrest : ∀ pending, pending ∈ rest.take more ∨ pending ∈ rest.drop more →
              pending ∈ rest := by
            rintro pending (hmem | hmem)
            · exact List.mem_of_mem_take hmem
            · exact List.mem_of_mem_drop hmem
          have hother' := hrest other
          simp only [mem_awaiting, htaken, hinbox, List.mem_cons] at hother ⊢
          tauto
      · exact h
  | begins =>
      simp only [after, begins]
      split
      · exact h.of_awaiting le_rfl (fun _ _ => rfl) fun _ hother => ⟨hother, fun _ _ => rfl⟩
      · exact h
  | ends synced =>
      simp only [after, ends]
      cases n.began with
      | none => exact h
      | some began =>
          have hless : ∀ {other : Pending}, other ∈ n.unhanded.toList ++ n.inbox ++ [] →
              other ∈ n.awaiting := fun hother => by
            rw [List.append_nil] at hother
            exact List.mem_append_left _ hother
          cases synced with
          | false =>
              exact h.of_awaiting le_rfl (fun _ _ => rfl) fun _ hother =>
                ⟨hless hother, fun _ _ => rfl⟩
          | true =>
              exact h.of_awaiting le_rfl (fun _ _ => rfl) fun _ hother =>
                ⟨hless hother, fun _ _ => rfl⟩
  | chunk chunk =>
      have hstate : (n.writer.after digest (.chunk chunk)).store.Proper :=
        Writer.after_proper trivial (h.proper n.disk.size le_rfl)
      exact deferred_written h ho hstate
  | stream last stream now =>
      have hstate : (n.writer.after digest (.stream last stream now)).store.Proper :=
        Writer.after_proper trivial (h.proper n.disk.size le_rfl)
      exact deferred_written h ho hstate
  | crash => exact h.crash

theorem run_ordered {n : Node} (h : n.Ordered) (events : List Event) :
    (n.run digest events).Ordered := by
  induction events generalizing n with
  | nil => exact h
  | cons e events ih => exact ih (after_ordered h e)

theorem run_written {n : Node} (h : n.Written) (ho : n.Ordered) {events : List Event}
    (hmade : ∀ e ∈ events, e.Made) : (n.run digest events).Written := by
  induction events generalizing n with
  | nil => exact h
  | cons e events ih =>
      exact ih (after_written h ho (hmade e (by simp))) (after_ordered ho e)
        fun other hother => hmade other (by simp [hother])

theorem opened_written {s : Store} (hs : s.Proper) (next : ℕ) : (opened s next).Written := by
  refine ⟨fun k hk => ?_, by simp [opened, awaiting]⟩
  obtain rfl : k = 0 := by simpa [opened] using hk
  exact hs

end Node

end XmipPersist
