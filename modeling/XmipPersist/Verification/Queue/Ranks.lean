import XmipPersist.Library.Numbered
import XmipPersist.Verification.Writer.View

/-! # The queues a batch sees

Each of the three kinds of queue, in each node's or process's name, is a queue that numbers its
entries, kept in three kinds of record. A batch is seen as these queues, and one change to one
of their records is one change to one of them.
-/

namespace XmipPersist

/-! ## The kinds of queue -/

inductive Queues
  | held
  | failed
  | dead
  deriving DecidableEq

namespace Queues

def kinds : Queues → Kinds
  | held => Hold.kinds
  | failed => Failed.kinds
  | dead => Dead.kinds

/-- What a queue of a kind keeps for an entry. -/
def Entry : Queues → Content → Prop
  | held => fun content => ∃ entry : Held, content = .held entry
  | failed => fun content => ∃ entry : Failed, content = .failed entry
  | dead => fun content => ∃ entry : Dead, content = .dead entry

theorem kept (k : Queues) : k.kinds.Kept k.Entry := by
  cases k with
  | held => exact Hold.kept
  | failed => exact Failed.kept
  | dead => exact Dead.kept

/-! No record of one kind of queue is one of another, or of another of its own three kinds. -/

variable (k k' : Queues)

@[simp] theorem entry_inj : k.kinds.entry = k'.kinds.entry ↔ k = k' := by
  cases k <;> cases k' <;> decide

@[simp] theorem by_inj : k.kinds.by' = k'.kinds.by' ↔ k = k' := by
  cases k <;> cases k' <;> decide

@[simp] theorem places_inj : k.kinds.places = k'.kinds.places ↔ k = k' := by
  cases k <;> cases k' <;> decide

@[simp] theorem entry_ne_by : k.kinds.entry ≠ k'.kinds.by' := by
  cases k <;> cases k' <;> decide

@[simp] theorem entry_ne_places : k.kinds.entry ≠ k'.kinds.places := by
  cases k <;> cases k' <;> decide

@[simp] theorem by_ne_entry : k.kinds.by' ≠ k'.kinds.entry := (entry_ne_by k' k).symm

@[simp] theorem places_ne_entry : k.kinds.places ≠ k'.kinds.entry := (entry_ne_places k' k).symm

@[simp] theorem by_ne_places : k.kinds.by' ≠ k'.kinds.places := by
  cases k <;> cases k' <;> decide

@[simp] theorem places_ne_by : k.kinds.places ≠ k'.kinds.by' := (by_ne_places k' k).symm

end Queues

namespace Content

/-- The Journey or the Message an entry is about. -/
def about : Content → ℕ
  | .held entry => entry.hold.journey
  | .failed entry => entry.journey
  | .dead entry => entry.message.message
  | _ => 0

/-- An entry that says its own queue and its own place there. -/
def Seated (queue sequence : ℕ) : Content → Prop
  | .held entry => entry.hold.queue = queue ∧ entry.sequence = sequence
  | .failed entry => entry.queue = queue ∧ entry.sequence = sequence
  | .dead entry => entry.message.queue = queue ∧ entry.sequence = sequence
  | _ => False

@[simp] theorem about_bare (content : Content) : content.bare.about = content.about := by
  cases content <;> rfl

@[simp] theorem seated_bare (queue sequence : ℕ) (content : Content) :
    content.bare.Seated queue sequence ↔ content.Seated queue sequence := by
  cases content <;> exact Iff.rfl

/-- What an index keeps of something in its queue: nothing, that it was taken out, or its
place. -/
def placing : Option Content → Option (Option ℕ)
  | some (.number sequence) => some (some sequence)
  | some .nothing => some none
  | _ => none

end Content

/-! ## A queue as it is seen -/

namespace View

def placesOf (v : View) (k : Queues) (q : ℕ) : Places :=
  match v (k.kinds.places, .id q) with
  | some (.places kept) => kept
  | _ => {}

def queue (v : View) (k : Queues) (q : ℕ) : Numbered Content ℕ where
  entry n := v (k.kinds.entry, .pair q n)
  index about := Content.placing (v (k.kinds.by', .pair q about))
  first := (v.placesOf k q).first
  next := (v.placesOf k q).next
  count := (v.placesOf k q).count

/-- Every queue counts, bounds and finds its own entries. -/
def Queued (v : View) : Prop := ∀ k q, (v.queue k q).Orderly Content.about (Content.Seated q)

/-- Every entry is at the place it says, and none other of its queue is about the same. -/
def Sole (v : View) : Prop := ∀ (k : Queues) q n entry,
  v (k.kinds.entry, .pair q n) = some entry →
    entry.Seated q n ∧ ∀ m other, v (k.kinds.entry, .pair q m) = some other →
      other.about = entry.about → m = n

variable {v : View}

theorem Queued.sole (h : v.Queued) : v.Sole := fun k q n _ hn =>
  ⟨(h k q).belongs n _ hn, fun _ _ hm he => (h k q).sole hm hn he⟩

/-! ### One change to one record -/

/-- One queue of a view as it becomes, and every other as it was. -/
structure OneQueue (v v' : View) (k : Queues) (q : ℕ) (queue : Numbered Content ℕ) : Prop where
  self : v'.queue k q = queue
  other : ∀ k' q', ¬(k' = k ∧ q' = q) → v'.queue k' q' = v.queue k' q'

variable (v) (k : Queues) (q : ℕ)

theorem queue_entry (n : ℕ) (value : Option Content) :
    v.OneQueue (Function.update v (k.kinds.entry, .pair q n) value) k q
      { v.queue k q with entry := Function.update (v.queue k q).entry n value } := by
  refine ⟨?_, fun k' q' hne => ?_⟩
  · simp only [queue, placesOf, Function.update_apply, Prod.mk.injEq, Key.pair.injEq]
    simp [funext_iff, Function.update_apply]
  · have hne' : ∀ m, ¬(k' = k ∧ q' = q ∧ m = n) := fun m h => hne ⟨h.1, h.2.1⟩
    simp [queue, placesOf, hne']

theorem queue_index (about : ℕ) (value : Option Content) :
    v.OneQueue (Function.update v (k.kinds.by', .pair q about) value) k q
      { v.queue k q with
        index := Function.update (v.queue k q).index about (Content.placing value) } := by
  refine ⟨?_, fun k' q' hne => ?_⟩
  · simp only [queue, placesOf, Function.update_apply, Prod.mk.injEq, Key.pair.injEq]
    simp only [Queues.entry_ne_by, Queues.places_ne_by, false_and, if_false, true_and,
      Numbered.mk.injEq, and_self, and_true, funext_iff, Function.update_apply]
    intro other
    split <;> rfl
  · have hne' : ∀ other, ¬(k' = k ∧ q' = q ∧ other = about) := fun m h => hne ⟨h.1, h.2.1⟩
    simp [queue, placesOf, hne']

theorem queue_places (kept : Places) :
    v.OneQueue (Function.update v (k.kinds.places, .id q) (some (.places kept))) k q
      { v.queue k q with first := kept.first, next := kept.next, count := kept.count } := by
  refine ⟨?_, fun k' q' hne => ?_⟩
  · simp [queue, placesOf]
  · simp [queue, placesOf, hne]

variable {v k q} {v' v'' : View} {a b : Numbered Content ℕ}

theorem OneQueue.trans (h : v.OneQueue v' k q a) (h' : v'.OneQueue v'' k q b) :
    v.OneQueue v'' k q b :=
  ⟨h'.self, fun k' q' hne => (h'.other k' q' hne).trans (h.other k' q' hne)⟩

theorem OneQueue.queued (h : v.OneQueue v' k q a) (hv : v.Queued)
    (ha : a.Orderly Content.about (Content.Seated q)) : v'.Queued := by
  intro k' q'
  by_cases he : k' = k ∧ q' = q
  · obtain ⟨rfl, rfl⟩ := he
    rw [h.self]
    exact ha
  · rw [h.other k' q' he]
    exact hv k' q'

theorem OneQueue.later (h : v.OneQueue v' k q a)
    (ha : Numbered.Later Content.about (v.queue k q) a) (k' : Queues) (q' : ℕ) :
    Numbered.Later Content.about (v.queue k' q') (v'.queue k' q') := by
  by_cases he : k' = k ∧ q' = q
  · obtain ⟨rfl, rfl⟩ := he
    rw [h.self]
    exact ha
  · rw [h.other k' q' he]
    exact .refl _ _

theorem OneQueue.index (h : v.OneQueue v' k q a) (about : ℕ) (value : Option Content) :
    v.OneQueue (Function.update v' (k.kinds.by', .pair q about) value) k q
      { a with index := Function.update a.index about (Content.placing value) } := by
  have hnext := h.trans (v'.queue_index k q about value)
  rw [h.self] at hnext
  exact hnext

theorem OneQueue.places (h : v.OneQueue v' k q a) (kept : Places) :
    v.OneQueue (Function.update v' (k.kinds.places, .id q) (some (.places kept))) k q
      { a with first := kept.first, next := kept.next, count := kept.count } := by
  have hnext := h.trans (v'.queue_places k q kept)
  rw [h.self] at hnext
  exact hnext

/-- The records of an entry placed at its queue's end. -/
theorem queue_placed (v : View) (k : Queues) (q about : ℕ) (entry : Content) :
    v.OneQueue
      (Function.update (Function.update (Function.update v
        (k.kinds.entry, .pair q (v.placesOf k q).next) (some entry))
        (k.kinds.by', .pair q about) (some (.number (v.placesOf k q).next)))
        (k.kinds.places, .id q) (some (.places { v.placesOf k q with
          next := (v.placesOf k q).next + 1
          count := (v.placesOf k q).count + 1 })))
      k q ((v.queue k q).place about entry) :=
  ((v.queue_entry k q _ (some entry)).index about _).places _

/-- The records of an entry taken out, with what is kept of what it was about. -/
theorem queue_takenOut (v : View) (k : Queues) (q n about : ℕ) (value : Option Content) :
    v.OneQueue
      (Function.update (Function.update (Function.update v
        (k.kinds.entry, .pair q n) none)
        (k.kinds.places, .id q) (some (.places (Queue.less (v.placesOf k q)))))
        (k.kinds.by', .pair q about) value)
      k q ((v.queue k q).takeOut n about (Content.placing value)) := by
  have hless : Queue.less (v.placesOf k q) =
      ⟨if (v.placesOf k q).count - 1 = 0 then (v.placesOf k q).next else (v.placesOf k q).first,
        (v.placesOf k q).next, (v.placesOf k q).count - 1⟩ := by
    simp only [Queue.less]
    split <;> rfl
  rw [hless]
  exact ((v.queue_entry k q n none).places _).index about value

/-- A queue is what its own records say. -/
theorem queue_congr (h : ∀ p : Place, p.1 ∈ k.kinds.all → v' p = v p) (q : ℕ) :
    v'.queue k q = v.queue k q := by
  have hentry : ∀ key, v' (k.kinds.entry, key) = v (k.kinds.entry, key) :=
    fun _ => h _ (by simp [Kinds.all])
  have hindex : ∀ key, v' (k.kinds.by', key) = v (k.kinds.by', key) :=
    fun _ => h _ (by simp [Kinds.all])
  have hplaces : ∀ key, v' (k.kinds.places, key) = v (k.kinds.places, key) :=
    fun _ => h _ (by simp [Kinds.all])
  simp only [queue, placesOf, hentry, hindex, hplaces]

theorem Sole.congr (h : v.Sole) (hsame : ∀ (k : Queues) q n,
    v' (k.kinds.entry, .pair q n) = v (k.kinds.entry, .pair q n)) : v'.Sole := by
  intro k q n entry hn
  rw [hsame] at hn
  have hsole := h k q n entry hn
  refine ⟨hsole.1, fun m other hm => ?_⟩
  rw [hsame] at hm
  exact hsole.2 m other hm

/-! ## Changes as they are seen -/

/-- What is seen once a change is made. -/
def with' (v : View) (c : Change) : View :=
  if c.kind.seen then Function.update v c.place (c.value.map Content.bare) else v

/-- What is seen once several are. -/
def after (v : View) (cs : List Change) : View := cs.foldl with' v

@[simp] theorem after_nil (v : View) : v.after [] = v := rfl

@[simp] theorem after_cons (v : View) (c : Change) (cs : List Change) :
    v.after (c :: cs) = (v.with' c).after cs := rfl

theorem after_append (v : View) (cs ds : List Change) :
    v.after (cs ++ ds) = (v.after cs).after ds := List.foldl_append

/-- Changes after each of which every entry is where it says, and alone in what it is about. -/
def Soles : View → List Change → Prop
  | _, [] => True
  | v, c :: cs => (v.with' c).Sole ∧ Soles (v.with' c) cs

theorem Soles.append {cs ds : List Change} (h : v.Soles cs) (h' : (v.after cs).Soles ds) :
    v.Soles (cs ++ ds) := by
  induction cs generalizing v with
  | nil => exact h'
  | cons c cs ih => exact ⟨h.1, ih h.2 h'⟩

/-- A change to no queue's entry. -/
theorem with_entry {c : Change} (hc : ∀ k : Queues, c.kind ≠ k.kinds.entry) (k : Queues)
    (q n : ℕ) : v.with' c (k.kinds.entry, .pair q n) = v (k.kinds.entry, .pair q n) := by
  unfold with'
  split
  · refine Function.update_of_ne (fun he => hc k ?_) _ _
    exact (congrArg Prod.fst he).symm
  · rfl

theorem Sole.soles (h : v.Sole) {cs : List Change}
    (hcs : ∀ c ∈ cs, ∀ k : Queues, c.kind ≠ k.kinds.entry) : v.Soles cs := by
  induction cs generalizing v with
  | nil => trivial
  | cons c cs ih =>
      have hc : (v.with' c).Sole := h.congr (with_entry (hcs c (by simp)))
      exact ⟨hc, ih hc fun d hd => hcs d (by simp [hd])⟩

theorem after_entry {cs : List Change} (hcs : ∀ c ∈ cs, ∀ k : Queues, c.kind ≠ k.kinds.entry)
    (k : Queues) (q n : ℕ) :
    v.after cs (k.kinds.entry, .pair q n) = v (k.kinds.entry, .pair q n) := by
  induction cs generalizing v with
  | nil => rfl
  | cons c cs ih =>
      rw [after_cons, ih fun d hd => hcs d (by simp [hd])]
      exact with_entry (hcs c (by simp)) k q n

/-- One entry written among changes to none: it is enough that they end so. -/
theorem Sole.soles_cons {c : Change} {cs : List Change}
    (hcs : ∀ c ∈ cs, ∀ k : Queues, c.kind ≠ k.kinds.entry) (h : (v.after (c :: cs)).Sole) :
    v.Soles (c :: cs) := by
  have hc : (v.with' c).Sole := h.congr fun k q n => (after_entry hcs k q n).symm
  exact ⟨hc, hc.soles hcs⟩

end View

/-- A batch is seen as what is below it once its changes are made. -/
theorem Batch.view_append {b b' : Batch} (hbelow : b'.below = b.below) {added : List Change}
    (h : b'.changes = b.changes ++ added) : b'.view = b.view.after added := by
  induction added using List.reverseRecOn generalizing b' with
  | nil =>
      have hsame : b'.read = b.read := by
        funext p
        simp [Batch.read, hbelow, h]
      funext p
      exact Batch.view_congr (by rw [hsame])
  | append_singleton added c ih =>
      have hmid := @ih ⟨b.below, b.changes ++ added, b.next⟩ rfl rfl
      rw [View.after_append, ← hmid]
      have hput : b'.read =
          (Batch.put ⟨b.below, b.changes ++ added, b.next⟩ c.kind c.key c.value).read := by
        funext p
        simp [Batch.read, hbelow, h]
      have hview : b'.view =
          (Batch.put ⟨b.below, b.changes ++ added, b.next⟩ c.kind c.key c.value).view := by
        funext p
        exact Batch.view_congr (by rw [hput])
      rw [hview, View.after_cons, View.after_nil, View.with']
      split
      · next hseen => exact Batch.view_put _ _ _ hseen
      · next hseen =>
          funext p
          by_cases hp : p.1.seen = true
          · refine Batch.view_congr (Batch.read_put_of_ne _ _ ?_)
            rintro rfl
            exact hseen hp
          · simp [Batch.view, hp]

end XmipPersist
