import XmipPersist.Verification.Queue.Ranks

/-! # Every operation keeps every queue in order

Each of a queue's own steps leaves it orderly, gives no place again, and changes one entry at a
time. An operation is such steps and others that touch no queue, so it does too.
-/

namespace XmipPersist

variable {digest : Publication → Bytes}

/-! ## What a step keeps -/

/-- A batch whose records are of their own kinds and whose queues are in order. -/
structure Batch.InOrder (b : Batch) : Prop where
  proper : b.Proper
  queued : b.view.Queued

/-- From one batch in order to a later one. -/
structure Orders (b b' : Batch) : Prop where
  inOrder : b'.InOrder
  below : b'.below = b.below
  later : ∀ k q, Numbered.Later Content.about (b.view.queue k q) (b'.view.queue k q)
  changes : ∃ added, b'.changes = b.changes ++ added ∧ b.view.Soles added

namespace Orders

variable {b b' b'' : Batch}

theorem refl (h : b.InOrder) : Orders b b :=
  ⟨h, rfl, fun _ _ => .refl _ _, [], by simp, trivial⟩

theorem trans (h : Orders b b') (h' : Orders b' b'') : Orders b b'' := by
  obtain ⟨added, he, hsoles⟩ := h.changes
  obtain ⟨more, he', hsoles'⟩ := h'.changes
  refine ⟨h'.inOrder, h'.below.trans h.below, fun k q => (h.later k q).trans (h'.later k q),
    added ++ more, by rw [he', he, List.append_assoc], hsoles.append ?_⟩
  rwa [← Batch.view_append h.below he]

/-- One entry of one queue changed, with records of that queue beside it. -/
theorem of_one {kinds : List Kind} (hb : b.InOrder) (hadds : Adds kinds b b') {c : Change}
    {cs : List Change} (hc : b'.changes = b.changes ++ c :: cs)
    (hcs : ∀ d ∈ cs, ∀ k : Queues, d.kind ≠ k.kinds.entry) {k : Queues} {q : ℕ}
    {queue : Numbered Content ℕ} (hone : b.view.OneQueue b'.view k q queue)
    (hqueue : queue.Orderly Content.about (Content.Seated q))
    (hlater : Numbered.Later Content.about (b.view.queue k q) queue) : Orders b b' := by
  have hqueued : b'.view.Queued := hone.queued hb.queued hqueue
  refine ⟨⟨hadds.proper hb.proper, hqueued⟩, hadds.below, hone.later hlater, c :: cs, hc, ?_⟩
  apply View.Sole.soles_cons hcs
  rw [← Batch.view_append hadds.below hc]
  exact hqueued.sole

/-- Records that no queue is kept in changed. -/
theorem of_adds {kinds : List Kind} (hb : b.InOrder) (hadds : Adds kinds b b')
    (hkinds : ∀ k : Queues, ∀ kind ∈ k.kinds.all, kind ∉ kinds) : Orders b b' := by
  have hqueue : ∀ k q, b'.view.queue k q = b.view.queue k q := fun k q =>
    View.queue_congr (fun p hp => hadds.view_of_kind (hkinds k _ hp)) q
  obtain ⟨added, he, hadded⟩ := hadds.changes
  refine ⟨⟨hadds.proper hb.proper, fun k q => ?_⟩, hadds.below, fun k q => ?_, added, he, ?_⟩
  · rw [hqueue]
    exact hb.queued k q
  · rw [hqueue]
    exact .refl _ _
  · refine hb.queued.sole.soles fun c hc k hk => ?_
    exact hkinds k c.kind (by simp [hk, Kinds.all]) (hadded c hc).2

end Orders

/-- Whatever `m` decides in a batch in order leaves one in order. -/
def Ordering {α : Type} (m : Deciding α) : Prop :=
  Decision.Moves (fun b b' => b.InOrder → Orders b b') m

namespace Ordering

variable {α β : Type}

theorem pure (a : α) : Ordering (pure a) := Decision.Moves.pure (fun _ => Orders.refl) a

theorem throw (e : PersistError) : Ordering (α := α) (throw e) := Decision.Moves.throw e

theorem bind {m : Deciding α} {f : α → Deciding β} (hm : Ordering m)
    (hf : ∀ a, Ordering (f a)) : Ordering (m >>= f) :=
  Decision.Moves.bind
    (fun _ _ _ h h' hb => (h hb).trans (h' (h hb).inOrder)) hm hf

theorem forM {g : β → Deciding PUnit} (xs : List β) (hg : ∀ x ∈ xs, Ordering (g x)) :
    Ordering (xs.forM g) :=
  Decision.Moves.forM (fun _ => Orders.refl)
    (fun _ _ _ h h' hb => (h hb).trans (h' (h hb).inOrder)) xs hg

theorem ite {m n : Deciding α} {c : Prop} [Decidable c] (hm : Ordering m) (hn : Ordering n) :
    Ordering (if c then m else n) :=
  Decision.Moves.ite hm hn

theorem reading (g : Batch → Except PersistError α) : Ordering (reading g) :=
  Decision.Moves.reading fun _ => Orders.refl

theorem of_reads {m : Deciding α} (h : Decision.Moves Eq m) : Ordering m :=
  Decision.Moves.of_eq (fun _ => Orders.refl) h

/-- A decision that writes no record of a queue. -/
theorem of_writes {kinds : List Kind} {m : Deciding α} (h : Writes kinds m)
    (hkinds : ∀ k : Queues, ∀ kind ∈ k.kinds.all, kind ∉ kinds) : Ordering m :=
  fun b a b' hr hb => Orders.of_adds hb (h b a b' hr) hkinds

end Ordering

/-! ## What a queue's steps read -/

theorem Batch.Proper.seen {b : Batch} (hb : b.Proper) (p : Place) (hp : p.1.seen = true) :
    ∃ found, b.read p = .ok found ∧ b.view p = found.map Content.bare ∧
      ∀ content, found = some content → p.1.holds p.2 content := by
  obtain ⟨found, hread, hholds⟩ := hb p
  exact ⟨found, hread, Batch.view_eq hp hread, hholds⟩

namespace Batch.Proper

variable {b : Batch} (hb : b.Proper) (k : Queues) (q : ℕ)

include hb

theorem read_entry (n : ℕ) :
    ∃ found, b.read (k.kinds.entry, .pair q n) = .ok found ∧
      (b.view.queue k q).entry n = found.map Content.bare ∧
      ∀ content, found = some content → k.Entry content := by
  obtain ⟨found, hread, hview, hholds⟩ := hb.seen (k.kinds.entry, .pair q n) (by cases k <;> rfl)
  refine ⟨found, hread, hview, fun content hc => ?_⟩
  have h := hholds content hc
  cases k <;> cases content <;> first | exact h.elim | exact ⟨_, rfl⟩

/-- What an index says is where its queue has it. -/
theorem read_index (about : ℕ) :
    ∃ found, b.read (k.kinds.by', .pair q about) = .ok found ∧
      (found.isSome = false → (b.view.queue k q).index about = none) ∧
      ∃ placed, Queue.Placed.of found = .ok placed ∧
        (b.view.queue k q).index about =
          match placed with
          | .never => none
          | .takenOut => some none
          | .at n => some (some n) := by
  obtain ⟨found, hread, hview, hholds⟩ := hb.seen (k.kinds.by', .pair q about) (by cases k <;> rfl)
  refine ⟨found, hread, ?_⟩
  have hindex : (b.view.queue k q).index about = Content.placing (found.map Content.bare) :=
    congrArg Content.placing hview
  rw [hindex]
  cases found with
  | none => exact ⟨fun _ => rfl, .never, rfl, rfl⟩
  | some content =>
      refine ⟨fun h => absurd h (by simp), ?_⟩
      have h := hholds content rfl
      cases k <;> cases content <;>
        first | exact h.elim | exact ⟨_, rfl, rfl⟩

theorem places_ok {kept : Places} {b' : Batch}
    (h : (Queue.places k.kinds q).run b = .ok (kept, b')) :
    b' = b ∧ kept = b.view.placesOf k q := by
  obtain ⟨found, hread, hrun⟩ := readAs_bind_ok.mp h
  obtain ⟨hkept, rfl⟩ := pure_ok.mp hrun
  obtain ⟨content, hcontent, hview, hholds⟩ :=
    hb.seen (k.kinds.places, .id q) (by cases k <;> rfl)
  refine ⟨rfl, ?_⟩
  rw [hcontent] at hread
  rw [View.placesOf, hview, ← hkept]
  cases content with
  | none => cases hread; rfl
  | some content =>
      have hc := hholds content rfl
      cases k <;> cases content <;> first | exact hc.elim | (cases hread; rfl)

end Batch.Proper

/-- What an index keeps, as a decision goes on with it. -/
theorem placed_bind_ok {α : Type} {k : Queues} {q about : ℕ} {f : Queue.Placed → Deciding α}
    {b b' : Batch} {a : α} (hb : b.Proper)
    (h : (Queue.placed k.kinds q about >>= f).run b = .ok (a, b')) :
    ∃ placed, (f placed).run b = .ok (a, b') ∧ (b.view.queue k q).index about =
      match placed with
      | .never => none
      | .takenOut => some none
      | .at n => some (some n) := by
  obtain ⟨placed, hplaced, hrest⟩ := Decision.reading_bind_ok_iff.mp h
  change b.read (k.kinds.by', .pair q about) >>= Queue.Placed.of = .ok placed at hplaced
  obtain ⟨found, hread, -, placed', hof, hindex⟩ := hb.read_index k q about
  rw [hread] at hplaced
  cases hplaced.symm.trans hof
  exact ⟨placed, hrest, hindex⟩

/-! ## A queue's own steps -/

section Steps

variable {k : Queues} {q n about : ℕ} {b b' : Batch}

/-- A queue's records changed as its own steps change them. -/
theorem Queues.adds_put (k : Queues) {kind : Kind} (hkind : kind ∈ k.kinds.all) {key : Key}
    {value : Option Content} (hproper : Change.Proper ⟨kind, key, value⟩) (b : Batch) :
    Adds k.kinds.all b (b.put kind key value) :=
  ⟨rfl, le_rfl, fun _ => rfl, [_], rfl, by simpa using ⟨hproper, hkind⟩⟩

theorem Queues.seen (k : Queues) :
    k.kinds.entry.seen = true ∧ k.kinds.by'.seen = true ∧ k.kinds.places.seen = true := by
  cases k <;> decide

/-- Something placed at its queue's end, or found there already. -/
theorem place_ok {entry : ℕ → Content} {yes : Bool} (hb : b.Proper)
    (h : (Queue.place k.kinds q about entry).run b = .ok (yes, b')) :
    (b' = b ∧ (b.view.queue k q).index about ≠ none) ∨
      (b.view.queue k q).index about = none ∧
        b.view.OneQueue b'.view k q
          ((b.view.queue k q).place about (entry (b.view.placesOf k q).next).bare) ∧
        ∃ places : Places, b'.changes = b.changes ++
          [⟨k.kinds.entry, .pair q (b.view.placesOf k q).next,
              some (entry (b.view.placesOf k q).next)⟩,
            ⟨k.kinds.by', .pair q about, some (.number (b.view.placesOf k q).next)⟩,
            ⟨k.kinds.places, .id q, some (.places places)⟩] := by
  obtain ⟨found, hfound, hplace⟩ := read_bind_ok.mp h
  obtain ⟨found', hread, hnone, placed, hof, hindex⟩ := hb.read_index k q about
  cases hfound.symm.trans hread
  cases hsome : found.isSome with
  | true =>
      simp only [hsome, if_true] at hplace
      obtain ⟨-, rfl⟩ := pure_ok.mp hplace
      refine .inl ⟨rfl, ?_⟩
      rw [hindex]
      cases found with
      | none => cases hsome
      | some content => cases content <;> cases hof <;> simp
  | false =>
      simp only [hsome, Bool.false_eq_true, if_false] at hplace
      obtain ⟨kept, b₁, hplaces, hputs⟩ := Decision.bind_ok_iff.mp hplace
      obtain ⟨rfl, rfl⟩ := hb.places_ok k q hplaces
      have hlast := put_bind_ok.mp (put_bind_ok.mp (put_bind_ok.mp hputs))
      obtain ⟨-, rfl⟩ := pure_ok.mp hlast
      obtain ⟨hentry, hby, hplaces'⟩ := k.seen
      refine .inr ⟨hnone hsome, ?_, { b₁.view.placesOf k q with
        next := (b₁.view.placesOf k q).next + 1
        count := (b₁.view.placesOf k q).count + 1 }, by simp [Form.bytes]⟩
      rw [Batch.view_put _ _ _ hplaces', Batch.view_put _ _ _ hby, Batch.view_put _ _ _ hentry]
      exact View.queue_placed _ k q about _

/-- An entry taken out, as its index is still to be changed. -/
theorem takeOut_ok {found : Option Content} (hb : b.Proper)
    (h : (Queue.takeOut k.kinds q n).run b = .ok (found, b')) :
    (found = none ∧ b' = b ∧ (b.view.queue k q).entry n = none) ∨
      ∃ bytes, found = some bytes ∧ k.Entry bytes ∧
        (b.view.queue k q).entry n = some bytes.bare ∧
        b' = (b.put k.kinds.entry (.pair q n) none).put k.kinds.places (.id q)
          (some (.places (Queue.less (b.view.placesOf k q)))) := by
  obtain ⟨content, hcontent, hrest⟩ := read_bind_ok.mp h
  obtain ⟨content', hread, hview, hentry⟩ := hb.read_entry k q n
  cases hcontent.symm.trans hread
  cases content with
  | none =>
      obtain ⟨rfl, rfl⟩ := pure_ok.mp hrest
      exact .inl ⟨rfl, rfl, hview⟩
  | some bytes =>
      obtain ⟨kept, b₂, hplaces, hput⟩ := Decision.bind_ok_iff.mp (put_bind_ok.mp hrest)
      have hb₁ : (b.put k.kinds.entry (.pair q n) none).Proper :=
        (k.adds_put (by simp [Kinds.all]) (k.kept.entryGone q n) b).proper hb
      obtain ⟨rfl, hkept⟩ := hb₁.places_ok k q hplaces
      have hlast := put_bind_ok.mp hput
      obtain ⟨rfl, rfl⟩ := pure_ok.mp hlast
      refine .inr ⟨bytes, rfl, hentry bytes rfl, hview, ?_⟩
      have hsame : (b.put k.kinds.entry (.pair q n) none).view.placesOf k q =
          b.view.placesOf k q := by
        rw [Batch.view_put _ _ _ k.seen.1]
        simp [View.placesOf]
      rw [hkept, hsame]
      rfl

/-- What a batch leaves where an entry was taken out and `value` is kept of what it was
about. -/
def goneFrom (b : Batch) (k : Queues) (q n about : ℕ) (value : Option Content) : Batch :=
  ((b.put k.kinds.entry (.pair q n) none).put k.kinds.places (.id q)
    (some (.places (Queue.less (b.view.placesOf k q))))).put k.kinds.by' (.pair q about) value

theorem goneFrom_view (b : Batch) (k : Queues) (q n about : ℕ) (value : Option Content) :
    b.view.OneQueue (goneFrom b k q n about value).view k q
      ((b.view.queue k q).takeOut n about (Content.placing (value.map Content.bare))) := by
  obtain ⟨hentry, hby, hplaces⟩ := k.seen
  rw [goneFrom, Batch.view_put _ _ _ hby, Batch.view_put _ _ _ hplaces,
    Batch.view_put _ _ _ hentry]
  exact View.queue_takenOut _ k q n about _

theorem goneFrom_adds (b : Batch) (q n : ℕ) {about : ℕ} {value : Option Content}
    (hproper : Change.Proper ⟨k.kinds.by', .pair q about, value⟩) :
    Adds k.kinds.all b (goneFrom b k q n about value) :=
  ((k.adds_put (by simp [Kinds.all]) (k.kept.entryGone q n) b).trans
    (k.adds_put (by simp [Kinds.all])
      (k.kept.places q (Queue.less (b.view.placesOf k q))) _)).trans
    (k.adds_put (by simp [Kinds.all]) hproper _)

theorem goneFrom_orders {entry : Content} {value : Option Content} (hb : b.InOrder)
    (hn : (b.view.queue k q).entry n = some entry) (habout : entry.about = about)
    (hvalue : value = none ∨ value = some .nothing)
    (hproper : Change.Proper ⟨k.kinds.by', .pair q about, value⟩) :
    Orders b (goneFrom b k q n about value) := by
  have hadds := goneFrom_adds b q n hproper
  have hplacing : ∀ m, Content.placing (value.map Content.bare) ≠ some (some m) := by
    intro m
    rcases hvalue with rfl | rfl <;> simp [Content.placing, Content.bare]
  have hchanges : (goneFrom b k q n about value).changes = b.changes ++
      ⟨k.kinds.entry, .pair q n, none⟩ ::
        [⟨k.kinds.places, .id q, some (.places (Queue.less (b.view.placesOf k q)))⟩,
          ⟨k.kinds.by', .pair q about, value⟩] := by
    simp [goneFrom]
  exact Orders.of_one hb hadds hchanges (by simp) (goneFrom_view b k q n about value)
    ((hb.queued k q).takeOut hn habout hplacing) (.takeOut _ _ _ _ _)

/-- An entry rewritten where it is, about the same. -/
theorem rewrite_orders {entry bytes : Content} (hb : b.InOrder)
    (hn : (b.view.queue k q).entry n = some entry) (hbytes : k.Entry bytes)
    (habout : bytes.about = entry.about) (hseated : bytes.Seated q n) :
    Orders b (b.put k.kinds.entry (.pair q n) (some bytes)) := by
  have hadds := k.adds_put (by simp [Kinds.all]) (k.kept.entry q n bytes hbytes) b
  have hone := b.view.queue_entry k q n (some bytes.bare)
  have hview : (b.put k.kinds.entry (.pair q n) (some bytes)).view =
      Function.update b.view (k.kinds.entry, .pair q n) (some bytes.bare) :=
    Batch.view_put _ _ _ k.seen.1
  rw [← hview] at hone
  have habout' : bytes.bare.about = entry.about := by rw [Content.about_bare, habout]
  exact Orders.of_one hb hadds rfl (by simp) hone
    ((hb.queued k q).rewrite hn habout' (by simpa using hseated)) (.rewrite hn habout')

/-- An entry placed where its own queue and place are, about what it is placed under. -/
theorem place_orders {entry : ℕ → Content} {yes : Bool} (hb : b.InOrder)
    (hentry : ∀ n, k.Entry (entry n) ∧ (entry n).about = about ∧ (entry n).Seated q n)
    (h : (Queue.place k.kinds q about entry).run b = .ok (yes, b')) : Orders b b' := by
  have hadds := Queue.place_writes k.kept (fun n => (hentry n).1) q about b yes b' h
  rcases place_ok hb.proper h with ⟨rfl, -⟩ | ⟨hnone, hone, places, hchanges⟩
  · exact .refl hb
  · refine Orders.of_one hb hadds hchanges (by simp) hone ?_ (.place _ _ _ _)
    have hlast := hentry (b.view.placesOf k q).next
    refine (hb.queued k q).place hnone ?_ ?_
    · rw [Content.about_bare]
      exact hlast.2.1
    · rw [Content.seated_bare]
      exact hlast.2.2

end Steps

/-! ## What is held -/

theorem Hold.decode_bind_ok {α : Type} {bytes : Content} {f : Held → Deciding α} {b b' : Batch}
    {a : α} :
    (Hold.decode bytes >>= f).run b = .ok (a, b') ↔
      ∃ held, Form.fromBytes bytes = .ok held ∧ (f held).run b = .ok (a, b') :=
  Decision.reading_bind_ok_iff

namespace Hold

theorem keep_ordering (kept : Hold) : Ordering (keep kept) := by
  intro b a b' h hb
  obtain ⟨yes, b₁, hplace, hrest⟩ := Decision.bind_ok_iff.mp h
  obtain ⟨-, rfl⟩ := pure_ok.mp hrest
  refine place_orders (k := .held) hb (fun n => ?_) hplace
  exact ⟨⟨_, rfl⟩, rfl, rfl, rfl⟩

/-- A held entry rewritten with the Message it holds and its place as they were. -/
theorem rewrite_ordering {queue sequence : ℕ} {held held' : Held} {b : Batch} (hb : b.InOrder)
    (hread : b.read (kinds.entry, .pair queue sequence) = .ok (some (Form.bytes held)))
    (hhold : held'.hold = held.hold) (hsequence : held'.sequence = held.sequence) :
    Orders b (b.put kinds.entry (.pair queue sequence) (some (Form.bytes held'))) := by
  have hn : (b.view.queue .held queue).entry sequence =
      some (.held { held with heldUnixNanos := 0 }) := Batch.view_eq rfl hread
  have hseated := (hb.queued .held queue).belongs sequence _ hn
  refine rewrite_orders (k := .held) hb hn ⟨held', rfl⟩ ?_ ⟨?_, ?_⟩
  · exact congrArg Hold.journey hhold
  · rw [hhold]
    exact hseated.1
  · rw [hsequence]
    exact hseated.2

/-- What a read of a held place found, as a decision goes on with it. -/
theorem read_held_bind_ok {α : Type} {queue sequence : ℕ} {f : Option Content → Deciding α}
    {b b' : Batch} {a : α} (hb : b.Proper)
    (h : (XmipPersist.read kinds.entry (.pair queue sequence) >>= f).run b = .ok (a, b')) :
    (f none).run b = .ok (a, b') ∨ ∃ held : Held,
      b.read (kinds.entry, .pair queue sequence) = .ok (some (Form.bytes held)) ∧
        (f (some (Form.bytes held))).run b = .ok (a, b') := by
  obtain ⟨found, hfound, hrest⟩ := read_bind_ok.mp h
  obtain ⟨found', hread, -, hentry⟩ := hb.read_entry .held queue sequence
  cases hfound.symm.trans hread
  cases found with
  | none => exact .inl hrest
  | some bytes =>
      obtain ⟨held, rfl⟩ := hentry bytes rfl
      exact .inr ⟨held, hfound, hrest⟩

theorem wait_ordering (queue journey : ℕ) (due : ℤ) : Ordering (wait queue journey due) := by
  refine .bind (.reading _) fun placed => ?_
  cases placed with
  | never => exact .pure _
  | takenOut => exact .pure _
  | «at» sequence =>
      intro b a b' h hb
      rcases read_held_bind_ok hb.proper h with hrest | ⟨held, hread, hrest⟩
      · obtain ⟨-, rfl⟩ := pure_ok.mp hrest
        exact .refl hb
      · obtain ⟨held', hheld, hput⟩ := decode_bind_ok.mp hrest
        rw [Form.fromBytes_bytes] at hheld
        cases hheld
        rw [put_ok.mp hput]
        exact rewrite_ordering hb hread rfl rfl

theorem mark_ordering (queue sequence : ℕ) (failed : Bool) :
    Ordering (mark queue sequence failed) := by
  intro b a b' h hb
  rcases read_held_bind_ok hb.proper h with hrest | ⟨held, hread, hrest⟩
  · obtain ⟨-, rfl⟩ := pure_ok.mp hrest
    exact .refl hb
  · obtain ⟨held', hheld, hput⟩ := decode_bind_ok.mp hrest
    rw [Form.fromBytes_bytes] at hheld
    cases hheld
    split at hput
    · rw [put_ok.mp hput]
      exact rewrite_ordering hb hread rfl rfl
    · obtain ⟨-, rfl⟩ := pure_ok.mp hput
      exact .refl hb

/-- An entry its queue's index finds, taken out. -/
theorem taken_ok {queue sequence journey : ℕ} {found : Option Content} {b b' : Batch}
    (hb : b.InOrder) (hat : (b.view.queue .held queue).index journey = some (some sequence))
    (h : (Queue.takeOut kinds queue sequence).run b = .ok (found, b')) :
    ∃ held : Held, found = some (Form.bytes held) ∧ held.hold.journey = journey ∧
      held.hold.queue = queue ∧
      (b.view.queue .held queue).entry sequence = some (.held { held with heldUnixNanos := 0 }) ∧
      b' = (b.put kinds.entry (.pair queue sequence) none).put kinds.places (.id queue)
        (some (.places (Queue.less (b.view.placesOf .held queue)))) := by
  obtain ⟨entry, hentry, habout⟩ := ((hb.queued .held queue).index journey sequence).mp hat
  rcases takeOut_ok (k := .held) hb.proper h with ⟨-, -, hnone⟩ | ⟨bytes, rfl, hbytes, hn, rfl⟩
  · rw [hentry] at hnone
    cases hnone
  · obtain ⟨held, rfl⟩ := hbytes
    have hseated := (hb.queued .held queue).belongs sequence _ hn
    cases hentry.symm.trans hn
    exact ⟨held, rfl, habout, hseated.1, hn, rfl⟩

theorem letGoOf_ordering (queue journey : ℕ) : Ordering (letGoOf queue journey) := by
  intro b a b' h hb
  obtain ⟨placed, hrest, hat⟩ := placed_bind_ok (k := .held) hb.proper h
  cases placed with
  | never =>
      obtain ⟨-, rfl⟩ := pure_ok.mp hrest
      exact .refl hb
  | takenOut =>
      obtain ⟨-, rfl⟩ := pure_ok.mp hrest
      exact .refl hb
  | «at» sequence =>
      obtain ⟨found, b₁, htake, hrest⟩ := Decision.bind_ok_iff.mp hrest
      obtain ⟨held, rfl, rfl, -, hn, rfl⟩ := taken_ok hb hat htake
      obtain ⟨held', hheld, hput⟩ := decode_bind_ok.mp hrest
      rw [Form.fromBytes_bytes] at hheld
      cases hheld
      rw [put_ok.mp hput]
      exact goneFrom_orders hb hn rfl (.inl rfl) trivial

theorem toTheEnd_ordering (queue journey : ℕ) : Ordering (toTheEnd queue journey) := by
  intro b a b' h hb
  obtain ⟨placed, hrest, hat⟩ := placed_bind_ok (k := .held) hb.proper h
  cases placed with
  | never =>
      obtain ⟨-, rfl⟩ := pure_ok.mp hrest
      exact .refl hb
  | takenOut =>
      obtain ⟨-, rfl⟩ := pure_ok.mp hrest
      exact .refl hb
  | «at» sequence =>
      obtain ⟨found, b₁, htake, hrest⟩ := Decision.bind_ok_iff.mp hrest
      obtain ⟨held, rfl, rfl, -, hn, rfl⟩ := taken_ok hb hat htake
      obtain ⟨held', hheld, hrest⟩ := decode_bind_ok.mp hrest
      rw [Form.fromBytes_bytes] at hheld
      cases hheld
      obtain ⟨_, b₂, hforget, hkeep⟩ := Decision.bind_ok_iff.mp hrest
      rw [put_ok.mp hforget] at hkeep
      have hgone := goneFrom_orders hb hn rfl (.inl (rfl : none = none)) trivial
      exact hgone.trans (keep_ordering held.hold _ a b' hkeep hgone.inOrder)

end Hold

/-! ## What failed, and what is dead -/

namespace Failed

theorem enter_ordering (journey : ℕ) (failure : Failure) (now : ℤ) :
    Ordering (enter journey failure now) := by
  refine .bind (.reading _) fun placed => ?_
  cases placed with
  | never => exact .pure _
  | takenOut => exact .pure _
  | «at» place =>
      refine .bind (Hold.mark_ordering _ _ _) fun _ => .bind ?_ fun _ => .pure _
      intro b a b' h hb
      refine place_orders (k := .failed) hb (fun n => ?_) h
      exact ⟨⟨_, rfl⟩, rfl, rfl, rfl⟩

theorem leave_ordering (queue journey : ℕ) : Ordering (leave queue journey) := by
  intro b a b' h hb
  obtain ⟨placed, hrest, hat⟩ := placed_bind_ok (k := .failed) hb.proper h
  cases placed with
  | never =>
      obtain ⟨-, rfl⟩ := pure_ok.mp hrest
      exact .refl hb
  | takenOut =>
      obtain ⟨-, rfl⟩ := pure_ok.mp hrest
      exact .refl hb
  | «at» sequence =>
      obtain ⟨found, b₁, htake, hforget⟩ := Decision.bind_ok_iff.mp hrest
      obtain ⟨entry, hentry, habout⟩ := ((hb.queued .failed queue).index journey sequence).mp hat
      rcases takeOut_ok (k := .failed) hb.proper htake with ⟨-, -, hnone⟩ | ⟨bytes, -, -, -, rfl⟩
      · rw [hentry] at hnone
        cases hnone
      · rw [put_ok.mp hforget]
        exact goneFrom_orders hb hentry habout (.inl rfl) trivial

theorem clear_ordering (queue journey : ℕ) : Ordering (clear queue journey) := by
  refine .bind (leave_ordering _ _) fun _ => .bind (.reading _) fun placed => ?_
  cases placed with
  | never => exact .pure _
  | takenOut => exact .pure _
  | «at» place => exact Hold.mark_ordering _ _ _

end Failed

theorem Dead.keep_ordering (dead : DeadMessage) : Ordering (keep dead) := by
  intro b a b' h hb
  obtain ⟨yes, b₁, hplace, hrest⟩ := Decision.bind_ok_iff.mp h
  obtain ⟨-, rfl⟩ := pure_ok.mp hrest
  refine place_orders (k := .dead) hb (fun n => ?_) hplace
  exact ⟨⟨_, rfl⟩, rfl, rfl, rfl⟩

/-! ## The operations -/

namespace Origin

theorem count_ordering (holder : ℕ) (move : Option Bool) (places : List Hold) :
    Ordering (count holder move places) := by
  have hput : ∀ value : Option Content, Change.Proper ⟨.origin, .id holder, value⟩ →
      Ordering (put .origin (.id holder) value) := fun value hvalue =>
    .of_writes (.put_one hvalue) fun k => by cases k <;> decide
  refine .bind (.reading _) fun found => .ite ?_ (hput _ trivial)
  exact .bind (.forM _ fun queue _ => Hold.letGoOf_ordering _ _) fun _ => hput _ trivial

theorem counted_ordering (record : JourneyRecord) (places : List Hold) :
    Ordering (counted record places) := by
  have hfor : ∀ kept holder, Ordering (countedFor kept holder places) := by
    rintro kept ⟨holder, isOpen⟩
    cases holder with
    | none => exact .pure _
    | some holder => exact .ite (count_ordering _ _ _) (.pure _)
  exact .bind (.reading _) fun _ => .bind (hfor _ _) fun _ => hfor _ _

theorem counted_record_ordering (record : JourneyRecord) (places : List Hold) :
    Ordering (do
      counted record places
      putRecord .journey record.journey record) := by
  refine .bind (counted_ordering _ _) fun _ => ?_
  exact .of_writes (.put_one rfl) fun k => by cases k <;> decide

end Origin

namespace HandOn

theorem writes_ordering (asked : HandOn) (now : ℤ) : Ordering (asked.writes now) := by
  have hmessage : ∀ message : MessageRecord, Ordering
      (putRecord .message message.message message) := fun message =>
    .of_writes (.put_one rfl) fun k => by cases k <;> decide
  have hjourney : ∀ record : JourneyRecord, Ordering
      (putRecord .journey record.journey record) := fun record =>
    .of_writes (.put_one rfl) fun k => by cases k <;> decide
  refine .bind (Origin.counted_ordering _ _) fun _ => ?_
  refine .bind (hjourney _) fun _ => ?_
  refine .bind (.forM _ fun message _ => hmessage message) fun _ => ?_
  refine .bind (.forM _ fun next _ => Origin.counted_record_ordering _ _) fun _ => ?_
  refine .bind (.forM _ fun _ _ => Hold.letGoOf_ordering _ _) fun _ => ?_
  refine .bind (.forM _ fun _ _ => Hold.keep_ordering _) fun _ => ?_
  refine .bind (.forM _ fun _ _ => Hold.toTheEnd_ordering _ _) fun _ => ?_
  refine .bind ?_ fun _ => ?_
  · unfold fails
    cases asked.failed with
    | none => exact .pure _
    | some failure => exact Failed.enter_ordering _ _ _
  refine .bind (.forM _ fun _ _ => Failed.clear_ordering _ _) fun _ => ?_
  unfold waiting
  cases asked.waits with
  | none => exact .pure _
  | some wait => exact Hold.wait_ordering _ _ _

theorem decide_ordering (asked : HandOn) (now : ℤ) : Ordering (asked.decide now) := by
  refine .bind (.reading _) fun found => ?_
  cases found with
  | none => exact .pure _
  | some stored =>
      obtain ⟨claim, standing⟩ := stored
      cases standing with
      | handedOn => exact .pure _
      | released => exact .pure _
      | held =>
          refine .ite (.bind (writes_ordering _ _) fun _ => ?_) (.pure _)
          refine .bind ?_ fun _ => .pure _
          exact .of_writes (closes_writes _ _ _) fun k => by cases k <;> decide

end HandOn

theorem Turn.decide_ordering (turn : Turn) (now : ℤ) : Ordering (turn.decide now) := by
  refine .bind (.of_reads (current_reads _ _)) fun current => .ite ?_ (.pure _)
  refine .bind (HandOn.decide_ordering _ _) fun done => .ite ?_ (.pure _)
  refine .bind ?_ fun _ => .pure _
  exact .of_writes (write_writes _ _ _) fun k => by cases k <;> decide

theorem Publication.decide_ordering (asked : Publication) (now : ℤ) (epoch : ℕ) :
    Ordering (asked.decide digest now epoch) := by
  refine .bind (.reading _) fun found => ?_
  cases found with
  | some written =>
      exact .ite (.throw _) (.bind (.of_reads (standing_reads _)) fun _ => .pure _)
  | none =>
      have hmessage : Ordering (putRecord .message asked.message.message asked.message) :=
        .of_writes (.put_one rfl) fun k => by cases k <;> decide
      refine .bind ?_ fun _ => .bind ?_ fun _ => .bind ?_ fun _ => .pure _
      · refine .bind hmessage fun _ => ?_
        refine .bind (.forM _ fun _ _ => Origin.counted_record_ordering _ _) fun _ => ?_
        refine .bind (.forM _ fun _ _ => Hold.keep_ordering _) fun _ => ?_
        unfold keepDead
        cases asked.dead with
        | none => exact .pure _
        | some entry => exact Dead.keep_ordering _
      · exact .of_writes (taking_writes _ _ _ _) fun k => by cases k <;> decide
      · exact .of_writes (.put_one trivial) fun k => by
          cases k <;> decide

theorem Replay.decide_ordering (asked : Replay) : Ordering asked.decide := by
  intro b a b' h hb
  obtain ⟨placed, hrest, hat⟩ := placed_bind_ok (k := .dead) hb.proper h
  cases placed with
  | never =>
      obtain ⟨-, rfl⟩ := pure_ok.mp hrest
      exact .refl hb
  | takenOut =>
      obtain ⟨-, rfl⟩ := pure_ok.mp hrest
      exact .refl hb
  | «at» sequence =>
      obtain ⟨found, b₁, htake, hrest⟩ := Decision.bind_ok_iff.mp hrest
      obtain ⟨entry, hentry, habout⟩ :=
        ((hb.queued .dead asked.queue).index asked.message sequence).mp hat
      rcases takeOut_ok (k := .dead) hb.proper htake with ⟨-, -, hnone⟩ | ⟨bytes, -, -, -, rfl⟩
      · rw [hentry] at hnone
        cases hnone
      · obtain ⟨_, b₂, hremember, hrest⟩ := Decision.bind_ok_iff.mp hrest
        rw [put_ok.mp hremember] at hrest
        have hgone := goneFrom_orders hb hentry habout (.inr (rfl : some Content.nothing = _)) trivial
        have hwrites : Ordering (do
            asked.journeys.forM fun journey => do
              Origin.counted journey asked.held
              putRecord .journey journey.journey journey
            asked.held.forM Hold.keep
            pure Replayed.now) := by
          refine .bind (.forM _ fun _ _ => Origin.counted_record_ordering _ _) fun _ => ?_
          exact .bind (.forM _ fun _ _ => Hold.keep_ordering _) fun _ => .pure _
        exact hgone.trans (hwrites _ a b' hrest hgone.inOrder)

/-- Every operation keeps every queue in order. -/
theorem Op.decide_ordering {op : Op} (hmade : op.Made) (m : Moment) :
    Ordering (op.decide digest m) := by
  have haudit : ∀ entry, Ordering (XmipPersist.audit entry) := fun entry =>
    .of_writes (audit_writes entry) fun k => by cases k <;> decide
  cases op with
  | put kind key value =>
      refine .bind ?_ fun _ => .pure _
      have hput : kind = .message ∨ kind = .journey := by
        rcases hmade with ⟨_, h, _⟩ | ⟨_, h, _⟩
        · exact .inl h
        · exact .inr h
      have hproper : Change.Proper ⟨kind, key, some value⟩ := by
        rcases hmade with ⟨record, rfl, rfl, rfl⟩ | ⟨record, rfl, rfl, rfl⟩ <;> rfl
      refine .of_writes (.put_one hproper) fun k => ?_
      rcases hput with rfl | rfl <;> cases k <;> decide
  | claim asked lease =>
      exact .bind (.of_writes (Claim.take_writes _ _ _ _) fun k => by cases k <;> decide)
        fun _ => .pure _
  | renew claims lease =>
      exact .bind (.of_writes (Claim.renew_writes _ _ _) fun k => by cases k <;> decide)
        fun _ => .pure _
  | release held =>
      exact .bind (.of_writes (Claim.release_writes _) fun k => by cases k <;> decide)
        fun _ => .pure _
  | handOn asked => exact .bind (HandOn.decide_ordering _ _) fun _ => .pure _
  | turn asked => exact .bind (Turn.decide_ordering _ _) fun _ => .pure _
  | publish asked =>
      refine .bind (Publication.decide_ordering _ _ _) fun decided => ?_
      cases decided with
      | before held => exact .pure _
      | now held => exact .bind (haudit _) fun _ => .pure _
  | replay asked =>
      refine .bind (Replay.decide_ordering _) fun replayed => ?_
      cases replayed with
      | now => exact .bind (haudit _) fun _ => .pure _
      | before => exact .pure _
      | absent => exact .pure _
  | audit entry => exact .bind (haudit _) fun _ => .pure _
  | kept number =>
      exact .bind (.of_writes (forgetKept_writes _) fun k => by cases k <;> decide)
        fun _ => .pure _

end XmipPersist
