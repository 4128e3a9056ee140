import XmipPersist.Verification.Queue.Page

/-! # What failed, and the places marked so

A Message left Failed is marked at its place and entered in its queue's index of what failed, and
an operation that lets its place go, or moves it to the end, takes it out again. Between the two
the index and the marks may disagree; of one Message in one queue, they agree at every write's end.
-/

namespace XmipPersist

/-! ## A Message in a queue -/

namespace Content

/-- Whether a held entry is marked failed. -/
def marked : Content → Bool
  | .held entry => entry.failed
  | _ => false

/-- The place in its queue an entry of what failed records. -/
def recorded : Content → ℕ
  | .failed entry => entry.place
  | _ => 0

@[simp] theorem marked_bare (content : Content) : content.bare.marked = content.marked := by
  cases content <;> rfl

@[simp] theorem recorded_bare (content : Content) : content.bare.recorded = content.recorded := by
  cases content <;> rfl

end Content

/-- The place found, where it is marked failed. -/
def markedAt (found : Option (ℕ × Content)) : Option ℕ :=
  found.bind fun at' => if at'.2.marked then some at'.1 else none

/-- The place an entry found of what failed records. -/
def recordedAt (found : Option (ℕ × Content)) : Option ℕ := found.map fun at' => at'.2.recorded

namespace View

/-- Where a Journey is held in a queue, and what is kept there. -/
def seat (v : View) (q j : ℕ) : Option (ℕ × Content) := (v.queue .held q).find j

/-- Where a Journey is in a queue's index of what failed, and what is kept there. -/
def failure (v : View) (q j : ℕ) : Option (ℕ × Content) := (v.queue .failed q).find j

/-- The place a Journey holds in a queue. -/
def placeOf (v : View) (q j : ℕ) : Option ℕ := (v.seat q j).map Prod.fst

/-- The index of what failed has a Journey where its place is marked failed, and nowhere else. -/
def Agrees (v : View) (q j : ℕ) : Prop := recordedAt (v.failure q j) = markedAt (v.seat q j)

variable {v v' : View} {q j : ℕ}

theorem seat_congr (h : ∀ p : Place, p.1 ∈ Hold.kinds.all → v' p = v p) (q j : ℕ) :
    v'.seat q j = v.seat q j := by
  have hqueue : v'.queue .held q = v.queue .held q := queue_congr (k := .held) h q
  rw [seat, seat, hqueue]

theorem failure_congr (h : ∀ p : Place, p.1 ∈ Failed.kinds.all → v' p = v p) (q j : ℕ) :
    v'.failure q j = v.failure q j := by
  have hqueue : v'.queue .failed q = v.queue .failed q := queue_congr (k := .failed) h q
  rw [failure, failure, hqueue]

variable {about : ℕ} {found : Option (ℕ × Content)} {queue : Numbered Content ℕ}

/-- One queue of what is held changed, where only what is found of one Journey is. -/
theorem OneQueue.seat {q' : ℕ} (h : v.OneQueue v' .held q' queue)
    (hfind : ∀ b, queue.find b = if b = about then found else (v.queue .held q').find b)
    (q j : ℕ) : v'.seat q j = if q = q' ∧ j = about then found else v.seat q j := by
  by_cases hq : q = q'
  · subst hq
    rw [View.seat, h.self, hfind]
    simp [View.seat]
  · have hother := h.other .held q fun he => hq he.2
    rw [View.seat, hother, if_neg fun he => hq he.1]
    rfl

theorem OneQueue.failure {q' : ℕ} (h : v.OneQueue v' .failed q' queue)
    (hfind : ∀ b, queue.find b = if b = about then found else (v.queue .failed q').find b)
    (q j : ℕ) : v'.failure q j = if q = q' ∧ j = about then found else v.failure q j := by
  by_cases hq : q = q'
  · subst hq
    rw [View.failure, h.self, hfind]
    simp [View.failure]
  · have hother := h.other .failed q fun he => hq he.2
    rw [View.failure, hother, if_neg fun he => hq he.1]
    rfl

end View

/-- A place seen is where its queue's index says. -/
theorem View.placeOf_index {v : View} (hv : v.Queued) (q j : ℕ) :
    v.placeOf q j = ((v.queue .held q).index j).join := by
  rw [placeOf, seat]
  cases hindex : (v.queue .held q).index j with
  | none => rw [Numbered.find_of_index (by simp [hindex])]; rfl
  | some kept =>
      cases kept with
      | none => rw [Numbered.find_of_index (by simp [hindex])]; rfl
      | some n =>
          obtain ⟨entry, hentry, habout⟩ := ((hv .held q).index j n).mp hindex
          rw [(hv .held q).find_eq_some.mpr ⟨hentry, habout⟩]
          rfl

section Kinds

variable {b b' : Batch} {kinds : List Kind}

/-- What writes nothing of what is held moves no place. -/
theorem Adds.seat (h : Adds kinds b b') (hkinds : ∀ kind ∈ Hold.kinds.all, kind ∉ kinds)
    (q j : ℕ) : b'.view.seat q j = b.view.seat q j :=
  View.seat_congr (fun _ hp => h.view_of_kind (hkinds _ hp)) q j

theorem Adds.failure (h : Adds kinds b b') (hkinds : ∀ kind ∈ Failed.kinds.all, kind ∉ kinds)
    (q j : ℕ) : b'.view.failure q j = b.view.failure q j :=
  View.failure_congr (fun _ hp => h.view_of_kind (hkinds _ hp)) q j

end Kinds

/-! ## What a queue's steps do to a Message's place -/

section Steps

variable {b b' : Batch} {q n about : ℕ} {k : Queues}

/-- A Message placed is found where it was, or at the queue's end. -/
theorem place_find {entry : ℕ → Content} {yes : Bool} (hb : b.InOrder)
    (hentry : ∀ n, (entry n).about = about ∧ (entry n).Seated q n)
    (h : (Queue.place k.kinds q about entry).run b = .ok (yes, b')) :
    (b' = b ∧ (b.view.queue k q).index about ≠ none) ∨
      (b.view.queue k q).find about = none ∧ ∃ queue, b.view.OneQueue b'.view k q queue ∧
        ∀ a, queue.find a =
          if a = about then some ((b.view.queue k q).next, (entry (b.view.queue k q).next).bare)
          else (b.view.queue k q).find a := by
  rcases place_ok hb.proper h with hsame | ⟨hnone, hone, -⟩
  · exact .inl hsame
  · refine .inr ⟨Numbered.find_of_index (by simp [hnone]), _, hone, fun a => ?_⟩
    have hlast := hentry (b.view.queue k q).next
    refine (hb.queued k q).find_place hnone ?_ ?_ a
    · rw [Content.about_bare]
      exact hlast.1
    · rw [Content.seated_bare]
      exact hlast.2

/-- An entry taken out with its index is found no more. -/
theorem goneFrom_find {entry : Content} (hb : b.InOrder)
    (hn : (b.view.queue k q).entry n = some entry) (habout : entry.about = about) :
    ∃ queue, b.view.OneQueue (goneFrom b k q n about none).view k q queue ∧
      ∀ a, queue.find a = if a = about then none else (b.view.queue k q).find a :=
  ⟨_, goneFrom_view b k q n about none,
    (hb.queued k q).find_takeOut hn habout (by simp [Content.placing])⟩

/-- An entry rewritten where it is is found there. -/
theorem rewrite_find {entry bytes : Content} (hb : b.InOrder)
    (hn : (b.view.queue k q).entry n = some entry) (habout : bytes.about = entry.about)
    (hseated : bytes.Seated q n) :
    ∃ queue, b.view.OneQueue (b.put k.kinds.entry (.pair q n) (some bytes)).view k q queue ∧
      ∀ a, queue.find a =
        if a = entry.about then some (n, bytes.bare) else (b.view.queue k q).find a := by
  have hone := b.view.queue_entry k q n (some bytes.bare)
  have hview : (b.put k.kinds.entry (.pair q n) (some bytes)).view =
      Function.update b.view (k.kinds.entry, .pair q n) (some bytes.bare) :=
    Batch.view_put _ _ _ k.seen.1
  rw [← hview] at hone
  refine ⟨_, hone, (hb.queued k q).find_rewrite hn ?_ ?_⟩
  · rw [Content.about_bare, habout]
  · rwa [Content.seated_bare]

end Steps

/-! ## A Message moved -/

/-- What an operation's moves leave of one Journey in one queue: its place as it was, none, or a
later one that is not marked; and it is in the index of what failed where it was. -/
structure Displaced (q j : ℕ) (b b' : Batch) : Prop where
  orders : Orders b b'
  failure : b'.view.failure q j = b.view.failure q j
  seat : b'.view.seat q j = b.view.seat q j ∨ b'.view.seat q j = none ∨
    ∃ n content, b'.view.seat q j = some (n, content) ∧ (b.view.queue .held q).next ≤ n ∧
      content.marked = false

namespace Displaced

variable {q j : ℕ} {b b' b'' : Batch}

theorem refl (h : b.InOrder) : Displaced q j b b := ⟨.refl h, rfl, .inl rfl⟩

theorem trans (h : Displaced q j b b') (h' : Displaced q j b' b'') : Displaced q j b b'' := by
  refine ⟨h.orders.trans h'.orders, h'.failure.trans h.failure, ?_⟩
  have hnext := (h.orders.later .held q).next
  rcases h'.seat with hsame | hnone | ⟨n, content, hseat, hn, hmark⟩
  · rw [hsame]
    exact h.seat
  · exact .inr (.inl hnone)
  · exact .inr (.inr ⟨n, content, hseat, hnext.trans hn, hmark⟩)

theorem of_same (horders : Orders b b') (hseat : b'.view.seat q j = b.view.seat q j)
    (hfailure : b'.view.failure q j = b.view.failure q j) : Displaced q j b b' :=
  ⟨horders, hfailure, .inl hseat⟩

end Displaced

/-- Whatever `m` decides in a batch in order moves a Message so. -/
def Moving {α : Type} (q j : ℕ) (m : Deciding α) : Prop :=
  Decision.Moves (fun b b' => b.InOrder → Displaced q j b b') m

namespace Moving

variable {α β : Type} {q j : ℕ}

theorem pure (a : α) : Moving q j (pure a) := Decision.Moves.pure (fun _ => Displaced.refl) a

theorem throw (e : PersistError) : Moving (α := α) q j (throw e) := Decision.Moves.throw e

theorem bind {m : Deciding α} {f : α → Deciding β} (hm : Moving q j m)
    (hf : ∀ a, Moving q j (f a)) : Moving q j (m >>= f) :=
  Decision.Moves.bind
    (fun _ _ _ h h' hb => (h hb).trans (h' (h hb).orders.inOrder)) hm hf

theorem forM {g : β → Deciding PUnit} (xs : List β) (hg : ∀ x ∈ xs, Moving q j (g x)) :
    Moving q j (xs.forM g) :=
  Decision.Moves.forM (fun _ => Displaced.refl)
    (fun _ _ _ h h' hb => (h hb).trans (h' (h hb).orders.inOrder)) xs hg

theorem ite {m n : Deciding α} {c : Prop} [Decidable c] (hm : Moving q j m)
    (hn : Moving q j n) : Moving q j (if c then m else n) :=
  Decision.Moves.ite hm hn

theorem reading (g : Batch → Except PersistError α) : Moving q j (reading g) :=
  Decision.Moves.reading fun _ => Displaced.refl

theorem of_reads {m : Deciding α} (h : Decision.Moves Eq m) : Moving q j m :=
  Decision.Moves.of_eq (fun _ => Displaced.refl) h

/-- A decision in order that writes nothing of what is held or of what failed. -/
theorem of_apart {kinds : List Kind} {m : Deciding α} (hm : Ordering m) (h : Writes kinds m)
    (hkinds : ∀ kind ∈ Failed.writesKinds, kind ∉ kinds) : Moving q j m := by
  intro b a b' hr hb
  have hadds := h b a b' hr
  have hheld : ∀ kind ∈ Hold.kinds.all, kind ∉ kinds := fun kind hkind =>
    hkinds kind (List.mem_append_left _ hkind)
  have hfailed : ∀ kind ∈ Failed.kinds.all, kind ∉ kinds := fun kind hkind =>
    hkinds kind (List.mem_append_right _ hkind)
  exact .of_same (hm b a b' hr hb) (hadds.seat hheld q j) (hadds.failure hfailed q j)

theorem of_writes {kinds : List Kind} {m : Deciding α} (h : Writes kinds m)
    (hqueues : ∀ k : Queues, ∀ kind ∈ k.kinds.all, kind ∉ kinds) : Moving q j m := by
  refine of_apart (.of_writes h hqueues) h fun kind hkind => ?_
  rcases List.mem_append.mp hkind with hkind | hkind
  · exact hqueues .held kind hkind
  · exact hqueues .failed kind hkind

end Moving

namespace Hold

variable {b b' : Batch}

/-- What writes only what is held leaves the index of what failed as it was. -/
theorem failure_of_writes {α : Type} {m : Deciding α} (h : Writes kinds.all m) {a : α}
    (hr : m.run b = .ok (a, b')) (q j : ℕ) : b'.view.failure q j = b.view.failure q j :=
  (h b a b' hr).failure (by decide) q j

theorem goneFrom_moved {queue sequence journey : ℕ} {entry : Content} (hb : b.InOrder)
    (hn : (b.view.queue .held queue).entry sequence = some entry)
    (habout : entry.about = journey) (q j : ℕ) :
    Displaced q j b (goneFrom b .held queue sequence journey none) := by
  have horders := goneFrom_orders hb hn habout (.inl (rfl : none = none)) trivial
  obtain ⟨left, hone, hfind⟩ := goneFrom_find hb hn habout
  have hseat := hone.seat hfind q j
  have hfailed : (goneFrom b .held queue sequence journey none).view.queue .failed q =
      b.view.queue .failed q := hone.other .failed q (by simp)
  refine ⟨horders, by rw [View.failure, View.failure, hfailed], ?_⟩
  rw [hseat]
  split
  · exact .inr (.inl rfl)
  · exact .inl rfl

theorem keep_moving (kept : Hold) (q j : ℕ) : Moving q j (keep kept) := by
  intro b a b' h hb
  have horders := keep_ordering kept b a b' h hb
  have hfailure := failure_of_writes (keep_writes kept) h q j
  obtain ⟨yes, b₁, hplace, hrest⟩ := Decision.bind_ok_iff.mp h
  obtain ⟨-, rfl⟩ := pure_ok.mp hrest
  have hentry : ∀ n, (Form.bytes (Held.mk n kept 0 false none)).about = kept.journey ∧
      (Form.bytes (Held.mk n kept 0 false none)).Seated kept.queue n := fun n => ⟨rfl, rfl, rfl⟩
  rcases place_find (k := .held) hb hentry hplace with ⟨rfl, -⟩ | ⟨-, queue, hone, hfind⟩
  · exact .refl hb
  · refine ⟨horders, hfailure, ?_⟩
    rw [hone.seat hfind q j]
    split
    · next heq =>
        obtain ⟨rfl, -⟩ := heq
        exact .inr (.inr ⟨_, _, rfl, le_rfl, rfl⟩)
    · exact .inl rfl

theorem letGoOf_moving (queue journey q j : ℕ) : Moving q j (letGoOf queue journey) := by
  intro b a b' h hb
  obtain ⟨placed, hrest, hat⟩ := placed_bind_ok (k := .held) hb.proper h
  cases placed with
  | never =>
      obtain ⟨-, rfl⟩ := pure_ok.mp hrest
      exact .refl hb
  | takenOut =>
      obtain ⟨-, rfl⟩ := pure_ok.mp hrest
      exact .refl hb
  | «at» sequence =>
      obtain ⟨found, b₁, htake, hrest⟩ := Decision.bind_ok_iff.mp hrest
      obtain ⟨held, rfl, rfl, -, hn, rfl⟩ := taken_ok hb hat htake
      obtain ⟨held', hheld, hput⟩ := decode_bind_ok.mp hrest
      rw [Form.fromBytes_bytes] at hheld
      cases hheld
      rw [put_ok.mp hput]
      exact goneFrom_moved hb hn rfl q j

theorem toTheEnd_moving (queue journey q j : ℕ) : Moving q j (toTheEnd queue journey) := by
  intro b a b' h hb
  obtain ⟨placed, hrest, hat⟩ := placed_bind_ok (k := .held) hb.proper h
  cases placed with
  | never =>
      obtain ⟨-, rfl⟩ := pure_ok.mp hrest
      exact .refl hb
  | takenOut =>
      obtain ⟨-, rfl⟩ := pure_ok.mp hrest
      exact .refl hb
  | «at» sequence =>
      obtain ⟨found, b₁, htake, hrest⟩ := Decision.bind_ok_iff.mp hrest
      obtain ⟨held, rfl, rfl, -, hn, rfl⟩ := taken_ok hb hat htake
      obtain ⟨held', hheld, hrest⟩ := decode_bind_ok.mp hrest
      rw [Form.fromBytes_bytes] at hheld
      cases hheld
      obtain ⟨_, b₂, hforget, hkeep⟩ := Decision.bind_ok_iff.mp hrest
      rw [put_ok.mp hforget] at hkeep
      have hgone := goneFrom_moved hb hn rfl q j
      exact hgone.trans (keep_moving held.hold q j _ a b' hkeep hgone.orders.inOrder)

end Hold

/-! ## A Message marked -/

/-- What marking leaves of one Journey in one queue: its place where it was, and the index of what
failed agreeing with its mark where they agreed. -/
structure Marked (q j : ℕ) (b b' : Batch) : Prop where
  orders : Orders b b'
  place : b'.view.placeOf q j = b.view.placeOf q j
  agrees : b.view.Agrees q j → b'.view.Agrees q j

namespace Marked

variable {q j : ℕ} {b b' b'' : Batch}

theorem refl (h : b.InOrder) : Marked q j b b := ⟨.refl h, rfl, id⟩

theorem trans (h : Marked q j b b') (h' : Marked q j b' b'') : Marked q j b b'' :=
  ⟨h.orders.trans h'.orders, h'.place.trans h.place, h'.agrees ∘ h.agrees⟩

theorem of_same (horders : Orders b b') (hseat : b'.view.seat q j = b.view.seat q j)
    (hfailure : b'.view.failure q j = b.view.failure q j) : Marked q j b b' := by
  refine ⟨horders, by rw [View.placeOf, View.placeOf, hseat], fun h => ?_⟩
  rw [View.Agrees, hseat, hfailure]
  exact h

end Marked

/-- Whatever `m` decides in a batch in order marks a Message so. -/
def Marking {α : Type} (q j : ℕ) (m : Deciding α) : Prop :=
  Decision.Moves (fun b b' => b.InOrder → Marked q j b b') m

namespace Marking

variable {α β : Type} {q j : ℕ}

theorem pure (a : α) : Marking q j (pure a) := Decision.Moves.pure (fun _ => Marked.refl) a

theorem forM {g : β → Deciding PUnit} (xs : List β) (hg : ∀ x ∈ xs, Marking q j (g x)) :
    Marking q j (xs.forM g) :=
  Decision.Moves.forM (fun _ => Marked.refl)
    (fun _ _ _ h h' hb => (h hb).trans (h' (h hb).orders.inOrder)) xs hg

end Marking

namespace Hold

/-- A held entry rewritten with its Message and its place as they were: it is found there still. -/
theorem rewrite_seat {queue sequence journey : ℕ} {held : Held} (held' : Held) {b : Batch}
    (hb : b.InOrder)
    (hread : b.read (kinds.entry, .pair queue sequence) = .ok (some (Form.bytes held)))
    (hat : (b.view.queue .held queue).index journey = some (some sequence))
    (hhold : held'.hold = held.hold) (hsequence : held'.sequence = held.sequence) (q j : ℕ) :
    (b.put kinds.entry (.pair queue sequence) (some (Form.bytes held'))).view.seat q j =
      if q = queue ∧ j = journey then some (sequence, (Form.bytes held').bare)
      else b.view.seat q j := by
  have hn : (b.view.queue .held queue).entry sequence =
      some (.held { held with heldUnixNanos := 0 }) := Batch.view_eq rfl hread
  have hseated := (hb.queued .held queue).belongs sequence _ hn
  obtain ⟨entry, hentry, habout⟩ := ((hb.queued .held queue).index journey sequence).mp hat
  cases hentry.symm.trans hn
  have habout' : (Form.bytes held').about = (Content.held { held with heldUnixNanos := 0 }).about :=
    congrArg Hold.journey hhold
  have hseated' : (Form.bytes held').Seated queue sequence := by
    refine ⟨?_, ?_⟩
    · rw [hhold]
      exact hseated.1
    · rw [hsequence]
      exact hseated.2
  obtain ⟨left, hone, hfind⟩ := rewrite_find (k := .held) hb hn habout' hseated'
  rw [← habout]
  exact hone.seat hfind q j

/-- A Journey's held entry found through its index. -/
theorem seat_of_read {queue sequence journey : ℕ} {held : Held} {b : Batch} (hb : b.InOrder)
    (hat : (b.view.queue .held queue).index journey = some (some sequence))
    (hread : b.read (kinds.entry, .pair queue sequence) = .ok (some (Form.bytes held))) :
    b.view.seat queue journey = some (sequence, (Form.bytes held).bare) := by
  have hn : (b.view.queue .held queue).entry sequence = some (Form.bytes held).bare :=
    Batch.view_eq rfl hread
  obtain ⟨entry, hentry, habout⟩ := ((hb.queued .held queue).index journey sequence).mp hat
  cases hentry.symm.trans hn
  exact (hb.queued .held queue).find_eq_some.mpr ⟨hn, habout⟩

/-- A place its index says is of a held entry. -/
theorem read_indexed_bind_ok {α : Type} {queue sequence journey : ℕ}
    {f : Option Content → Deciding α} {b b' : Batch} {a : α} (hb : b.InOrder)
    (hat : (b.view.queue .held queue).index journey = some (some sequence))
    (h : (XmipPersist.read kinds.entry (.pair queue sequence) >>= f).run b = .ok (a, b')) :
    ∃ held : Held, b.read (kinds.entry, .pair queue sequence) = .ok (some (Form.bytes held)) ∧
      b.view.seat queue journey = some (sequence, (Form.bytes held).bare) ∧
      (f (some (Form.bytes held))).run b = .ok (a, b') := by
  obtain ⟨found, hfound, hrest⟩ := read_bind_ok.mp h
  obtain ⟨entry, hentry, -⟩ := ((hb.queued .held queue).index journey sequence).mp hat
  obtain ⟨found', hread, hview, hheld⟩ := hb.proper.read_entry .held queue sequence
  cases hfound.symm.trans hread
  rw [hentry] at hview
  cases found with
  | none => cases hview
  | some bytes =>
      obtain ⟨held, rfl⟩ := hheld bytes rfl
      exact ⟨held, hfound, seat_of_read hb hat hfound, hrest⟩

/-- A held entry marked, or left as it is marked. -/
theorem mark_seat {queue sequence journey : ℕ} {failed : Bool} {b b' : Batch} (hb : b.InOrder)
    (hat : (b.view.queue .held queue).index journey = some (some sequence))
    (h : (mark queue sequence failed).run b = .ok ((), b')) :
    ∃ content : Content, content.marked = failed ∧ ∀ q j, b'.view.seat q j =
      if q = queue ∧ j = journey then some (sequence, content) else b.view.seat q j := by
  obtain ⟨held, hread, hseat, hrest⟩ := read_indexed_bind_ok hb hat h
  obtain ⟨held', hheld, hput⟩ := decode_bind_ok.mp hrest
  rw [Form.fromBytes_bytes] at hheld
  cases hheld
  split at hput
  · rw [put_ok.mp hput]
    let held' : Held :=
      { held with failed, dueUnixNanos := if failed then none else held.dueUnixNanos }
    exact ⟨(Form.bytes held').bare, rfl, rewrite_seat held' hb hread hat rfl rfl⟩
  · next hsame =>
      obtain ⟨-, rfl⟩ := pure_ok.mp hput
      refine ⟨(Form.bytes held).bare, not_not.mp hsame, fun q j => ?_⟩
      split
      · next heq =>
          obtain ⟨rfl, rfl⟩ := heq
          exact hseat
      · rfl

/-- A Message made to wait keeps its mark. -/
theorem wait_marking (queue journey : ℕ) (due : ℤ) (q j : ℕ) :
    Marking q j (wait queue journey due) := by
  intro b a b' h hb
  have horders := wait_ordering queue journey due b a b' h hb
  have hfailure := failure_of_writes (wait_writes queue journey due) h q j
  obtain ⟨placed, hrest, hat⟩ := placed_bind_ok (k := .held) hb.proper h
  cases placed with
  | never =>
      obtain ⟨-, rfl⟩ := pure_ok.mp hrest
      exact .refl hb
  | takenOut =>
      obtain ⟨-, rfl⟩ := pure_ok.mp hrest
      exact .refl hb
  | «at» sequence =>
      obtain ⟨held, hread, hseat, hrest⟩ := read_indexed_bind_ok hb hat hrest
      obtain ⟨held', hheld, hput⟩ := decode_bind_ok.mp hrest
      rw [Form.fromBytes_bytes] at hheld
      cases hheld
      obtain rfl := put_ok.mp hput
      have hseat' := rewrite_seat { held with dueUnixNanos := some due } hb hread hat rfl rfl q j
      by_cases heq : q = queue ∧ j = journey
      · rw [if_pos heq] at hseat'
        obtain ⟨rfl, rfl⟩ := heq
        refine ⟨horders, ?_, fun h => ?_⟩
        · rw [View.placeOf, View.placeOf, hseat, hseat']
          rfl
        · rw [View.Agrees, hseat', hfailure, h, hseat]
          rfl
      · rw [if_neg heq] at hseat'
        exact .of_same horders hseat' hfailure

end Hold

namespace Failed

variable {b b' : Batch}

/-- What its index of what failed keeps of a Journey is its place there. -/
theorem index_at (hb : b.Proper) {queue journey : ℕ}
    (h : (b.view.queue .failed queue).index journey ≠ none) :
    ∃ n, (b.view.queue .failed queue).index journey = some (some n) := by
  obtain ⟨found, hread, hview, hholds⟩ := hb.seen (.failedByJourney, .pair queue journey) rfl
  have hindex : (b.view.queue .failed queue).index journey =
      Content.placing (found.map Content.bare) := congrArg Content.placing hview
  cases found with
  | none => exact absurd hindex h
  | some content =>
      have hc := hholds content rfl
      cases content <;> first | exact hc.elim | exact ⟨_, hindex⟩

/-- A Message left Failed where it holds a place is in the index with that place. -/
theorem place_recorded {queue journey place : ℕ} {reason : String} {now : ℤ} {yes : Bool}
    (hb : b.InOrder)
    (h : (Queue.place kinds queue journey fun sequence =>
      Form.bytes (Failed.mk queue sequence journey place reason now)).run b = .ok (yes, b')) :
    (b' = b ∧ b.view.failure queue journey ≠ none) ∨
      ∃ found, recordedAt found = some place ∧ ∀ q j, b'.view.failure q j =
        if q = queue ∧ j = journey then found else b.view.failure q j := by
  have hentry : ∀ n, (Form.bytes (Failed.mk queue n journey place reason now)).about = journey ∧
      (Form.bytes (Failed.mk queue n journey place reason now)).Seated queue n :=
    fun n => ⟨rfl, rfl, rfl⟩
  rcases place_find (k := .failed) hb hentry h with ⟨rfl, hindex⟩ | ⟨-, left, hone, hfind⟩
  · refine .inl ⟨rfl, ?_⟩
    obtain ⟨n, hn⟩ := index_at hb.proper hindex
    obtain ⟨entry, hentry, habout⟩ := ((hb.queued .failed queue).index journey n).mp hn
    have hfound : b'.view.failure queue journey = some (n, entry) :=
      (hb.queued .failed queue).find_eq_some.mpr ⟨hentry, habout⟩
    simp [hfound]
  · exact .inr ⟨_, rfl, hone.failure hfind⟩

theorem enter_marking (journey : ℕ) (failure : Failure) (now : ℤ) (q j : ℕ) :
    Marking q j (enter journey failure now) := by
  intro b a b' h hb
  have horders := enter_ordering journey failure now b a b' h hb
  obtain ⟨placed, hrest, hat⟩ := placed_bind_ok (k := .held) hb.proper h
  cases placed with
  | never =>
      obtain ⟨-, rfl⟩ := pure_ok.mp hrest
      exact .refl hb
  | takenOut =>
      obtain ⟨-, rfl⟩ := pure_ok.mp hrest
      exact .refl hb
  | «at» place =>
      obtain ⟨_, b₁, hmark, hrest⟩ := Decision.bind_ok_iff.mp hrest
      obtain ⟨yes, b₂, hplace, hrest⟩ := Decision.bind_ok_iff.mp hrest
      obtain ⟨-, rfl⟩ := pure_ok.mp hrest
      have hb₁ := (Hold.mark_ordering failure.queue place true b _ b₁ hmark hb).inOrder
      have hfailure₁ := Hold.failure_of_writes (Hold.mark_writes failure.queue place true) hmark q j
      obtain ⟨content, hmarked, hseat₁⟩ := Hold.mark_seat hb hat hmark
      -- the index is placed in beside what is held
      have hseat : ∀ q j, b₂.view.seat q j = b₁.view.seat q j := fun q j =>
        (Queue.place_writes Failed.kept (fun _ => ⟨_, rfl⟩) _ _ b₁ yes b₂ hplace).seat (by decide)
          q j
      have hseat' : b₂.view.seat q j = _ := (hseat q j).trans (hseat₁ q j)
      by_cases heq : q = failure.queue ∧ j = journey
      · obtain ⟨rfl, rfl⟩ := heq
        rw [if_pos ⟨rfl, rfl⟩] at hseat'
        obtain ⟨entry, hentry, habout⟩ := ((hb.queued .held failure.queue).index j place).mp hat
        have hbefore : b.view.seat failure.queue j = some (place, entry) :=
          (hb.queued .held failure.queue).find_eq_some.mpr ⟨hentry, habout⟩
        refine ⟨horders, by rw [View.placeOf, View.placeOf, hseat', hbefore]; rfl, fun hagree => ?_⟩
        have hmarkedAt : markedAt (b₂.view.seat failure.queue j) = some place := by
          rw [hseat']
          simp [markedAt, hmarked]
        rw [View.Agrees, hmarkedAt]
        rcases place_recorded hb₁ hplace with ⟨rfl, hin⟩ | ⟨found, hrecorded, hfound⟩
        · -- entered before, it is at the place it was marked at before
          rw [hfailure₁] at hin ⊢
          rw [View.Agrees, hbefore] at hagree
          obtain ⟨at', hat'⟩ := Option.ne_none_iff_exists'.mp hin
          rw [hat'] at hagree ⊢
          simp only [recordedAt, Option.map_some, markedAt, Option.bind_some] at hagree ⊢
          split at hagree
          · exact hagree
          · cases hagree
        · rw [hfound, if_pos ⟨rfl, rfl⟩, hrecorded]
      · rw [if_neg heq] at hseat'
        refine .of_same horders hseat' ?_
        rcases place_recorded hb₁ hplace with ⟨rfl, -⟩ | ⟨found, -, hfound⟩
        · exact hfailure₁
        · rw [hfound, if_neg heq, hfailure₁]

theorem leave_failure {queue journey : ℕ} (hb : b.InOrder)
    (h : (leave queue journey).run b = .ok ((), b')) (q j : ℕ) :
    b'.view.failure q j = if q = queue ∧ j = journey then none else b.view.failure q j := by
  obtain ⟨placed, hrest, hat⟩ := placed_bind_ok (k := .failed) hb.proper h
  have hsame : b' = b → (∀ n, (b.view.queue .failed queue).index journey ≠ some (some n)) →
      b'.view.failure q j = if q = queue ∧ j = journey then none else b.view.failure q j := by
    rintro rfl hno
    split
    · next heq =>
        obtain ⟨rfl, rfl⟩ := heq
        exact Numbered.find_of_index hno
    · rfl
  cases placed with
  | never =>
      obtain ⟨-, rfl⟩ := pure_ok.mp hrest
      exact hsame rfl (by simp [hat])
  | takenOut =>
      obtain ⟨-, rfl⟩ := pure_ok.mp hrest
      exact hsame rfl (by simp [hat])
  | «at» sequence =>
      obtain ⟨found, b₁, htake, hforget⟩ := Decision.bind_ok_iff.mp hrest
      obtain ⟨entry, hentry, habout⟩ := ((hb.queued .failed queue).index journey sequence).mp hat
      rcases takeOut_ok (k := .failed) hb.proper htake with ⟨-, -, hnone⟩ | ⟨bytes, -, -, -, rfl⟩
      · rw [hentry] at hnone
        cases hnone
      · rw [put_ok.mp hforget]
        obtain ⟨left, hone, hfind⟩ := goneFrom_find (k := .failed) hb hentry habout
        exact hone.failure hfind q j

/-- A place no longer marked failed. -/
theorem unmark_seat {queue journey : ℕ} (hb : b.InOrder)
    (h : (unmark queue journey).run b = .ok ((), b')) :
    markedAt (b'.view.seat queue journey) = none ∧
      b'.view.placeOf queue journey = b.view.placeOf queue journey ∧
      ∀ q j, ¬(q = queue ∧ j = journey) → b'.view.seat q j = b.view.seat q j := by
  obtain ⟨placed, hrest, hat⟩ := placed_bind_ok (k := .held) hb.proper h
  have hsame : b' = b → (∀ n, (b.view.queue .held queue).index journey ≠ some (some n)) →
      markedAt (b'.view.seat queue journey) = none ∧
        b'.view.placeOf queue journey = b.view.placeOf queue journey ∧
        ∀ q j, ¬(q = queue ∧ j = journey) → b'.view.seat q j = b.view.seat q j := by
    rintro rfl hno
    have hseat : b'.view.seat queue journey = none := Numbered.find_of_index hno
    exact ⟨by rw [hseat]; rfl, rfl, fun _ _ _ => rfl⟩
  cases placed with
  | never =>
      obtain ⟨-, rfl⟩ := pure_ok.mp hrest
      exact hsame rfl (by simp [hat])
  | takenOut =>
      obtain ⟨-, rfl⟩ := pure_ok.mp hrest
      exact hsame rfl (by simp [hat])
  | «at» place =>
      obtain ⟨content, hmarked, hseat⟩ := Hold.mark_seat hb hat hrest
      obtain ⟨entry, hentry, habout⟩ := ((hb.queued .held queue).index journey place).mp hat
      have hbefore : b.view.seat queue journey = some (place, entry) :=
        (hb.queued .held queue).find_eq_some.mpr ⟨hentry, habout⟩
      have hafter : b'.view.seat queue journey = some (place, content) := by
        rw [hseat, if_pos ⟨rfl, rfl⟩]
      refine ⟨?_, ?_, fun q j hne => ?_⟩
      · rw [hafter]
        simp [markedAt, hmarked]
      · rw [View.placeOf, View.placeOf, hafter, hbefore]
        rfl
      · rw [hseat, if_neg hne]

/-- A Message out of the index of what failed and no longer marked: the two agree, whatever they
said. -/
theorem clear_marked {queue journey : ℕ} (hb : b.InOrder)
    (h : (clear queue journey).run b = .ok ((), b')) :
    b'.view.Agrees queue journey ∧ ∀ q j, Marked q j b b' := by
  have horders := clear_ordering queue journey b _ b' h hb
  obtain ⟨_, b₁, hleave, hunmark⟩ := Decision.bind_ok_iff.mp h
  have hb₁ := (leave_ordering queue journey b _ b₁ hleave hb).inOrder
  have hseat₁ : ∀ q j, b₁.view.seat q j = b.view.seat q j := fun q j =>
    (leave_writes queue journey b _ b₁ hleave).seat (by decide) q j
  obtain ⟨hmarkedAt, hplace, hother⟩ := unmark_seat hb₁ hunmark
  have hfailure : ∀ q j, b'.view.failure q j =
      if q = queue ∧ j = journey then none else b.view.failure q j := by
    intro q j
    rw [← leave_failure hb hleave q j]
    exact Hold.failure_of_writes (unmark_writes queue journey) hunmark q j
  have hagrees : b'.view.Agrees queue journey := by
    rw [View.Agrees, hmarkedAt, hfailure, if_pos ⟨rfl, rfl⟩]
    rfl
  refine ⟨hagrees, fun q j => ?_⟩
  by_cases heq : q = queue ∧ j = journey
  · obtain ⟨rfl, rfl⟩ := heq
    refine ⟨horders, ?_, fun _ => hagrees⟩
    rw [hplace, View.placeOf, View.placeOf, hseat₁]
  · refine .of_same horders ((hother q j heq).trans (hseat₁ q j)) ?_
    rw [hfailure, if_neg heq]

theorem clear_marking (queue journey q j : ℕ) : Marking q j (clear queue journey) :=
  fun _ _ _ h hb => (clear_marked hb h).2 q j

/-- A Message out of the index of each of several queues. -/
theorem clear_each {queues : List ℕ} {queue journey : ℕ} (hqueue : queue ∈ queues)
    (hb : b.InOrder) (h : (queues.forM fun q => clear q journey).run b = .ok ((), b')) :
    b'.view.Agrees queue journey := by
  induction queues generalizing b with
  | nil => cases hqueue
  | cons first rest ih =>
      obtain ⟨_, b₁, hfirst, hrest⟩ := Decision.bind_ok_iff.mp h
      have hmarked := clear_marked hb hfirst
      have hb₁ := (hmarked.2 queue journey).orders.inOrder
      by_cases hmem : queue ∈ rest
      · exact ih hmem hb₁ hrest
      · obtain rfl : queue = first := (List.mem_cons.mp hqueue).resolve_right hmem
        have hkept : Marking queue journey (rest.forM fun q => clear q journey) :=
          .forM _ fun q _ => clear_marking q journey queue journey
        exact (hkept b₁ _ b' hrest hb₁).agrees hmarked.1

end Failed

/-- A Message's index and mark agree after a move, where what failed kept its place. -/
theorem Displaced.agrees {q j : ℕ} {b b' : Batch} (h : Displaced q j b b') (hb : b.InOrder)
    (hagree : b.view.Agrees q j)
    (hkept : b.view.failure q j ≠ none → b'.view.placeOf q j = b.view.placeOf q j) :
    b'.view.Agrees q j := by
  rw [View.Agrees] at hagree ⊢
  rw [h.failure, hagree]
  rcases h.seat with hsame | hgone
  · rw [hsame]
  · -- where it failed it held a place, so its place changed
    have hunmarked : markedAt (b'.view.seat q j) = none := by
      rcases hgone with hnone | ⟨n, content, hseat, -, hmark⟩
      · rw [hnone]
        rfl
      · rw [hseat]
        simp [markedAt, hmark]
    rw [hunmarked]
    cases hfound : b.view.failure q j with
    | none =>
        rw [← hagree, hfound]
        rfl
    | some at' =>
        have hplace := hkept (by simp [hfound])
        rw [hfound] at hagree
        cases hseat : b.view.seat q j with
        | none =>
            rw [hseat] at hagree
            cases hagree
        | some place =>
            have hbound : place.1 < (b.view.queue .held q).next :=
              ((hb.queued .held q).bounds place.1 place.2
                ((hb.queued .held q).find_eq_some.mp hseat).1).2
            rw [View.placeOf, View.placeOf, hseat] at hplace
            rcases hgone with hnone | ⟨n, content, hseat', hn, -⟩
            · rw [hnone] at hplace
              cases hplace
            · rw [hseat'] at hplace
              have heq : n = place.1 := Option.some.inj hplace
              omega

end XmipPersist
