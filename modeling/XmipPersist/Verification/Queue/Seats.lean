import XmipPersist.Verification.Queue.Failures

/-! # The places held, and what each step does to them

A Journey holds at most one place in a queue. Each step of an operation takes or lets go the places
it says and no others; one that marks an entry, makes it wait or moves it to the end takes none and
lets none go.
-/

namespace XmipPersist

/-- The places held: in which queue, and by which Journey. -/
def View.seats (v : View) : Set (ℕ × ℕ) := fun seat => v.placeOf seat.1 seat.2 ≠ none

theorem View.mem_seats {v : View} {q j : ℕ} : (q, j) ∈ v.seats ↔ v.placeOf q j ≠ none := Iff.rfl

theorem View.seats_congr {v v' : View} (h : ∀ q j, v'.placeOf q j = v.placeOf q j) :
    v'.seats = v.seats := by
  ext ⟨q, j⟩
  rw [mem_seats, mem_seats, h]

/-! ## What a step does to the places held -/

/-- From a batch in order to a later one, the places held become `g` of what they were. -/
structure Reseated (g : Set (ℕ × ℕ) → Set (ℕ × ℕ)) (b b' : Batch) : Prop where
  orders : Orders b b'
  seats : b'.view.seats = g b.view.seats

/-- Whatever `m` decides in a batch in order, the places held become `g` of what they were. -/
def Reseats {α : Type} (g : Set (ℕ × ℕ) → Set (ℕ × ℕ)) (m : Deciding α) : Prop :=
  Decision.Moves (fun b b' => b.InOrder → Reseated g b b') m

namespace Reseats

variable {α β : Type} {g g' : Set (ℕ × ℕ) → Set (ℕ × ℕ)}

theorem pure (a : α) : Reseats id (pure a) :=
  Decision.Moves.pure (fun _ hb => ⟨.refl hb, rfl⟩) a

theorem bind {m : Deciding α} {f : α → Deciding β} (hm : Reseats g m)
    (hf : ∀ a, Reseats g' (f a)) : Reseats (g' ∘ g) (m >>= f) := by
  intro b a b' h hb
  obtain ⟨x, b₁, h₁, h₂⟩ := Decision.bind_ok_iff.mp h
  have hfirst := hm b x b₁ h₁ hb
  have hsecond := hf x b₁ a b' h₂ hfirst.orders.inOrder
  exact ⟨hfirst.orders.trans hsecond.orders, by rw [hsecond.seats, hfirst.seats]; rfl⟩

theorem forM {step : β → Set (ℕ × ℕ) → Set (ℕ × ℕ)} {f : β → Deciding PUnit} (xs : List β)
    (h : ∀ x ∈ xs, Reseats (step x) (f x)) :
    Reseats (fun seats => xs.foldl (fun seats x => step x seats) seats) (xs.forM f) := by
  induction xs with
  | nil => exact Reseats.pure PUnit.unit
  | cons x xs ih =>
      change Reseats _ (f x >>= fun _ => xs.forM f)
      exact Reseats.bind (h x (by simp)) fun _ => ih fun y hy => h y (by simp [hy])

theorem forM_same {f : β → Deciding PUnit} (xs : List β) (h : ∀ x ∈ xs, Reseats id (f x)) :
    Reseats id (xs.forM f) := by
  induction xs with
  | nil => exact Reseats.pure PUnit.unit
  | cons x xs ih =>
      change Reseats _ (f x >>= fun _ => xs.forM f)
      exact Reseats.bind (h x (by simp)) fun _ => ih fun y hy => h y (by simp [hy])

theorem congr {m : Deciding α} (h : Reseats g m) (hg : ∀ seats, g seats = g' seats) :
    Reseats g' m := by
  intro b a b' hr hb
  have hm := h b a b' hr hb
  exact ⟨hm.orders, by rw [hm.seats, hg]⟩

/-- A decision in order that writes nothing of what is held keeps every place. -/
theorem of_writes {kinds : List Kind} {m : Deciding α} (hm : Ordering m) (h : Writes kinds m)
    (hk : ∀ kind ∈ Hold.kinds.all, kind ∉ kinds) : Reseats id m := by
  intro b a b' hr hb
  have hadds := h b a b' hr
  refine ⟨hm b a b' hr hb, View.seats_congr fun q j => ?_⟩
  rw [View.placeOf, View.placeOf, hadds.seat hk]

/-- One that marks Messages moves none. -/
theorem of_marking {m : Deciding α} (h : ∀ q j, Marking q j m) : Reseats id m := by
  intro b a b' hr hb
  exact ⟨(h 0 0 b a b' hr hb).orders, View.seats_congr fun q j => (h q j b a b' hr hb).place⟩

end Reseats

/-! ## The steps of what is held -/

namespace Hold

variable {b b' : Batch}

/-- What a queue's index of what it holds keeps of a Journey is its place there. -/
theorem index_at (hb : b.Proper) {queue journey : ℕ}
    (h : (b.view.queue .held queue).index journey ≠ none) :
    ∃ n, (b.view.queue .held queue).index journey = some (some n) := by
  obtain ⟨found, hread, hview, hholds⟩ := hb.seen (.heldJourney, .pair queue journey) rfl
  have hindex : (b.view.queue .held queue).index journey =
      Content.placing (found.map Content.bare) := congrArg Content.placing hview
  rw [hindex] at h ⊢
  cases found with
  | none => exact absurd rfl h
  | some content =>
      have hcontent := hholds content rfl
      cases content <;> first | exact hcontent.elim | exact ⟨_, rfl⟩

theorem keep_reseats (kept : Hold) :
    Reseats (insert (kept.queue, kept.journey)) (keep kept) := by
  intro b a b' h hb
  have horders := keep_ordering kept b a b' h hb
  obtain ⟨yes, b₁, hplace, hrest⟩ := Decision.bind_ok_iff.mp h
  obtain ⟨-, rfl⟩ := pure_ok.mp hrest
  have hentry : ∀ n, (Form.bytes (Held.mk n kept 0 false none)).about = kept.journey ∧
      (Form.bytes (Held.mk n kept 0 false none)).Seated kept.queue n := fun n => ⟨rfl, rfl, rfl⟩
  refine ⟨horders, ?_⟩
  rcases place_find (k := .held) hb hentry hplace with ⟨rfl, hin⟩ | ⟨-, queue, hone, hfind⟩
  · obtain ⟨n, hn⟩ := index_at hb.proper hin
    have hseat : (kept.queue, kept.journey) ∈ b₁.view.seats := by
      rw [View.mem_seats, View.placeOf_index hb.queued, hn]
      simp
    rw [Set.insert_eq_of_mem hseat]
  · ext ⟨q, j⟩
    have hseat := hone.seat hfind q j
    rw [Set.mem_insert_iff, Prod.mk.injEq, View.mem_seats, View.mem_seats, View.placeOf,
      View.placeOf, hseat]
    by_cases heq : q = kept.queue ∧ j = kept.journey
    · simp [heq]
    · simp [heq]

/-- A place gone with its index is held no more, and no other is. -/
theorem goneFrom_seats {queue sequence journey : ℕ} {entry : Content} (hb : b.InOrder)
    (hn : (b.view.queue .held queue).entry sequence = some entry)
    (habout : entry.about = journey) :
    (goneFrom b .held queue sequence journey none).view.seats =
      b.view.seats \ {(queue, journey)} := by
  obtain ⟨left, hone, hfind⟩ := goneFrom_find hb hn habout
  ext ⟨q, j⟩
  have hseat := hone.seat hfind q j
  rw [Set.mem_sdiff, Set.mem_singleton_iff, Prod.mk.injEq, View.mem_seats, View.mem_seats,
    View.placeOf, View.placeOf, hseat]
  by_cases heq : q = queue ∧ j = journey
  · simp [heq]
  · simp [heq]

/-- A Journey in no index of a queue holds no place there. -/
theorem not_seated {queue journey : ℕ} (hb : b.InOrder)
    (h : ∀ n, (b.view.queue .held queue).index journey ≠ some (some n)) :
    (queue, journey) ∉ b.view.seats := by
  rw [View.mem_seats, not_not, View.placeOf_index hb.queued]
  cases hindex : (b.view.queue .held queue).index journey with
  | none => rfl
  | some kept =>
      cases kept with
      | none => rfl
      | some n => exact absurd hindex (h n)

/-- A Journey's place in a queue let go of. -/
theorem letGoOf_reseats (queue journey : ℕ) :
    Reseats (fun seats => seats \ {(queue, journey)}) (letGoOf queue journey) := by
  intro b a b' h hb
  have horders := letGoOf_ordering queue journey b a b' h hb
  refine ⟨horders, ?_⟩
  obtain ⟨placed, hrest, hat⟩ := placed_bind_ok (k := .held) hb.proper h
  have hnone : (∀ n, placed ≠ .at n) → b'.view.seats = b.view.seats \ {(queue, journey)} := by
    intro hplaced
    have hsame : b' = b := by
      cases placed with
      | never => exact (pure_ok.mp hrest).2.symm
      | takenOut => exact (pure_ok.mp hrest).2.symm
      | «at» n => exact absurd rfl (hplaced n)
    have hseat : (queue, journey) ∉ b.view.seats := not_seated hb fun n hn => by
      cases placed with
      | never => simp [hn] at hat
      | takenOut => simp [hn] at hat
      | «at» n => exact hplaced n rfl
    rw [hsame, Set.sdiff_singleton_eq_self hseat]
  cases placed with
  | never => exact hnone (by simp)
  | takenOut => exact hnone (by simp)
  | «at» sequence =>
      obtain ⟨found, b₁, htake, hrest⟩ := Decision.bind_ok_iff.mp hrest
      obtain ⟨held, rfl, rfl, -, hn, rfl⟩ := taken_ok hb hat htake
      obtain ⟨held', hheld, hput⟩ := decode_bind_ok.mp hrest
      rw [Form.fromBytes_bytes] at hheld
      cases hheld
      rw [put_ok.mp hput]
      exact goneFrom_seats hb hn rfl

/-- A place given up for a new one at the queue's end is held still. -/
theorem toTheEnd_reseats (queue journey : ℕ) : Reseats id (toTheEnd queue journey) := by
  intro b a b' h hb
  have horders := toTheEnd_ordering queue journey b a b' h hb
  refine ⟨horders, ?_⟩
  obtain ⟨placed, hrest, hat⟩ := placed_bind_ok (k := .held) hb.proper h
  cases placed with
  | never =>
      obtain ⟨-, rfl⟩ := pure_ok.mp hrest
      rfl
  | takenOut =>
      obtain ⟨-, rfl⟩ := pure_ok.mp hrest
      rfl
  | «at» sequence =>
      obtain ⟨found, b₁, htake, hrest⟩ := Decision.bind_ok_iff.mp hrest
      obtain ⟨held, rfl, rfl, hqueue, hn, rfl⟩ := taken_ok hb hat htake
      obtain ⟨held', hheld, hrest⟩ := decode_bind_ok.mp hrest
      rw [Form.fromBytes_bytes] at hheld
      cases hheld
      obtain ⟨_, b₂, hforget, hkeep⟩ := Decision.bind_ok_iff.mp hrest
      rw [put_ok.mp hforget] at hkeep
      have hgone := goneFrom_orders hb hn rfl (.inl (rfl : none = none)) trivial
      have hseats := keep_reseats held.hold _ a b' hkeep hgone.inOrder
      have hseat : (queue, held.hold.journey) ∈ b.view.seats := by
        rw [View.mem_seats, View.placeOf_index hb.queued, hat]
        simp
      have hleft := goneFrom_seats hb hn (rfl : Content.about (.held _) = held.hold.journey)
      have htaken := hseats.seats.trans (congrArg _ hleft)
      rw [htaken, hqueue]
      exact Set.insert_sdiff_self_of_mem hseat

end Hold

namespace Failed

theorem clear_reseats (queue journey : ℕ) : Reseats id (clear queue journey) :=
  .of_marking fun q j => clear_marking queue journey q j

end Failed

end XmipPersist
