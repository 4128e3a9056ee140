import XmipPersist.Library.Counted
import XmipPersist.Verification.Queue.Seats

/-! # The book an operation keeps of its holders

A Journey names its origin and its Send Port Group delivery, and says of each whether it keeps it
open. What a store keeps of the holders, beside what its Journeys say and the places they have, is a
book, and each step moves it as the steps of a book do.
-/

namespace XmipPersist

/-! ## The book of a view -/

/-- What a Journey's record says of its two holders, by which of them it is. -/
def Origin.flag (record : JourneyRecord) (group : Bool) : Option ℕ × Bool :=
  if group then (Origin.holders record).2 else (Origin.holders record).1

/-- The places some Holds take. -/
def taken (places : List Hold) : List (ℕ × ℕ) := places.map fun place => (place.queue, place.journey)

/-- What a view keeps of the holders: what each Journey says last of its origin and of its Send
Port Group delivery, the count and the queues of each, and the places held. -/
def View.book (v : View) : Book (Bool × ℕ) ℕ ℕ where
  flags k :=
    match v (.journey, .id k.2) with
    | some (.journey record) => some (Origin.flag record k.1)
    | _ => none
  kept holder :=
    match v (.origin, .id holder) with
    | some (.origin kept) => some (kept.isOpen, kept.queues)
    | _ => none
  seats := v.seats

abbrev Books := Book (Bool × ℕ) ℕ ℕ

/-- From a batch in order to a later one, the book becomes `g` of what it was. -/
structure Booked (g : Books → Books) (b b' : Batch) : Prop where
  orders : Orders b b'
  book : b'.view.book = g b.view.book

/-- Whatever `m` decides in a batch in order, the book becomes `g` of what it was. -/
def Rebooks {α : Type} (g : Books → Books) (m : Deciding α) : Prop :=
  Decision.Moves (fun b b' => b.InOrder → Booked g b b') m

namespace Rebooks

variable {α β : Type} {g g' : Books → Books}

theorem pure (a : α) : Rebooks id (pure a) :=
  Decision.Moves.pure (fun _ hb => ⟨.refl hb, rfl⟩) a

theorem bind {m : Deciding α} {f : α → Deciding β} (hm : Rebooks g m)
    (hf : ∀ a, Rebooks g' (f a)) : Rebooks (g' ∘ g) (m >>= f) := by
  intro b a b' h hb
  obtain ⟨x, b₁, h₁, h₂⟩ := Decision.bind_ok_iff.mp h
  have hfirst := hm b x b₁ h₁ hb
  have hsecond := hf x b₁ a b' h₂ hfirst.orders.inOrder
  exact ⟨hfirst.orders.trans hsecond.orders, by rw [hsecond.book, hfirst.book]; rfl⟩

theorem forM {step : β → Books → Books} {f : β → Deciding PUnit} (xs : List β)
    (h : ∀ x ∈ xs, Rebooks (step x) (f x)) :
    Rebooks (fun book => xs.foldl (fun book x => step x book) book) (xs.forM f) := by
  induction xs with
  | nil => exact Rebooks.pure PUnit.unit
  | cons x xs ih =>
      change Rebooks _ (f x >>= fun _ => xs.forM f)
      exact Rebooks.bind (h x (by simp)) fun _ => ih fun y hy => h y (by simp [hy])

theorem congr {m : Deciding α} (h : Rebooks g m) (hg : ∀ book, g book = g' book) :
    Rebooks g' m := by
  intro b a b' hr hb
  have hm := h b a b' hr hb
  exact ⟨hm.orders, by rw [hm.book, hg]⟩

end Rebooks

section Kinds

variable {b b' : Batch} {kinds : List Kind}

/-- What writes no Journey and no holder moves the places held and nothing else. -/
theorem Adds.book (h : Adds kinds b b') (hjourney : .journey ∉ kinds) (horigin : .origin ∉ kinds) :
    b'.view.book = { b.view.book with seats := b'.view.seats } := by
  have hjourney' : ∀ key, b'.view (.journey, key) = b.view (.journey, key) := fun _ =>
    h.view_of_kind hjourney
  have horigin' : ∀ key, b'.view (.origin, key) = b.view (.origin, key) := fun _ =>
    h.view_of_kind horigin
  simp only [View.book, hjourney', horigin']

end Kinds

namespace Rebooks

variable {α : Type}

theorem of_reseats {g : Set (ℕ × ℕ) → Set (ℕ × ℕ)} {kinds : List Kind} {m : Deciding α}
    (hm : Reseats g m) (h : Writes kinds m) (hjourney : .journey ∉ kinds)
    (horigin : .origin ∉ kinds) :
    Rebooks (fun book => { book with seats := g book.seats }) m := by
  intro b a b' hr hb
  have hseats := hm b a b' hr hb
  refine ⟨hseats.orders, ?_⟩
  rw [(h b a b' hr).book hjourney horigin, hseats.seats]
  rfl

/-- A decision in order that writes no Journey, no holder and nothing of what is held. -/
theorem of_writes {kinds : List Kind} {m : Deciding α} (hm : Ordering m) (h : Writes kinds m)
    (hkinds : ∀ kind ∈ Kind.journey :: Kind.origin :: Hold.kinds.all, kind ∉ kinds) :
    Rebooks id m := by
  have hheld : ∀ kind ∈ Hold.kinds.all, kind ∉ kinds := fun kind hkind =>
    hkinds kind (by simp [hkind])
  exact of_reseats (.of_writes hm h hheld) h (hkinds _ (by simp)) (hkinds _ (by simp))

end Rebooks

/-! ## A holder counted -/

namespace Origin

/-- The widths of the counter. -/
abbrev cap : ℕ := 2 ^ 32

theorem taking_eq (holder : ℕ) (places : List Hold) (queues : List ℕ) :
    taking holder places queues = Book.gathered holder (taken places) queues := by
  rw [taking, Book.gathered, taken, List.foldl_map]

/-- Every place let go of, one after another. -/
theorem letGo_books (holder : ℕ) (queues : List ℕ) :
    Rebooks (fun book => { book with
        seats := book.seats \ {place | place.2 = holder ∧ place.1 ∈ queues} })
      (queues.forM fun queue => Hold.letGoOf queue holder) := by
  have hseats : Reseats (fun seats => seats \ {place | place.2 = holder ∧ place.1 ∈ queues})
      (queues.forM fun queue => Hold.letGoOf queue holder) := by
    refine (Reseats.forM queues fun queue _ => Hold.letGoOf_reseats queue holder).congr ?_
    intro seats
    induction queues generalizing seats with
    | nil => simp
    | cons queue queues ih =>
        rw [List.foldl_cons, ih]
        ext ⟨q, j⟩
        simp only [Set.mem_sdiff, Set.mem_singleton_iff, Prod.mk.injEq, Set.mem_ofPred_eq,
          List.mem_cons]
        tauto
  exact .of_reseats hseats (.forM _ fun _ _ => Hold.letGoOf_writes _ _) (by decide) (by decide)

/-- What is kept of a holder in a view, as a book has it. -/
theorem book_kept {b : Batch} (hb : b.Proper) {holder : ℕ} {found : Option Origin}
    (h : b.read (.origin, .id holder) >>= decoded (α := Origin) = .ok found) :
    b.view.book.kept holder = found.map fun kept => (kept.isOpen, kept.queues) := by
  obtain ⟨content, hread, hview, hholds⟩ := hb.seen (.origin, .id holder) rfl
  rw [hread] at h
  simp only [View.book, hview]
  cases content with
  | none =>
      cases h
      rfl
  | some content =>
      have hcontent := hholds content rfl
      cases content <;> first | exact hcontent.elim | (cases h; rfl)

/-- A place that is none of what is held written leaves every place held. -/
theorem seats_update (v : View) {kind : Kind} (hkind : kind ∉ Hold.kinds.all) (key : Key)
    (value : Option Content) : View.seats (Function.update v (kind, key) value) = v.seats := by
  refine View.seats_congr fun q j => ?_
  rw [View.placeOf, View.placeOf, View.seat_congr fun p hp => ?_]
  refine Function.update_of_ne ?_ _ _
  rintro rfl
  exact hkind hp

theorem put_book (b : Batch) (holder : ℕ) (value : Option Origin) :
    (b.put .origin (.id holder) (value.map Form.bytes)).view.book =
      { b.view.book with
        kept := Function.update b.view.book.kept holder
          (value.map fun kept => (kept.isOpen, kept.queues)) } := by
  rw [Batch.view_put _ _ _ rfl]
  have hkind : Kind.origin ∉ Hold.kinds.all := by decide
  have hseats := seats_update b.view hkind (.id holder) ((value.map Form.bytes).map Content.bare)
  simp only [View.book, hseats, Book.mk.injEq, and_true]
  refine ⟨rfl, ?_⟩
  funext other
  by_cases hother : other = holder
  · subst hother
    rw [Function.update_self, Function.update_self]
    cases value <;> rfl
  · have hplace : ((.origin, .id other) : Place) ≠ (.origin, .id holder) := by simp [hother]
    rw [Function.update_of_ne hother, Function.update_of_ne hplace]

theorem count_books (holder : ℕ) (move : Option Bool) (places : List Hold) :
    Rebooks (fun book => book.count cap holder move (taken places)) (count holder move places) := by
  intro b a b' h hb
  have horders := count_ordering holder move places b a b' h hb
  refine ⟨horders, ?_⟩
  obtain ⟨found, hfound, hrest⟩ := readAs_bind_ok.mp h
  have hkept := book_kept hb.proper hfound
  have hcounted : moved (found.getD ⟨0, []⟩).isOpen move =
      Book.counter cap (b.view.book.counted holder) move := by
    rw [Book.counted, hkept]
    cases found <;> cases move with
    | none => rfl
    | some isOpen => cases isOpen <;> rfl
  have hplaces : taking holder places (found.getD ⟨0, []⟩).queues =
      Book.gathered holder (taken places) (b.view.book.places holder) := by
    rw [taking_eq, Book.places, hkept]
    cases found <;> rfl
  simp only at hrest
  split at hrest
  · next hzero =>
      obtain ⟨_, b₁, hletGo, hput⟩ := Decision.bind_ok_iff.mp hrest
      have hbook := (letGo_books holder _ b _ b₁ hletGo hb).book
      rw [put_ok.mp hput]
      have hlast := put_book b₁ holder none
      rw [Option.map_none] at hlast
      rw [hlast, hbook, Book.count]
      rw [hcounted] at hzero
      simp only [hzero, if_true, hplaces]
      rfl
  · next hopen =>
      rw [put_ok.mp hrest]
      have hlast := put_book b holder
        (some ⟨moved (found.getD ⟨0, []⟩).isOpen move,
          taking holder places (found.getD ⟨0, []⟩).queues⟩)
      rw [Option.map_some] at hlast
      rw [hlast, Book.count]
      rw [hcounted] at hopen
      simp only [hopen, if_false, Option.map_some, hcounted, hplaces]

theorem countedFor_books (kept : Option (Option ℕ × Bool)) (holder : Option ℕ × Bool)
    (places : List Hold) :
    Rebooks (fun book => book.countFor cap (decide (kept = some (holder.1, true))) holder
      (taken places)) (countedFor kept holder places) := by
  obtain ⟨name, isOpen⟩ := holder
  cases name with
  | none => exact Rebooks.pure _
  | some holder =>
      have htakes : (places.any fun place => place.journey = holder) =
          (taken places).any fun place => place.2 = holder := by
        rw [taken, List.any_map]
        rfl
      simp only [countedFor, Book.countFor, ← htakes]
      by_cases hcounts : decide (kept = some (some holder, true)) ≠ isOpen ∨
          (places.any fun place => place.journey = holder) = true
      · simp only [if_pos hcounts]
        exact count_books holder _ places
      · simp only [if_neg hcounts]
        exact Rebooks.pure _

/-- What a Journey's record said before, as a book has it. -/
theorem book_flags {b : Batch} (hb : b.Proper) {journey : ℕ} {found : Option JourneyRecord}
    (h : b.read (.journey, .id journey) >>= decoded (α := JourneyRecord) = .ok found)
    (group : Bool) :
    b.view.book.flags (group, journey) = found.map fun record => flag record group := by
  obtain ⟨content, hread, hview, hholds⟩ := hb.seen (.journey, .id journey) rfl
  rw [hread] at h
  simp only [View.book, hview]
  cases content with
  | none =>
      cases h
      rfl
  | some content =>
      have hcontent := hholds content rfl
      cases content <;> first | exact hcontent.elim | (cases h; rfl)

theorem put_journey {b : Batch} (record : JourneyRecord) :
    (b.put .journey (.id record.journey) (some (Form.bytes record))).view.book =
      { b.view.book with
        flags := Function.update
          (Function.update b.view.book.flags (false, record.journey) (some (flag record false)))
          (true, record.journey) (some (flag record true)) } := by
  rw [Batch.view_put _ _ _ rfl]
  have hkind : Kind.journey ∉ Hold.kinds.all := by decide
  have hseats := seats_update b.view hkind (.id record.journey)
    ((some (Form.bytes record)).map Content.bare)
  simp only [View.book, hseats, Book.mk.injEq]
  refine ⟨?_, rfl, trivial⟩
  funext ⟨group, journey⟩
  by_cases hjourney : journey = record.journey
  · subst hjourney
    cases group <;> simp [Form.bytes, Content.bare, flag, holders]
  · have hplace : ((.journey, .id journey) : Place) ≠ (.journey, .id record.journey) := by
      simp [hjourney]
    rw [Function.update_of_ne hplace, Function.update_of_ne (by simp [hjourney]),
      Function.update_of_ne (by simp [hjourney])]

/-- A Journey written, counted for its origin and then for its Send Port Group delivery. -/
def written (record : JourneyRecord) (places : List (ℕ × ℕ)) (book : Books) : Books :=
  (book.move cap places (false, record.journey) (flag record false)).move cap places
    (true, record.journey) (flag record true)

theorem counted_record_books (record : JourneyRecord) (places : List Hold) :
    Rebooks (written record (taken places)) (do
      counted record places
      putRecord .journey record.journey record) := by
  intro b a b' h hb
  refine ⟨counted_record_ordering record places b a b' h hb, ?_⟩
  obtain ⟨_, b₂, hcounted, hput⟩ := Decision.bind_ok_iff.mp h
  obtain ⟨found, hfound, hrest⟩ := readAs_bind_ok.mp hcounted
  obtain ⟨_, b₁, hfirst, hsecond⟩ := Decision.bind_ok_iff.mp hrest
  have hbook₁ := countedFor_books _ _ places b _ b₁ hfirst hb
  have hbook₂ := countedFor_books _ _ places b₁ _ b₂ hsecond hbook₁.orders.inOrder
  have hflag : ∀ group, b.view.book.flags (group, record.journey) =
      found.map fun record => flag record group := book_flags hb.proper hfound
  have hkept : ∀ group, (found.map holders).map (fun holders =>
      if group then holders.2 else holders.1) = b.view.book.flags (group, record.journey) := by
    intro group
    rw [hflag]
    cases found <;> rfl
  have hne : ((true, record.journey) : Bool × ℕ) ≠ (false, record.journey) := by simp
  have horigin : (found.map holders).map Prod.fst = b.view.book.flags (false, record.journey) :=
    hkept false
  have hgroup : (found.map holders).map Prod.snd = b.view.book.flags (true, record.journey) :=
    hkept true
  rw [put_ok.mp hput, put_journey, hbook₂.book, hbook₁.book, horigin, hgroup]
  simp only [written, Book.move, Book.countFor_flags, Book.flags_countFor,
    Function.update_of_ne hne]
  rfl

end Origin

end XmipPersist
