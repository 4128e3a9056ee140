import XmipPersist.Verification.Origin.Opening

/-! # A holder's places are held while a Journey keeps it open

A holder's count is of the stored Journeys that keep it open, and it holds every place it took as
long as there is one. Each operation that came out keeps this, where its Journeys keep naming the
holder they kept open, no counter runs over, and a holder they close is not opened again by them.
-/

namespace XmipPersist

variable {digest : Publication → Bytes}

/-! ## What is kept of a holder -/

/-- Whether a Journey's record names `holder` with its flag set. -/
def JourneyRecord.keeps (record : JourneyRecord) (holder : ℕ) : Prop :=
  ∃ group, Origin.flag record group = (some holder, true)

/-- The stored Journeys that name `holder` with its flag set. -/
def Store.keeping (s : Store) (holder : ℕ) : Set ℕ :=
  {journey | ∃ record, s.records (.journey, .id journey) = some (.journey record) ∧
    record.keeps holder}

/-- The count kept of a holder's open Journeys; none is kept where it has none. -/
def Store.openCount (s : Store) (holder : ℕ) : ℕ :=
  match s.records (.origin, .id holder) with
  | some (.origin kept) => kept.isOpen
  | _ => 0

/-- What an operation that came out opens. -/
def Ruling.Opens (r : Ruling) (opening : Opening) : Prop := r.op.Opens r.before.staged opening

/-- The queues a holder took a place in, as some operations came out. -/
def Ruling.took (rs : List Ruling) (holder : ℕ) : Set ℕ :=
  {queue | ∃ r ∈ rs, ∃ opening, r.Opens opening ∧ (queue, holder) ∈ taken opening.places}

/-- A holder's places are held while a Journey keeps it open, and its count is of these. -/
structure HeldOpen (s : Store) (took : Set ℕ) (holder : ℕ) : Prop where
  finite : (s.keeping holder).Finite
  counted : s.openCount holder = (s.keeping holder).ncard
  held : ∀ queue ∈ took, s.view.placeOf queue holder ≠ none ↔ (s.keeping holder).Nonempty
  only : ∀ queue, s.view.placeOf queue holder ≠ none → queue ∈ took

/-! ## What is asked of an operation -/

/-- A place for the holder is taken with an open Journey of it written beside, and none is let go
of by itself. -/
structure Opening.Names (opening : Opening) (holder : ℕ) : Prop where
  named : (∃ queue, (queue, holder) ∈ taken opening.places) →
    ∃ record ∈ opening.journeys, record.keeps holder
  leaves : ∀ queue, (queue, holder) ∉ opening.leaves

/-- What an operation's Journeys may do to a holder over what the Journeys before say and the
queues it took a place in: they keep it steady, and none keeps it open as its origin and as its
Send Port Group delivery both. -/
structure Opening.Steady (opening : Opening) (book : Books) (took : Set ℕ) (holder : ℕ) :
    Prop where
  steady : Book.Steady Origin.cap book.flags (taken opening.places) opening.moves took holder
  once : ∀ record ∈ opening.journeys,
    ¬∀ group, Origin.flag record group = (some holder, true)

/-! ## One operation -/

/-- No Journey keeps the holder open both ways. -/
def OneWay (book : Books) (holder : ℕ) : Prop :=
  ∀ journey, ¬∀ group, book.flags (group, journey) = some (some holder, true)

/-- What is said of a Journey once some are written is what the last of its records says. -/
theorem saying_oneWay (flags : Bool × ℕ → Option (Option ℕ × Bool)) (opening : Opening)
    {holder : ℕ} (hflags : ∀ journey, ¬∀ group, flags (group, journey) = some (some holder, true))
    (hrecords : ∀ record ∈ opening.journeys,
      ¬∀ group, Origin.flag record group = (some holder, true)) (journey : ℕ) :
    ¬∀ group, Book.saying flags opening.moves (group, journey) = some (some holder, true) := by
  obtain ⟨journeys, places, leaves⟩ := opening
  induction journeys generalizing flags with
  | nil => exact hflags journey
  | cons record journeys ih =>
      let written := Function.update
        (Function.update flags (false, record.journey) (some (Origin.flag record false)))
        (true, record.journey) (some (Origin.flag record true))
      have hsaying : Book.saying flags (Opening.moves ⟨record :: journeys, places, leaves⟩) =
          Book.saying written (Opening.moves ⟨journeys, places, leaves⟩) := rfl
      rw [hsaying]
      refine ih written (fun other => ?_) fun record' hmem => hrecords record' (by simp [hmem])
      by_cases hother : other = record.journey
      · subst hother
        have hnot := hrecords record (by simp)
        intro hall
        refine hnot fun group => ?_
        have hgroup := hall group
        cases group <;> simpa [written] using hgroup
      · intro hall
        refine hflags other fun group => ?_
        have hgroup := hall group
        simpa [written, hother] using hgroup

theorem Opening.named_moves {opening : Opening} {holder : ℕ} (h : opening.Names holder)
    (htaken : ∃ queue, (queue, holder) ∈ taken opening.places) :
    ∃ move ∈ opening.moves, move.2.1 = some holder := by
  obtain ⟨record, hrecord, group, hflag⟩ := h.named htaken
  refine ⟨((group, record.journey), Origin.flag record group), ?_, by rw [hflag]⟩
  refine List.mem_flatMap.mpr ⟨record, hrecord, ?_⟩
  cases group <;> simp

theorem Op.Opens.unique {op : Op} {b : Batch} {opening opening' : Opening}
    (h : op.Opens b opening) (h' : op.Opens b opening') : opening = opening' := by
  cases h <;> cases h' <;> rfl

theorem Ruling.took_nil (holder : ℕ) : Ruling.took [] holder = ∅ := by
  ext queue
  simp [took]

theorem Ruling.took_snoc_of_opens {rs : List Ruling} {r : Ruling} {opening : Opening}
    (h : r.Opens opening) (holder : ℕ) :
    Ruling.took (rs ++ [r]) holder =
      Ruling.took rs holder ∪ {queue | (queue, holder) ∈ taken opening.places} := by
  ext queue
  simp only [took, List.mem_append, List.mem_singleton, Set.mem_ofPred_eq, Set.mem_union]
  constructor
  · rintro ⟨s, hs | rfl, other, hother, hqueue⟩
    · exact .inl ⟨s, hs, other, hother, hqueue⟩
    · rw [Op.Opens.unique hother h] at hqueue
      exact .inr hqueue
  · rintro (⟨s, hs, other, hother, hqueue⟩ | hqueue)
    · exact ⟨s, .inl hs, other, hother, hqueue⟩
    · exact ⟨r, .inr rfl, opening, h, hqueue⟩

theorem Ruling.took_snoc_of_none {rs : List Ruling} {r : Ruling}
    (h : ∀ opening, ¬r.Opens opening) (holder : ℕ) :
    Ruling.took (rs ++ [r]) holder = Ruling.took rs holder := by
  ext queue
  simp only [took, List.mem_append, List.mem_singleton, Set.mem_ofPred_eq]
  constructor
  · rintro ⟨s, hs | rfl, other, hother, hqueue⟩
    · exact ⟨s, hs, other, hother, hqueue⟩
    · exact absurd hother (h other)
  · rintro ⟨s, hs, rest⟩
    exact ⟨s, .inl hs, rest⟩

/-- What is kept of a holder in a view, once some operations came out. -/
structure HoldsOpen (v : View) (rs : List Ruling) (holder : ℕ) : Prop where
  queued : v.Queued
  stands : v.book.Stands (Ruling.took rs holder) holder
  oneWay : OneWay v.book holder

/-- An operation that came out keeps a holder as it says, where it asks for no more than it may. -/
theorem Ruling.Holds.stands {r : Ruling} {rs : List Ruling} {holder : ℕ} (h : r.Holds digest)
    (hproper : r.before.Proper) (hraw : ¬r.op.raw) (hstands : HoldsOpen r.before.view rs holder)
    (hnames : ∀ opening, r.Opens opening → opening.Names holder)
    (hsteady : ∀ opening, r.Opens opening →
      opening.Steady r.before.view.book (Ruling.took rs holder) holder) :
    HoldsOpen r.stage.view (rs ++ [r]) holder := by
  have horder : r.before.staged.InOrder :=
    ⟨hproper, by rw [Batch.view_staged]; exact hstands.queued⟩
  have hqueued := (Op.decide_ordering h.made r.moment _ _ _ h.ran horder).inOrder.queued
  rcases Op.decide_books h.made hraw horder h.ran with ⟨opening, hopens, hbook⟩ | ⟨hnone, hbook⟩
  · have hopens' : r.Opens opening := hopens
    have hsteady' := hsteady opening hopens'
    have hnames' := hnames opening hopens'
    rw [Batch.view_staged] at hbook
    refine ⟨hqueued, ?_, ?_⟩
    · rw [hbook, took_snoc_of_opens hopens']
      exact hstands.stands.transact hsteady'.steady (Opening.named_moves hnames') hnames'.leaves
    · rw [hbook]
      intro journey
      have hflags : (opening.books r.before.view.book).flags =
          Book.saying r.before.view.book.flags opening.moves :=
        Book.write_flags Origin.cap _ _ _
      rw [hflags]
      exact saying_oneWay _ opening hstands.oneWay hsteady'.once journey
  · rw [Batch.view_staged] at hbook
    refine ⟨hqueued, ?_, by rw [hbook]; exact hstands.oneWay⟩
    rw [hbook, took_snoc_of_none hnone]
    exact hstands.stands

/-! ## As the store has it -/

section Store

variable {s : Store} {rs : List Ruling} {holder : ℕ}

theorem Store.book_flags (s : Store) (group : Bool) (journey : ℕ) :
    s.view.book.flags (group, journey) =
      match s.records (.journey, .id journey) with
      | some (.journey record) => some (Origin.flag record group)
      | _ => none := by
  have hview : s.view (.journey, .id journey) =
      (s.records (.journey, .id journey)).map Content.bare := rfl
  simp only [View.book, hview]
  cases s.records (.journey, .id journey) with
  | none => rfl
  | some content =>
      cases content with
      | journey record => cases group <;> rfl
      | _ => rfl

theorem Store.mem_keeping {journey : ℕ} : journey ∈ s.keeping holder ↔
    ∃ group, s.view.book.flags (group, journey) = some (some holder, true) := by
  simp only [Store.book_flags]
  constructor
  · rintro ⟨record, hrecord, group, hflag⟩
    exact ⟨group, by simp [hrecord, hflag]⟩
  · rintro ⟨group, hflag⟩
    split at hflag
    · next record hrecord => exact ⟨record, hrecord, group, Option.some.inj hflag⟩
    · cases hflag

theorem Store.openCount_book (s : Store) (holder : ℕ) :
    s.openCount holder = s.view.book.counted holder := by
  have hview : s.view (.origin, .id holder) =
      (s.records (.origin, .id holder)).map Content.bare := rfl
  simp only [Store.openCount, Book.counted, View.book, hview]
  cases s.records (.origin, .id holder) with
  | none => rfl
  | some content => cases content <;> rfl

/-- What is kept of a holder in a store's view, read from the store. -/
theorem HoldsOpen.heldOpen (h : HoldsOpen s.view rs holder) :
    HeldOpen s (Ruling.took rs holder) holder := by
  let opens := Book.opens s.view.book.flags holder
  have hkeeping : s.keeping holder = Prod.snd '' opens := by
    ext journey
    rw [Store.mem_keeping]
    constructor
    · rintro ⟨group, hflag⟩
      exact ⟨(group, journey), hflag, rfl⟩
    · rintro ⟨⟨group, _⟩, hflag, rfl⟩
      exact ⟨group, hflag⟩
  have hinj : Set.InjOn Prod.snd opens := by
    rintro ⟨group, journey⟩ hflag ⟨group', _⟩ hflag' (rfl : journey = _)
    by_contra hne
    refine h.oneWay journey fun other => ?_
    have hother : other = group ∨ other = group' := by
      cases other <;> cases group <;> cases group' <;> simp_all
    rcases hother with rfl | rfl
    · exact hflag
    · exact hflag'
  have hnonempty : (s.keeping holder).Nonempty ↔ opens ≠ ∅ := by
    rw [hkeeping, Set.image_nonempty, Set.nonempty_iff_ne_empty]
  refine ⟨?_, ?_, fun queue hqueue => ?_, fun queue hqueue => ?_⟩
  · rw [hkeeping]
    exact h.stands.keeps.finite.image _
  · rw [hkeeping, hinj.ncard_image, Store.openCount_book]
    exact h.stands.keeps.count
  · rw [hnonempty]
    have hheld := h.stands.held queue
    constructor
    · exact fun hplace => (hheld.mp hplace).1
    · exact fun hopen => hheld.mpr ⟨hopen, hqueue⟩
  · exact ((h.stands.held queue).mp hqueue).2

end Store

/-! ## Over a run -/

/-- A run whose operations count the Journeys they write, and take a holder's places with an open
Journey of it and let none go by themselves. -/
structure Writer.Counts (digest : Publication → Bytes) (steps : List Step) (holder : ℕ) : Prop where
  made : ∀ s ∈ steps, s.Made
  counted : ∀ r ∈ fresh.ruled digest steps, ¬r.op.raw
  names : ∀ r ∈ fresh.ruled digest steps, ∀ opening, r.Opens opening → opening.Names holder

/-- In every run whose operations keep a holder steady, its places are held while a Journey keeps
it open, and its count is of these. -/
theorem held_while_open {steps : List Step} {holder : ℕ}
    (hcounts : Writer.Counts digest steps holder)
    (hsteady : ∀ before r after, Writer.fresh.ruled digest steps = before ++ r :: after →
      ∀ opening, r.Opens opening →
        opening.Steady r.before.view.book (Ruling.took before holder) holder) :
    HeldOpen (Writer.fresh.run digest steps).store
      (Ruling.took (Writer.fresh.ruled digest steps) holder) holder := by
  have hproper : Writer.fresh.store.Proper := Store.empty_proper
  have hempty : HoldsOpen Writer.fresh.store.view [] holder := by
    have hplace : ∀ q j, Writer.fresh.store.view.placeOf q j = none := fun q j => rfl
    have htook : Ruling.took [] holder = ∅ := Ruling.took_nil holder
    refine ⟨(Store.empty_sound ∅).queued, ?_, fun journey hall => ?_⟩
    · rw [htook]
      exact .of_nothing (fun _ => rfl) rfl fun q hq => hq (hplace q holder)
    · have hnone : (none : Option (Option ℕ × Bool)) = some (some holder, true) := hall true
      cases hnone
  have hrun : HoldsOpen (Writer.fresh.run digest steps).store.view
      (Writer.fresh.ruled digest steps) holder := by
    refine @Writer.run_keeps digest (fun rs v => HoldsOpen v rs holder) Writer.fresh steps []
      hcounts.made hproper hempty fun before r after hsplit hr hbefore hstands => ?_
    have hmem : r ∈ Writer.fresh.ruled digest steps := by simp [hsplit]
    exact hr.stands hbefore (hcounts.counted r hmem) hstands (hcounts.names r hmem)
      (hsteady before r after hsplit)
  exact hrun.heldOpen

/-! A Stream's one Journey is published and handed on to the next one born from it. -/

def bornFromOne (journey : ℕ) (isOpen : Bool) : JourneyRecord :=
  { journey, facts := { origin := some 1, isOpen } }

def streamPublished : Publication where
  message := { message := 1 }
  journeys := [bornFromOne 2 true]
  held := [{ queue := 5, journey := 1 }]
  audit := { id := 9 }
  claims := [{ journey := 2, token := 7 }]
  leaseNanos := 100

def handedToNext : HandOn where
  claim := { journey := 2, token := 7, fence := 3 * 2 ^ 32 + 1 }
  result := bornFromOne 2 false
  next := [bornFromOne 3 true]

def publishedOnly : List Step := [.group ⟨0, 3, .asWritten, none⟩ [.publish streamPublished]]

def closedAsNextOpens : List Step :=
  publishedOnly ++ [.group ⟨1, 3, .asWritten, none⟩ [.handOn handedToNext]]

theorem streamPublished_names : streamPublished.opening.Names 1 :=
  ⟨fun _ => ⟨_, List.mem_singleton_self _, false, rfl⟩, fun _ hleft => hleft⟩

/-- The first Journey opens no way twice, over a store that says nothing. -/
theorem streamPublished_steady {book : Books} (hbook : ∀ k, book.flags k = none) :
    streamPublished.opening.Steady book ∅ 1 := by
  let first : (Bool × ℕ) × (Option ℕ × Bool) := ((false, 2), (some 1, true))
  let second : (Bool × ℕ) × (Option ℕ × Bool) := ((true, 2), (none, false))
  have hmoves : streamPublished.opening.moves = [first, second] := rfl
  have hends : Book.opens (Book.saying book.flags [first, second]) 1 ≠ ∅ := by
    refine Set.nonempty_iff_ne_empty.mp ⟨(false, 2), ?_⟩
    simp [Book.mem_opens, Book.saying, first, second]
  refine ⟨?_, fun record hrecord hall => ?_⟩
  · rw [hmoves]
    refine ⟨fun pre k flag post hsplit hk => ?_, fun pre hpre => ?_, fun _ _ _ _ q hq => ?_,
      fun _ => hends⟩
    · rcases pre with _ | ⟨a, _ | ⟨b, _ | ⟨c, pre⟩⟩⟩
      · simp [Book.mem_opens, Book.saying, hbook] at hk
      · obtain ⟨rfl, hsecond⟩ := List.cons.inj hsplit
        obtain ⟨hsecond, -⟩ := List.cons.inj hsecond
        obtain ⟨rfl, -⟩ := Prod.mk.inj hsecond
        simp [Book.mem_opens, Book.saying, first, hbook] at hk
      · simp at hsplit
      · simp at hsplit
    · have hsub : Book.opens (Book.saying book.flags pre) 1 ⊆ {(false, 2)} := by
        intro k hk
        have hcases : pre = [] ∨ pre = [first] ∨ pre = [first, second] := by
          rcases List.prefix_cons_iff.mp hpre with rfl | ⟨rest, rfl, hrest⟩
          · exact .inl rfl
          · rcases List.prefix_cons_iff.mp hrest with rfl | ⟨last, rfl, hlast⟩
            · exact .inr (.inl rfl)
            · rw [List.prefix_nil.mp hlast]
              exact .inr (.inr rfl)
        rcases hcases with rfl | rfl | rfl <;>
          simp only [Book.mem_opens, Book.saying, List.foldl_cons, List.foldl_nil, first, second,
            hbook, Function.update_apply] at hk <;> grind
      have hncard := Set.ncard_le_ncard hsub (Set.finite_singleton _)
      rw [Set.ncard_singleton] at hncard
      have hcap : 1 < Origin.cap := by decide
      exact Nat.lt_of_le_of_lt hncard hcap
    · exact absurd hq (Set.notMem_empty q)
  · rw [List.mem_singleton.mp hrecord] at hall
    have hgroup : ((none, false) : Option ℕ × Bool) = (some 1, true) := hall true
    cases hgroup

/-- A run of one operation has that one alone come out, over the store it began with. -/
theorem ruled_one {w : Writer} {m : Moment} {op : Op} {before after : List Ruling} {r : Ruling}
    (h : w.ruled digest [.group m [op]] = before ++ r :: after) :
    before = [] ∧ r.op = op ∧ r.before = Batch.over' w.store w.next := by
  have hone : ∀ rs : List Ruling, rs = [] ∨ (∃ done stage,
      rs = [⟨m, op, done, Batch.over' w.store w.next, stage⟩]) → rs = before ++ r :: after →
      before = [] ∧ r.op = op ∧ r.before = Batch.over' w.store w.next := by
    rintro rs (rfl | ⟨done, stage, rfl⟩) hsplit
    · simp at hsplit
    · rcases List.append_eq_cons_iff.mp hsplit.symm with ⟨rfl, hr⟩ | ⟨rest, -, hrest⟩
      · obtain ⟨rfl, -⟩ := List.cons.inj hr
        exact ⟨rfl, rfl, rfl⟩
      · simp at hrest
  refine hone _ ?_ h
  simp only [Writer.ruled, Writer.rulings, List.append_nil]
  cases w.laid m (decideEach digest m (Batch.over' w.store w.next) [op]).2 with
  | error e => exact .inl rfl
  | ok store =>
      simp only [rulings]
      cases (op.decide digest m).run (Batch.over' w.store w.next).staged with
      | error e => exact .inl rfl
      | ok p => exact .inr ⟨p.1, p.2, rfl⟩

theorem held_while_open_published :
    HeldOpen (Writer.fresh.run (fun _ => []) publishedOnly).store
      (Ruling.took (Writer.fresh.ruled (fun _ => []) publishedOnly) 1) 1 := by
  have hone : ∀ before r after,
      Writer.fresh.ruled (fun _ => []) publishedOnly = before ++ r :: after →
      before = [] ∧ r.op = .publish streamPublished ∧ ∀ k, r.before.view.book.flags k = none := by
    intro before r after hsplit
    obtain ⟨rfl, hop, hbefore⟩ := ruled_one hsplit
    exact ⟨rfl, hop, fun k => by rw [hbefore]; rfl⟩
  have hopening : ∀ r : Ruling, r.op = .publish streamPublished → ∀ opening, r.Opens opening →
      opening = streamPublished.opening := by
    intro r hop opening hopens
    unfold Ruling.Opens at hopens
    rw [hop] at hopens
    cases hopens
    rfl
  have hmem : ∀ r ∈ Writer.fresh.ruled (fun _ => []) publishedOnly,
      r.op = .publish streamPublished := fun r hr => by
    obtain ⟨before, after, hsplit⟩ := List.append_of_mem hr
    exact (hone before r after hsplit).2.1
  refine held_while_open ⟨by simp [publishedOnly, Step.Made, Op.Made], fun r hr => ?_,
    fun r hr opening hopens => ?_⟩ fun before r after hsplit opening hopens => ?_
  · simp [hmem r hr, Op.raw]
  · rw [hopening r (hmem r hr) opening hopens]
    exact streamPublished_names
  · obtain ⟨rfl, hop, hflags⟩ := hone before r after hsplit
    have htook : Ruling.took [] 1 = ∅ := Ruling.took_nil 1
    rw [hopening r hop opening hopens, htook]
    exact streamPublished_steady hflags

/-- A Journey's record that holds the first Instance. -/
def holdsFirst : Content → Bool
  | .journey record => decide (Origin.flag record false = (some 1, true))
  | _ => false

/-- Its place is let go of as its Journey closes, though the next one of it is open. -/
theorem closed_as_next_opens :
    Writer.Counts (fun _ => []) closedAsNextOpens 1 ∧
      ¬HeldOpen (Writer.fresh.run (fun _ => []) closedAsNextOpens).store
        (Ruling.took (Writer.fresh.ruled (fun _ => []) closedAsNextOpens) 1) 1 := by
  have hops : (Writer.fresh.ruled (fun _ => []) closedAsNextOpens).map Ruling.op =
      [.publish streamPublished, .handOn handedToNext] := by decide +kernel
  have hop : ∀ r ∈ Writer.fresh.ruled (fun _ => []) closedAsNextOpens,
      r.op = .publish streamPublished ∨ r.op = .handOn handedToNext := fun r hr => by
    have hmem : r.op ∈ (Writer.fresh.ruled (fun _ => []) closedAsNextOpens).map Ruling.op :=
      List.mem_map_of_mem hr
    rw [hops] at hmem
    simpa using hmem
  constructor
  · refine ⟨by simp [closedAsNextOpens, publishedOnly, Step.Made, Op.Made], fun r hr => ?_,
      fun r hr opening hopens => ?_⟩
    · rcases hop r hr with h | h <;> simp [h, Op.raw]
    · unfold Ruling.Opens at hopens
      rcases hop r hr with h | h
      · rw [h] at hopens
        cases hopens
        exact streamPublished_names
      · rw [h] at hopens
        cases hopens
        refine ⟨fun htaken => ?_, fun queue hleft => ?_⟩
        · obtain ⟨queue, hqueue⟩ := htaken
          cases hqueue
        · obtain ⟨-, hqueue⟩ := hleft
          cases hqueue
  · intro hheld
    have hany : ((Writer.fresh.ruled (fun _ => []) closedAsNextOpens).any fun r =>
        r.op = .publish streamPublished ∧
          r.before.staged.read (markerPlace 1) = .ok none) = true := by decide +kernel
    obtain ⟨r, hr, hfirst⟩ := List.any_eq_true.mp hany
    obtain ⟨hpublish, hmarker⟩ := of_decide_eq_true hfirst
    have hopens : r.Opens streamPublished.opening := by
      unfold Ruling.Opens
      rw [hpublish]
      exact .publish hmarker
    have htook : 5 ∈ Ruling.took (Writer.fresh.ruled (fun _ => []) closedAsNextOpens) 1 :=
      ⟨r, hr, _, hopens, List.mem_singleton_self _⟩
    have hkept : ((Writer.fresh.run (fun _ => []) closedAsNextOpens).store.records
        (.journey, .id 3)).any holdsFirst = true := by decide +kernel
    have hopen : ((Writer.fresh.run (fun _ => []) closedAsNextOpens).store.keeping 1).Nonempty := by
      obtain ⟨content, hcontent, hflag⟩ := (Option.any_eq_true _ _).mp hkept
      cases content with
      | journey record => exact ⟨3, record, hcontent, false, of_decide_eq_true hflag⟩
      | _ => cases hflag
    have hgone : (Writer.fresh.run (fun _ => []) closedAsNextOpens).store.view.placeOf 5 1 =
        none := by decide +kernel
    exact (hheld.held 5 htook).mpr hopen hgone

end XmipPersist
