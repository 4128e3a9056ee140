import Mathlib

/-! # Places held while anything is open

Things are written one after another, each naming a holder and saying whether it keeps it open. A
book keeps a count of the open ones for each holder and the places taken for it, moved by each thing
as it is written from what it said before; the last to close lets every place of its holder go.
-/

namespace XmipPersist

/-- What `κ` says last of each holder `η`, what is kept of each, and the places `θ` held. -/
structure Book (κ η θ : Type) where
  flags : κ → Option (Option η × Bool)
  kept : η → Option (ℕ × List θ)
  seats : Set (θ × η)

namespace Book

variable {κ η θ : Type} [DecidableEq κ] [DecidableEq η] [DecidableEq θ]

/-! ## What the book is moved by -/

/-- A counter of so many values, one more or one fewer, or as it is. -/
def counter (cap n : ℕ) : Option Bool → ℕ
  | some true => (n + 1) % cap
  | some false => n - 1
  | none => n

/-- The places `taken` has for `holder` that are not among them yet, after them. -/
def gathered (holder : η) (taken : List (θ × η)) (places : List θ) : List θ :=
  taken.foldl (fun places place =>
    if place.2 = holder ∧ place.1 ∉ places then places ++ [place.1] else places) places

/-- The things that keep a holder open. -/
def opens (flags : κ → Option (Option η × Bool)) (holder : η) : Set κ :=
  fun k => flags k = some (some holder, true)

/-- What is said once some things are written. -/
def saying (flags : κ → Option (Option η × Bool)) (moves : List (κ × (Option η × Bool))) :
    κ → Option (Option η × Bool) :=
  moves.foldl (fun flags move => Function.update flags move.1 (some move.2)) flags

section Steps

variable (cap : ℕ) (B : Book κ η θ)

def counted (holder : η) : ℕ := ((B.kept holder).map Prod.fst).getD 0

def places (holder : η) : List θ := ((B.kept holder).map Prod.snd).getD []

/-- One more or one fewer counted for a holder, and the places it takes kept with it; at none, all
of them let go. -/
def count (holder : η) (move : Option Bool) (taken : List (θ × η)) : Book κ η θ :=
  let n := counter cap (B.counted holder) move
  let places := gathered holder taken (B.places holder)
  if n = 0 then
    { B with
      kept := Function.update B.kept holder none
      seats := B.seats \ {place | place.2 = holder ∧ place.1 ∈ places} }
  else { B with kept := Function.update B.kept holder (some (n, places)) }

/-- What one thing says counted, `was` being whether it kept its holder open before. -/
def countFor (was : Bool) (flag : Option η × Bool) (taken : List (θ × η)) : Book κ η θ :=
  match flag with
  | (none, _) => B
  | (some holder, isOpen) =>
      if was ≠ isOpen ∨ (taken.any fun place => place.2 = holder) = true then
        B.count cap holder (if was ≠ isOpen then some isOpen else none) taken
      else B

/-- One thing written. -/
def move (taken : List (θ × η)) (k : κ) (flag : Option η × Bool) : Book κ η θ :=
  { B.countFor cap (decide (B.flags k = some (flag.1, true))) flag taken with
    flags := Function.update B.flags k (some flag) }

/-- Some things written, one after another. -/
def write (taken : List (θ × η)) (moves : List (κ × (Option η × Bool))) : Book κ η θ :=
  moves.foldl (fun B m => B.move cap taken m.1 m.2) B

/-- Some places let go of. -/
def leave (left : Set (θ × η)) : Book κ η θ := { B with seats := B.seats \ left }

/-- Some places taken. -/
def take (taken : List (θ × η)) : Book κ η θ :=
  { B with seats := B.seats ∪ {place | place ∈ taken} }

/-- Things written together, with the places let go of and then the ones taken. -/
def transact (moves : List (κ × (Option η × Bool))) (left : Set (θ × η)) (taken : List (θ × η)) :
    Book κ η θ :=
  ((B.write cap taken moves).leave left).take taken

end Steps

omit [DecidableEq κ] in
theorem count_flags (cap : ℕ) (B : Book κ η θ) (holder : η) (move : Option Bool)
    (taken : List (θ × η)) (flags : κ → Option (Option η × Bool)) :
    ({ B with flags } : Book κ η θ).count cap holder move taken =
      { B.count cap holder move taken with flags } := by
  by_cases hzero : counter cap (B.counted holder) move = 0
  · have hzero' : counter cap (({ B with flags } : Book κ η θ).counted holder) move = 0 := hzero
    simp only [count, hzero, hzero', if_true]
    rfl
  · have hzero' : counter cap (({ B with flags } : Book κ η θ).counted holder) move ≠ 0 := hzero
    simp only [count, hzero, hzero', if_false]
    rfl

omit [DecidableEq κ] in
/-- Counting reads nothing of what is said. -/
theorem countFor_flags (cap : ℕ) (B : Book κ η θ) (was : Bool) (flag : Option η × Bool)
    (taken : List (θ × η)) (flags : κ → Option (Option η × Bool)) :
    ({ B with flags } : Book κ η θ).countFor cap was flag taken =
      { B.countFor cap was flag taken with flags } := by
  obtain ⟨holder, isOpen⟩ := flag
  cases holder with
  | none => rfl
  | some holder =>
      simp only [countFor, count_flags]
      split <;> rfl

omit [DecidableEq κ] in
@[simp] theorem flags_countFor (cap : ℕ) (B : Book κ η θ) (was : Bool) (flag : Option η × Bool)
    (taken : List (θ × η)) : (B.countFor cap was flag taken).flags = B.flags := by
  have hbook : B.countFor cap was flag taken =
      { B.countFor cap was flag taken with flags := B.flags } :=
    countFor_flags cap B was flag taken B.flags
  rw [hbook]

/-! ## Places gathered -/

omit [DecidableEq κ] in
theorem mem_gathered {holder : η} {taken : List (θ × η)} {places : List θ} {q : θ} :
    q ∈ gathered holder taken places ↔ q ∈ places ∨ (q, holder) ∈ taken := by
  unfold gathered
  induction taken generalizing places with
  | nil => simp
  | cons place taken ih =>
      rw [List.foldl_cons, ih]
      obtain ⟨p, h⟩ := place
      by_cases hholder : h = holder
      · subst hholder
        by_cases hin : p ∈ places
        · rw [if_neg fun he => he.2 hin]
          have hsame : q = p → q ∈ places := fun he => he ▸ hin
          simp only [List.mem_cons, Prod.mk.injEq, and_true]
          tauto
        · rw [if_pos ⟨rfl, hin⟩]
          simp only [List.mem_append, List.mem_cons, Prod.mk.injEq, and_true]
          tauto
      · rw [if_neg fun he => hholder he.1]
        have hne : (q, holder) ≠ (p, h) := fun he => hholder (Prod.mk.inj he).2.symm
        simp [hne]

/-! ## What keeps a holder open -/

section Opens

variable {flags : κ → Option (Option η × Bool)} {holder : η} {k : κ} {flag : Option η × Bool}

omit [DecidableEq κ] [DecidableEq η] in
theorem mem_opens : k ∈ opens flags holder ↔ flags k = some (some holder, true) := Iff.rfl

omit [DecidableEq η] in
theorem opens_update_open : opens (Function.update flags k (some (some holder, true))) holder =
    insert k (opens flags holder) := by
  ext k'
  rw [mem_opens, Set.mem_insert_iff, mem_opens]
  by_cases hk : k' = k
  · simp [hk]
  · simp [hk]

omit [DecidableEq η] in
theorem opens_update_of_ne (h : flag ≠ (some holder, true)) :
    opens (Function.update flags k (some flag)) holder = opens flags holder \ {k} := by
  ext k'
  rw [mem_opens, Set.mem_sdiff, Set.mem_singleton_iff, mem_opens]
  by_cases hk : k' = k
  · simp [hk, h]
  · simp [hk]

omit [DecidableEq η] in
theorem saying_snoc (moves : List (κ × (Option η × Bool))) (k : κ) (flag : Option η × Bool) :
    saying flags (moves ++ [(k, flag)]) = Function.update (saying flags moves) k (some flag) :=
  List.foldl_append

omit [DecidableEq η] in
/-- One more, one fewer or as many are open, as the counter has it. -/
theorem counter_opens {cap : ℕ} {was isOpen : Bool} (hwas : was = true ↔ k ∈ opens flags holder)
    (hfinite : (opens flags holder).Finite)
    (hfits : (opens (Function.update flags k (some (some holder, isOpen))) holder).ncard < cap) :
    counter cap (opens flags holder).ncard (if was ≠ isOpen then some isOpen else none) =
      (opens (Function.update flags k (some (some holder, isOpen))) holder).ncard := by
  cases isOpen with
  | true =>
      rw [opens_update_open] at hfits ⊢
      cases was with
      | true => simp [Set.insert_eq_of_mem (hwas.mp rfl), counter]
      | false =>
          have hk : k ∉ opens flags holder := fun hk => by simpa using hwas.mpr hk
          rw [Set.ncard_insert_of_notMem hk hfinite] at hfits ⊢
          simp [counter, Nat.mod_eq_of_lt hfits]
  | false =>
      have hne : ((some holder, false) : Option η × Bool) ≠ (some holder, true) := by simp
      rw [opens_update_of_ne hne]
      cases was with
      | true =>
          rw [Set.ncard_sdiff_singleton_of_mem (hwas.mp rfl)]
          simp [counter]
      | false =>
          have hk : k ∉ opens flags holder := fun hk => by simpa using hwas.mpr hk
          rw [Set.sdiff_singleton_eq_self hk]
          simp [counter]

end Opens

/-! ## A thing that names the holder, and one that does not -/

section Move

variable {cap : ℕ} {B : Book κ η θ} {holder : η} {flag : Option η × Bool}

omit [DecidableEq κ] in
theorem count_other {other : η} (hne : holder ≠ other) (move : Option Bool)
    (taken : List (θ × η)) :
    (B.count cap other move taken).kept holder = B.kept holder ∧
      ∀ q, (q, holder) ∈ (B.count cap other move taken).seats ↔ (q, holder) ∈ B.seats := by
  unfold count
  simp only
  split
  · refine ⟨Function.update_of_ne hne _ _, fun q => ?_⟩
    simp [hne]
  · exact ⟨Function.update_of_ne hne _ _, fun _ => Iff.rfl⟩

omit [DecidableEq κ] in
/-- A thing counted for another holder, or for none. -/
theorem countFor_other (h : flag.1 ≠ some holder) (cap : ℕ) (B : Book κ η θ) (was : Bool)
    (taken : List (θ × η)) :
    (B.countFor cap was flag taken).kept holder = B.kept holder ∧
      ∀ q, (q, holder) ∈ (B.countFor cap was flag taken).seats ↔ (q, holder) ∈ B.seats := by
  obtain ⟨other, isOpen⟩ := flag
  cases other with
  | none => exact ⟨rfl, fun _ => Iff.rfl⟩
  | some other =>
      have hne : holder ≠ other := fun he => h (congrArg some he.symm)
      simp only [countFor]
      by_cases hcounts : was ≠ isOpen ∨ (taken.any fun place => place.2 = other) = true
      · rw [if_pos hcounts]
        exact count_other hne _ _
      · rw [if_neg hcounts]
        exact ⟨rfl, fun _ => Iff.rfl⟩

omit [DecidableEq κ] in
/-- The last to close lets every place go. -/
theorem count_closed {move : Option Bool} (h : counter cap (B.counted holder) move = 0)
    (taken : List (θ × η)) :
    (B.count cap holder move taken).kept holder = none ∧
      ∀ q, (q, holder) ∈ (B.count cap holder move taken).seats ↔
        (q, holder) ∈ B.seats ∧ q ∉ B.places holder ∧ (q, holder) ∉ taken := by
  unfold count
  simp only [h, if_true]
  refine ⟨Function.update_self _ _ _, fun q => ?_⟩
  simp [mem_gathered]

omit [DecidableEq κ] in
theorem count_open {move : Option Bool} (h : counter cap (B.counted holder) move ≠ 0)
    (taken : List (θ × η)) :
    (B.count cap holder move taken).counted holder = counter cap (B.counted holder) move ∧
      (∀ q, q ∈ (B.count cap holder move taken).places holder ↔
        q ∈ B.places holder ∨ (q, holder) ∈ taken) ∧
      (B.count cap holder move taken).seats = B.seats := by
  unfold count
  simp only [h, if_false]
  refine ⟨?_, fun q => ?_, trivial⟩
  · simp [counted]
  · simp [places, mem_gathered]

end Move

/-! ## Some things written -/

/-- A holder's count is of what keeps it open, and its places are held while there is any. -/
structure Keeps (B : Book κ η θ) (holder : η) : Prop where
  finite : (opens B.flags holder).Finite
  count : B.counted holder = (opens B.flags holder).ncard
  closed : opens B.flags holder = ∅ → B.kept holder = none
  seats : ∀ q, (q, holder) ∈ B.seats ↔ q ∈ B.places holder

/-- What is asked of the things written together, `took` being the places the holder took before
them: what kept the holder open names it still, no counter runs over, a holder that none keeps open
amid them and that is open at their end takes again what it took, and one that takes a place is
open at their end. -/
structure Steady (cap : ℕ) (flags : κ → Option (Option η × Bool)) (taken : List (θ × η))
    (moves : List (κ × (Option η × Bool))) (took : Set θ) (holder : η) : Prop where
  same : ∀ pre k flag post, moves = pre ++ (k, flag) :: post →
    k ∈ opens (saying flags pre) holder → flag.1 = some holder
  fits : ∀ pre, pre <+: moves → (opens (saying flags pre) holder).ncard < cap
  again : ∀ pre, pre <+: moves → opens (saying flags pre) holder = ∅ →
    opens (saying flags moves) holder ≠ ∅ → ∀ q ∈ took, (q, holder) ∈ taken
  ends : (∃ q, (q, holder) ∈ taken) → opens (saying flags moves) holder ≠ ∅

/-- Amid a write, once some of its things are written: the places taken are counted already and
not held yet, and the ones held before are held as long as the holder is open. -/
structure Amid (start : Book κ η θ) (taken : List (θ × η)) (done : List (κ × (Option η × Bool)))
    (B : Book κ η θ) (holder : η) : Prop where
  flags : B.flags = saying start.flags done
  finite : (opens B.flags holder).Finite
  count : B.counted holder = (opens B.flags holder).ncard
  closed : opens B.flags holder = ∅ → B.kept holder = none
  within : ∀ q, (q, holder) ∈ B.seats → q ∈ B.places holder
  only : ∀ q ∈ B.places holder, (q, holder) ∈ B.seats ∨ (q, holder) ∈ taken
  less : ∀ q, (q, holder) ∈ B.seats → (q, holder) ∈ start.seats
  kept : (∀ pre, pre <+: done → opens (saying start.flags pre) holder ≠ ∅) →
    ∀ q, (q, holder) ∈ start.seats → (q, holder) ∈ B.seats
  gathered : (∃ m ∈ done, m.2.1 = some holder) → opens B.flags holder ≠ ∅ →
    ∀ q, (q, holder) ∈ taken → q ∈ B.places holder

section Write

variable {cap : ℕ} {start B : Book κ η θ} {holder : η} {taken : List (θ × η)}
  {done : List (κ × (Option η × Bool))} {k : κ} {flag : Option η × Bool}

omit [DecidableEq η] [DecidableEq θ] in
theorem Keeps.amid (h : start.Keeps holder) (taken : List (θ × η)) :
    Amid start taken [] start holder where
  flags := rfl
  finite := h.finite
  count := h.count
  closed := h.closed
  within q hq := (h.seats q).mp hq
  only q hq := .inl ((h.seats q).mpr hq)
  less _ hq := hq
  kept _ _ hq := hq
  gathered := by simp

omit [DecidableEq κ] [DecidableEq η] [DecidableEq θ] in
theorem places_of_kept {B B' : Book κ η θ} (h : B'.kept holder = B.kept holder) :
    B'.counted holder = B.counted holder ∧ B'.places holder = B.places holder := by
  rw [counted, counted, places, places, h]
  exact ⟨rfl, rfl⟩

/-- One more thing written, that does not name the holder. -/
theorem Amid.other (h : Amid start taken done B holder) (hflag : flag.1 ≠ some holder)
    (hsame : k ∉ opens B.flags holder) :
    Amid start taken (done ++ [(k, flag)]) (B.move cap taken k flag) holder := by
  obtain ⟨hkept, hseats⟩ :=
    countFor_other hflag cap B (decide (B.flags k = some (flag.1, true))) taken
  have hflags : (B.move cap taken k flag).flags = Function.update B.flags k (some flag) := rfl
  have hopens : opens (B.move cap taken k flag).flags holder = opens B.flags holder := by
    have hne : flag ≠ (some holder, true) := fun he => hflag (by rw [he])
    rw [hflags, opens_update_of_ne hne, Set.sdiff_singleton_eq_self hsame]
  have hkept' : (B.move cap taken k flag).kept holder = B.kept holder := hkept
  obtain ⟨hcounted, hplaces⟩ := places_of_kept hkept'
  refine ⟨by rw [hflags, saying_snoc, h.flags], by rw [hopens]; exact h.finite,
    by rw [hcounted, hopens]; exact h.count, fun hnone => ?_, fun q hq => ?_, fun q hq => ?_,
    fun q hq => h.less q ((hseats q).mp hq), fun hall q hq => ?_, fun hnamed hopen q hq => ?_⟩
  · rw [hkept']
    exact h.closed (hopens ▸ hnone)
  · rw [hplaces]
    exact h.within q ((hseats q).mp hq)
  · rw [hplaces] at hq
    exact (h.only q hq).imp (hseats q).mpr id
  · have hbefore := h.kept (fun pre hpre => hall pre (hpre.trans (List.prefix_append _ _))) q hq
    exact (hseats q).mpr hbefore
  · rw [hplaces]
    rw [hopens] at hopen
    refine h.gathered ?_ hopen q hq
    obtain ⟨m, hm, hname⟩ := hnamed
    rcases List.mem_append.mp hm with hm | hm
    · exact ⟨m, hm, hname⟩
    · rw [List.mem_singleton.mp hm] at hname
      exact absurd hname hflag

/-- One more thing written, that names the holder. -/
theorem Amid.own {isOpen : Bool} (h : Amid start taken done B holder)
    (hfits : (opens (Function.update B.flags k (some (some holder, isOpen))) holder).ncard < cap) :
    Amid start taken (done ++ [(k, (some holder, isOpen))])
      (B.move cap taken k (some holder, isOpen)) holder := by
  let was := decide (B.flags k = some (some holder, true))
  have hwas : was = true ↔ k ∈ opens B.flags holder := decide_eq_true_iff
  have hcounter := counter_opens hwas h.finite hfits
  have hflags : (B.move cap taken k (some holder, isOpen)).flags =
      Function.update B.flags k (some (some holder, isOpen)) := rfl
  have hsaying : (B.move cap taken k (some holder, isOpen)).flags =
      saying start.flags (done ++ [(k, (some holder, isOpen))]) := by
    rw [hflags, saying_snoc, h.flags]
  have hfinite : (opens (B.move cap taken k (some holder, isOpen)).flags holder).Finite := by
    rw [hflags]
    cases isOpen with
    | true =>
        rw [opens_update_open]
        exact h.finite.insert k
    | false =>
        rw [opens_update_of_ne (by simp)]
        exact h.finite.sdiff
  rw [← hflags, ← h.count] at hcounter
  have hbefore : (∀ pre, pre <+: done ++ [(k, (some holder, isOpen))] →
      opens (saying start.flags pre) holder ≠ ∅) →
      ∀ q, (q, holder) ∈ start.seats → (q, holder) ∈ B.seats := fun hall =>
    h.kept fun pre hpre => hall pre (hpre.trans (List.prefix_append _ _))
  by_cases hcounts : was ≠ isOpen ∨ (taken.any fun place => place.2 = holder) = true
  · have hbook : (B.move cap taken k (some holder, isOpen)).kept =
          (B.count cap holder (if was ≠ isOpen then some isOpen else none) taken).kept ∧
        (B.move cap taken k (some holder, isOpen)).seats =
          (B.count cap holder (if was ≠ isOpen then some isOpen else none) taken).seats := by
      simp only [move, countFor]
      rw [if_pos hcounts]
      exact ⟨rfl, rfl⟩
    by_cases hzero :
        counter cap (B.counted holder) (if was ≠ isOpen then some isOpen else none) = 0
    · obtain ⟨hkept, hseats⟩ := count_closed hzero taken
      have hnone : opens (B.move cap taken k (some holder, isOpen)).flags holder = ∅ := by
        rw [← Set.ncard_eq_zero hfinite, ← hcounter, hzero]
      have hkept' : (B.move cap taken k (some holder, isOpen)).kept holder = none := by
        rw [hbook.1, hkept]
      have hempty : ∀ q, (q, holder) ∉ (B.move cap taken k (some holder, isOpen)).seats := by
        intro q hq
        rw [hbook.2] at hq
        have hleft := (hseats q).mp hq
        exact hleft.2.1 (h.within q hleft.1)
      refine ⟨hsaying, hfinite, ?_, fun _ => hkept', fun q hq => absurd hq (hempty q), fun q hq => ?_,
        fun q hq => absurd hq (hempty q), fun hall => ?_, fun _ hopen => absurd hnone hopen⟩
      · rw [hnone, Set.ncard_empty, counted, hkept']
        rfl
      · rw [places, hkept'] at hq
        cases hq
      · have hlast := hall _ (List.prefix_refl _)
        rw [← hsaying] at hlast
        exact absurd hnone hlast
    · obtain ⟨hcounted, hplaces, hseats⟩ := count_open hzero taken
      have hcounted' : (B.move cap taken k (some holder, isOpen)).counted holder =
          counter cap (B.counted holder) (if was ≠ isOpen then some isOpen else none) := by
        rw [← hcounted, counted, counted, hbook.1]
      have hplaces' : ∀ q, q ∈ (B.move cap taken k (some holder, isOpen)).places holder ↔
          q ∈ B.places holder ∨ (q, holder) ∈ taken := fun q => by
        rw [← hplaces, places, places, hbook.1]
      have hseats' : (B.move cap taken k (some holder, isOpen)).seats = B.seats :=
        hbook.2.trans hseats
      refine ⟨hsaying, hfinite, hcounted'.trans hcounter, fun hnone => ?_, fun q hq => ?_,
        fun q hq => ?_, fun q hq => ?_, fun hall q hq => ?_, fun _ _ q hq => ?_⟩
      · rw [hcounter, hnone, Set.ncard_empty] at hzero
        exact absurd rfl hzero
      · rw [hseats'] at hq
        exact (hplaces' q).mpr (.inl (h.within q hq))
      · rw [hseats']
        rcases (hplaces' q).mp hq with hq | hq
        · exact h.only q hq
        · exact .inr hq
      · exact h.less q (hseats' ▸ hq)
      · rw [hseats']
        exact hbefore hall q hq
      · exact (hplaces' q).mpr (.inr hq)
  · have hbook : (B.move cap taken k (some holder, isOpen)).kept = B.kept ∧
        (B.move cap taken k (some holder, isOpen)).seats = B.seats := by
      simp only [move, countFor]
      rw [if_neg hcounts]
      exact ⟨rfl, rfl⟩
    have hsame : was = isOpen := by
      by_contra hne
      exact hcounts (.inl hne)
    obtain ⟨hcounted, hplaces⟩ := places_of_kept (congrFun hbook.1 holder)
    have hncard : B.counted holder =
        (opens (B.move cap taken k (some holder, isOpen)).flags holder).ncard := by
      rw [← hcounter, if_neg (not_not.mpr hsame)]
      rfl
    refine ⟨hsaying, hfinite, hcounted.trans hncard, fun hnone => ?_, fun q hq => ?_,
      fun q hq => ?_, fun q hq => ?_, fun hall q hq => ?_, fun _ _ q hq => ?_⟩
    · have hzero : (opens B.flags holder).ncard = 0 := by
        rw [← h.count, hncard, hnone, Set.ncard_empty]
      rw [hbook.1]
      exact h.closed ((Set.ncard_eq_zero h.finite).mp hzero)
    · rw [hplaces]
      exact h.within q (hbook.2 ▸ hq)
    · rw [hbook.2]
      exact h.only q (hplaces ▸ hq)
    · exact h.less q (hbook.2 ▸ hq)
    · rw [hbook.2]
      exact hbefore hall q hq
    · exact absurd (.inr (List.any_eq_true.mpr ⟨(q, holder), hq, by simp⟩)) hcounts

theorem write_flags (cap : ℕ) (B : Book κ η θ) (taken : List (θ × η))
    (moves : List (κ × (Option η × Bool))) :
    (B.write cap taken moves).flags = saying B.flags moves := by
  induction moves using List.reverseRecOn with
  | nil => rfl
  | append_singleton moves move ih =>
      obtain ⟨k, flag⟩ := move
      rw [saying_snoc, ← ih, write, List.foldl_append]
      rfl

/-- A book that keeps a holder, amid a write of things that ask for no more than they may. -/
theorem Keeps.write {moves : List (κ × (Option η × Bool))} {took : Set θ} (h : start.Keeps holder)
    (hsteady : Steady cap start.flags taken moves took holder) :
    Amid start taken moves (start.write cap taken moves) holder := by
  have hall : ∀ done, done <+: moves →
      Amid start taken done (start.write cap taken done) holder := by
    intro done
    induction done using List.reverseRecOn with
    | nil => exact fun _ => h.amid taken
    | append_singleton done move ih =>
        intro hdone
        have hamid := ih ((List.prefix_append _ _).trans hdone)
        obtain ⟨k, flag⟩ := move
        obtain ⟨post, hpost⟩ := hdone
        have hwrite : start.write cap taken (done ++ [(k, flag)]) =
            (start.write cap taken done).move cap taken k flag := by
          rw [Book.write, List.foldl_append]
          rfl
        rw [hwrite]
        by_cases hflag : flag.1 = some holder
        · obtain ⟨name, isOpen⟩ := flag
          obtain rfl : name = some holder := hflag
          refine hamid.own ?_
          rw [write_flags, ← saying_snoc]
          exact hsteady.fits _ ⟨post, hpost⟩
        · refine hamid.other hflag fun hk => hflag ?_
          refine hsteady.same done k flag post ?_ ?_
          · rw [← hpost, List.append_assoc]
            rfl
          · rw [← write_flags cap start taken]
            exact hk
  exact hall moves (List.prefix_refl _)

/-- A book that keeps a holder has its places held while it is open, of those it took. -/
structure Stands (B : Book κ η θ) (took : Set θ) (holder : η) : Prop where
  keeps : B.Keeps holder
  held : ∀ q, (q, holder) ∈ B.seats ↔ opens B.flags holder ≠ ∅ ∧ q ∈ took

omit [DecidableEq κ] [DecidableEq η] [DecidableEq θ] in
/-- A book of which nothing is said, kept or held. -/
theorem Stands.of_nothing (hflags : ∀ k, start.flags k = none) (hkept : start.kept holder = none)
    (hseats : ∀ q, (q, holder) ∉ start.seats) : start.Stands ∅ holder := by
  have hopens : opens start.flags holder = ∅ := by
    ext k
    simp [mem_opens, hflags]
  refine ⟨⟨?_, ?_, fun _ => hkept, fun q => ?_⟩, fun q => ?_⟩
  · rw [hopens]
    exact Set.finite_empty
  · rw [hopens, Set.ncard_empty, counted, hkept]
    rfl
  · have hplaces : start.places holder = [] := by
      rw [places, hkept]
      rfl
    simp [hseats, hplaces]
  · simp [hseats]

/-- Things written together that ask for no more than they may, what takes a place for the holder
naming it among them, keep it: its places are held while it is open, of all it ever took. -/
theorem Stands.transact {moves : List (κ × (Option η × Bool))} {took : Set θ} {left : Set (θ × η)}
    (h : start.Stands took holder) (hsteady : Steady cap start.flags taken moves took holder)
    (hnamed : (∃ q, (q, holder) ∈ taken) → ∃ m ∈ moves, m.2.1 = some holder)
    (hleft : ∀ q, (q, holder) ∉ left) :
    (start.transact cap moves left taken).Stands (took ∪ {q | (q, holder) ∈ taken}) holder := by
  have hamid := h.keeps.write hsteady
  have hflags : (start.transact cap moves left taken).flags = saying start.flags moves :=
    hamid.flags
  have hseats : ∀ q, (q, holder) ∈ (start.transact cap moves left taken).seats ↔
      (q, holder) ∈ (start.write cap taken moves).seats ∨ (q, holder) ∈ taken := fun q => by
    simp [Book.transact, Book.take, Book.leave, hleft]
  by_cases hopen : opens (saying start.flags moves) holder = ∅
  · have hclosed : opens (start.write cap taken moves).flags holder = ∅ := by
      rw [hamid.flags, hopen]
    have hnone : ∀ q, (q, holder) ∉ taken := fun q hq => hsteady.ends ⟨q, hq⟩ hopen
    have hplaces : (start.write cap taken moves).places holder = [] := by
      rw [places, hamid.closed hclosed]
      rfl
    have hempty : ∀ q, (q, holder) ∉ (start.transact cap moves left taken).seats := by
      intro q hq
      rcases (hseats q).mp hq with hq | hq
      · have hin := hamid.within q hq
        rw [hplaces] at hin
        cases hin
      · exact hnone q hq
    refine ⟨⟨hamid.finite, hamid.count, hamid.closed, fun q => ?_⟩, fun q => ?_⟩
    · refine ⟨fun hq => absurd hq (hempty q), fun hq => ?_⟩
      change q ∈ (start.write cap taken moves).places holder at hq
      rw [hplaces] at hq
      cases hq
    · rw [hflags]
      exact ⟨fun hq => absurd hq (hempty q), fun hq => absurd hopen hq.1⟩
  · have hsome : ∀ q, (q, holder) ∈ (start.transact cap moves left taken).seats ↔
        q ∈ took ∨ (q, holder) ∈ taken := by
      intro q
      rw [hseats]
      by_cases htaken : (q, holder) ∈ taken
      · simp [htaken]
      · simp only [htaken, or_false]
        -- amid the things none may close the holder, since it is open at their end
        have hall : q ∈ took → ∀ pre, pre <+: moves → opens (saying start.flags pre) holder ≠ ∅ :=
          fun hq pre hpre hnone => htaken (hsteady.again pre hpre hnone hopen q hq)
        constructor
        · intro hq
          exact ((h.held q).mp (hamid.less q hq)).2
        · intro hq
          have hstart : opens start.flags holder ≠ ∅ := hall hq [] List.nil_prefix
          exact hamid.kept (hall hq) q ((h.held q).mpr ⟨hstart, hq⟩)
    refine ⟨⟨hamid.finite, hamid.count, hamid.closed, fun q => ?_⟩, fun q => ?_⟩
    · change _ ↔ q ∈ (start.write cap taken moves).places holder
      rw [hseats]
      constructor
      · rintro (hq | hq)
        · exact hamid.within q hq
        · refine hamid.gathered (hnamed ⟨q, hq⟩) ?_ q hq
          rwa [hamid.flags]
      · exact hamid.only q
    · rw [hsome, hflags]
      exact ⟨fun hq => ⟨hopen, hq⟩, fun hq => hq.2⟩

end Write

end Book

end XmipPersist
