import XmipPersist.Verification.Due.Marks

/-! # Where a queue's first entries are, settled as a batch leaves them

A first found again is the first of the entries the batch did not write, read from where it was,
or of those it wrote: so nothing is before it, whatever the batch did to the entries it wrote.
-/

namespace XmipPersist

namespace Due

/-! ## What a queue's due places tell -/

/-- No entry due since it was held is before the first of them, no retry before the first of
them, and the retries are counted. -/
structure Tells (marks : ℕ → Option Mark) (next : ℕ) (places : DuePlaces) : Prop where
  fresh : ∀ n, marks n = some ⟨false, 0⟩ → places.fresh ≤ n
  retry : ∀ n due, marks n = some ⟨false, due⟩ → due ≠ 0 → places.retry ≤ toLex (due, n)
  retrying : places.retrying = ∑ n ∈ Finset.range next, Mark.retries (marks n)
  pastEpoch : toLex (1, 0) ≤ places.retry
  freshFits : places.fresh ≤ u64Max
  retryFits : (ofLex places.retry).1 ≤ u64Max ∧ (ofLex places.retry).2 ≤ u64Max

theorem Tells.nothing : Tells (fun _ => none) 0 {} where
  fresh _ h := by cases h
  retry _ _ h := by cases h
  retrying := by simp
  pastEpoch := le_rfl
  freshFits := Nat.zero_le _
  retryFits := ⟨by decide, by decide⟩

variable {numbers : Set ℕ} {s : Store} {b : Batch} {q : ℕ}

/-! ## What the places written come to -/

/-- What a batch did not write is what the store held. -/
theorem marks_unwritten (hs : s.Proper) (hbelow : b.below = s.get) {n : ℕ}
    (h : written b.changes (.held, .pair q n) = none) :
    b.view.marks q n = View.marks s.records q n := by
  have hread : b.read (.held, .pair q n) = .ok (s.records (.held, .pair q n)) := by
    rw [Batch.read, h, hbelow]
    exact hs.get _
  rw [View.marks, Batch.view_eq rfl hread, View.marks]
  cases s.records (.held, .pair q n) <;> simp

theorem tallied_ok (hs : s.Proper) (hb : b.Proper) (hbelow : b.below = s.get) {places : List ℕ}
    (hwritten : ∀ n ∈ places, written b.changes (.held, .pair q n) ≠ none) (tally : Tally) :
    tallied b q tally places = .ok
      { retrying := places.foldl (fun count n => count + Mark.retries (b.view.marks q n) -
          Mark.retries (View.marks s.records q n)) tally.retrying
        fresh := places.foldl (fun first n => least first (Mark.freshAt n (b.view.marks q n)))
          tally.fresh
        retry := places.foldl (fun first n => least first (Mark.retryAt n (b.view.marks q n)))
          tally.retry } := by
  induction places generalizing tally with
  | nil => rfl
  | cons n places ih =>
      have hbelow' : b.below (.held, .pair q n) = .ok (s.records (.held, .pair q n)) := by
        rw [hbelow]
        exact hs.get _
      obtain ⟨old, hold, holdMark⟩ := read_mark fun content h => hs (.held, .pair q n) content h
      obtain ⟨value, hvalue⟩ := Option.ne_none_iff_exists'.mp (hwritten n (by simp))
      have hread : b.read (.held, .pair q n) = .ok value := by rw [Batch.read, hvalue]
      obtain ⟨found, hfound, hholds⟩ := hb (.held, .pair q n)
      obtain rfl : value = found := Except.ok.inj (hread.symm.trans hfound)
      obtain ⟨new, hnew, hnewMark⟩ := read_mark hholds
      have hmark : b.view.marks q n = new.map Held.mark := by
        rw [View.marks, Batch.view_eq rfl hread, hnewMark]
        cases value <;> simp
      have hmark' : View.marks s.records q n = old.map Held.mark := by rw [View.marks, holdMark]
      simp only [tallied, hbelow', hvalue, Option.getD_some, bind, Except.bind, hold, hnew]
      rw [ih fun m hm => hwritten m (by simp [hm]), over'_eq, ← hmark, ← hmark']
      rfl

/-! ## A first found again -/

/-- Of the entries not failed, no two are at one place. -/
theorem region_key {all : OrderedSet (ℕ ×ₗ ℕ)} {marks : ℕ → Option Mark} {failed : Bool}
    (hall : ∀ at', at' ∈ all ↔ marks (ofLex at').2 = some ⟨failed, (ofLex at').1⟩) :
    ∀ x ∈ all, ∀ y ∈ all, (ofLex x).2 = (ofLex y).2 → x = y := by
  intro x hx y hy h
  have hx' := (hall x).mp hx
  rw [h, (hall y).mp hy] at hx'
  have hdue := (Mark.mk.inj (Option.some.inj hx')).2
  exact ofLex.injective (Prod.ext hdue.symm h)

/-- A part of a queue's index, by its marks. -/
theorem region_marks (hs : s.Sound numbers) (hn : index.number ∈ numbers) (hq : q < 256 ^ 16)
    (failed : Bool) :
    ∃ all : OrderedSet (ℕ ×ₗ ℕ),
      (∀ at', at' ∈ all ↔
        View.marks s.records q (ofLex at').2 = some ⟨failed, (ofLex at').1⟩) ∧
      ∀ (first : ℕ ×ₗ ℕ) (last most : ℕ), (ofLex first).1 ≤ u64Max → (ofLex first).2 ≤ u64Max →
        last ≤ u64Max →
        region s q failed first last most = .ok (all.scan first (toLex (last, u64Max)) most) := by
  obtain ⟨all, hall, hread⟩ := region_ok hs hn hq failed
  exact ⟨all, fun at' => (hall at').trans hs.marks_eq.symm, hread⟩

theorem marks_fit (hs : s.Sound numbers) (hn : index.number ∈ numbers) {n : ℕ} {mark : Mark}
    (h : View.marks s.records q n = some mark) : mark.due ≤ u64Max ∧ n ≤ u64Max := by
  obtain ⟨held, hholds, -, hrank⟩ := hs.marks_eq.mp h
  obtain ⟨hdue, hplace⟩ := Prod.mk.inj (toLex.injective hrank)
  have hnumbers := (hs.dueFound hn hholds).1
  exact ⟨hdue ▸ hnumbers.bounds _ (by simp), hplace ▸ hnumbers.bounds _ (by simp)⟩

/-- The first of a part that the batch did not touch, in a range its entries are all in. -/
theorem untouched_ok (hs : s.Sound numbers) (hn : index.number ∈ numbers) (hq : q < 256 ^ 16)
    (touched : List ℕ) {first : ℕ ×ₗ ℕ} {last : ℕ} (hfirst : (ofLex first).1 ≤ u64Max)
    (hplace : (ofLex first).2 ≤ u64Max) (hlast : last ≤ u64Max) :
    ∃ kept, untouched s q first last (touched.length + 1) touched = .ok kept ∧
      (∀ n due, View.marks s.records q n = some ⟨false, due⟩ → n ∉ touched →
        first ≤ toLex (due, n) → due ≤ last → AtOrBefore kept (toLex (due, n))) ∧
      ∀ at', kept = some at' → first ≤ at' ∧ (ofLex at').1 ≤ last ∧
        View.marks s.records q (ofLex at').2 = some ⟨false, (ofLex at').1⟩ := by
  obtain ⟨all, hall, hread⟩ := region_marks hs hn hq false
  have hkey := region_key hall
  refine ⟨_, by rw [untouched, hread first last _ hfirst hplace hlast]; rfl, ?_, ?_⟩
  · intro n due hmark huntouched hle hdue
    have hfit := (marks_fit hs hn hmark).2
    refine OrderedSet.exists_find?_le hkey ((hall _).mpr hmark) hle ?_ huntouched
    exact Prod.Lex.toLex_mono ⟨hdue, hfit⟩
  · intro at' hfind
    obtain ⟨hmem, hle, hlast'⟩ := OrderedSet.find?_untouched hfind
    refine ⟨hle, ?_, (hall at').mp hmem⟩
    rcases Prod.Lex.le_iff.mp hlast' with h | h
    · exact h.le
    · exact h.1.le

theorem keptFresh_ok (hs : s.Sound numbers) (hn : index.number ∈ numbers) (hq : q < 256 ^ 16)
    {before : DuePlaces} {next : ℕ} (h : Tells (View.marks s.records q) next before)
    (touched : List ℕ) (tally : Tally) :
    ∃ kept, keptFresh s q touched before tally = .ok kept ∧
      (∀ n, View.marks s.records q n = some ⟨false, 0⟩ → n ∉ touched →
        AtOrBefore (least (kept.map fun at' => (ofLex at').2) tally.fresh) n) ∧
      ∀ at', kept = some at' → (ofLex at').2 ≤ u64Max := by
  unfold keptFresh
  by_cases htally : tally.fresh.any (· ≤ before.fresh) = true
  · -- the batch wrote a first at or before where it was
    refine ⟨none, if_pos htally, fun n hmark _ => ?_, by simp⟩
    obtain ⟨f, hf, hle⟩ := (Option.any_eq_true ..).mp htally
    have hbefore := h.fresh n hmark
    exact AtOrBefore.least_right ⟨f, hf, (of_decide_eq_true hle).trans hbefore⟩
  · have hzero : (ofLex (toLex (0, before.fresh))).1 ≤ u64Max := Nat.zero_le _
    obtain ⟨kept, hread, hcovers, hfound⟩ :=
      untouched_ok hs hn hq touched hzero h.freshFits (Nat.zero_le _)
    refine ⟨kept, by rw [if_neg htally]; exact hread, fun n hmark huntouched => ?_, ?_⟩
    · have hbefore := h.fresh n hmark
      obtain ⟨f, rfl, hf⟩ := hcovers n 0 hmark huntouched
        (Prod.Lex.toLex_mono ⟨le_rfl, hbefore⟩) le_rfl
      obtain ⟨-, hzero, -⟩ := hfound f rfl
      refine AtOrBefore.least_left ⟨(ofLex f).2, rfl, ?_⟩
      rcases Prod.Lex.le_iff.mp hf with hlt | ⟨-, hle⟩
      · exact absurd hlt (Nat.not_lt_zero _)
      · exact hle
    · intro at' hkept
      exact (marks_fit hs hn (hfound at' hkept).2.2).2

theorem keptRetry_ok (hs : s.Sound numbers) (hn : index.number ∈ numbers) (hq : q < 256 ^ 16)
    {before : DuePlaces} {next : ℕ} (h : Tells (View.marks s.records q) next before)
    (hnext : ∀ n mark, View.marks s.records q n = some mark → n < u64Max)
    (touched : List ℕ) (tally : Tally) :
    ∃ kept, keptRetry s q touched before tally = .ok kept ∧
      (∀ n due, View.marks s.records q n = some ⟨false, due⟩ → due ≠ 0 → n ∉ touched →
        AtOrBefore (least kept tally.retry) (toLex (due, n))) ∧
      ∀ at', kept = some at' → before.retry ≤ at' ∧
        View.marks s.records q (ofLex at').2 = some ⟨false, (ofLex at').1⟩ := by
  unfold keptRetry
  by_cases htally : before.retry = noRetry ∨ tally.retry.any (· ≤ before.retry) = true
  · refine ⟨none, if_pos htally, fun n due hmark hdue _ => ?_, by simp⟩
    have hbefore := h.retry n due hmark hdue
    rcases htally with hnone | htally
    · -- no retry was held: none is at or after the last place there could be
      have hplace := hnext n _ hmark
      have hfit := (marks_fit hs hn hmark).1
      rw [hnone, noRetry, Prod.Lex.toLex_le_toLex] at hbefore
      simp only at hbefore hfit
      omega
    · obtain ⟨f, hf, hle⟩ := (Option.any_eq_true ..).mp htally
      exact AtOrBefore.least_right ⟨f, hf, (of_decide_eq_true hle).trans hbefore⟩
  · obtain ⟨kept, hread, hcovers, hfound⟩ := untouched_ok hs hn hq touched h.retryFits.1
      h.retryFits.2 (le_refl u64Max)
    refine ⟨kept, by rw [if_neg htally]; exact hread, fun n due hmark hdue huntouched => ?_, ?_⟩
    · have hfit := (marks_fit hs hn hmark).1
      exact (hcovers n due hmark huntouched (h.retry n due hmark hdue) hfit).least_left
    · intro at' hkept
      obtain ⟨hle, -, hmark⟩ := hfound at' hkept
      exact ⟨hle, hmark⟩

theorem nextPlace_ok (hb : b.Proper) (q : ℕ) :
    nextPlace b q = .ok (b.view.queue .held q).next := by
  obtain ⟨found, hread, hview, hholds⟩ := hb.seen (.places, .id q) rfl
  rw [nextPlace, hread]
  simp only [View.queue, View.placesOf, Queues.kinds, Hold.kinds, hview]
  cases found with
  | none => rfl
  | some content =>
      have hcontent := hholds content rfl
      cases content <;> first | exact hcontent.elim | rfl

/-- A sum over the places given is one over more of them, where nothing is counted past those. -/
theorem sum_range_past {marks : ℕ → Option Mark} {next : ℕ} {S : Finset ℕ}
    (hS : Finset.range next ⊆ S) (hpast : ∀ n, next ≤ n → marks n = none) :
    ∑ n ∈ Finset.range next, Mark.retries (marks n) = ∑ n ∈ S, Mark.retries (marks n) := by
  refine Finset.sum_subset hS fun n _ hn => ?_
  rw [hpast n (by simpa using hn)]
  rfl

section Again

variable {touched : List ℕ} {before : DuePlaces} {next next' : ℕ}
  (hnodup : touched.Nodup)
  (htouched : ∀ n, n ∈ touched ↔ written b.changes (.held, .pair q n) ≠ none)
  (hpast : ∀ n, next ≤ n → View.marks s.records q n = none)
  (hpast' : ∀ n, next' ≤ n → b.view.marks q n = none)

include htouched in
theorem marks_untouched (hs : s.Proper) (hbelow : b.below = s.get) {n : ℕ} (hn : n ∉ touched) :
    b.view.marks q n = View.marks s.records q n := by
  refine marks_unwritten hs hbelow ?_
  by_contra h
  exact hn ((htouched n).mpr h)

include hnodup htouched hpast hpast' in
/-- As many keep a retry's due time as the batch leaves, once each place it wrote is counted. -/
theorem retrying_again (hs : s.Proper) (hbelow : b.below = s.get) :
    touched.foldl (fun count n => count + Mark.retries (b.view.marks q n) -
        Mark.retries (View.marks s.records q n))
        (∑ n ∈ Finset.range next, Mark.retries (View.marks s.records q n)) =
      ∑ n ∈ Finset.range next', Mark.retries (b.view.marks q n) := by
  let S := Finset.range next ∪ Finset.range next' ∪ touched.toFinset
  have hbefore : Finset.range next ⊆ S :=
    Finset.subset_union_left.trans Finset.subset_union_left
  have hafter : Finset.range next' ⊆ S :=
    Finset.subset_union_right.trans Finset.subset_union_left
  have hS : ∀ n ∈ touched, n ∈ S := fun n hn => by simp [S, hn]
  rw [sum_range_past hbefore hpast, foldl_counted hnodup hS, sum_range_past hafter hpast']
  refine Finset.sum_congr rfl fun n _ => ?_
  by_cases hn : n ∈ touched
  · rw [if_pos hn]
  · rw [if_neg hn, marks_untouched htouched hs hbelow hn]

/-- What the places a batch wrote come to: the retries as it leaves them, and the first of each
part it wrote. -/
structure Tallied (marks : ℕ → Option Mark) (next : ℕ) (touched : List ℕ) (tally : Tally) :
    Prop where
  retrying : tally.retrying = ∑ n ∈ Finset.range next, Mark.retries (marks n)
  fresh : ∀ n ∈ touched, marks n = some ⟨false, 0⟩ → AtOrBefore tally.fresh n
  freshFrom : ∀ n, tally.fresh = some n → marks n = some ⟨false, 0⟩
  retry : ∀ n ∈ touched, ∀ due, marks n = some ⟨false, due⟩ → due ≠ 0 →
    AtOrBefore tally.retry (toLex (due, n))
  retryFrom : ∀ at', tally.retry = some at' →
    marks (ofLex at').2 = some ⟨false, (ofLex at').1⟩ ∧ (ofLex at').1 ≠ 0

include hnodup htouched hpast hpast' in
theorem tally_ok (hs : s.Proper) (hb : b.Proper) (hbelow : b.below = s.get)
    (hbefore : Tells (View.marks s.records q) next before) :
    ∃ tally, tallied b q { retrying := before.retrying } touched = .ok tally ∧
      Tallied (b.view.marks q) next' touched tally := by
  refine ⟨_, tallied_ok hs hb hbelow (fun n hn => (htouched n).mp hn) _, ?_⟩
  constructor
  · simp only [hbefore.retrying]
    exact retrying_again hnodup htouched hpast hpast' hs hbelow
  · intro n hn hmark
    exact AtOrBefore.foldl hn ⟨n, Mark.freshAt_eq.mpr ⟨hmark, rfl⟩, le_rfl⟩
  · intro n hn
    rcases foldl_least_eq hn with h | ⟨m, -, h⟩
    · cases h
    · obtain ⟨hmark, rfl⟩ := Mark.freshAt_eq.mp h
      exact hmark
  · intro n hn due hmark hdue
    exact AtOrBefore.foldl hn ⟨_, Mark.retryAt_eq.mpr ⟨due, hmark, hdue, rfl⟩, le_rfl⟩
  · intro at' hat
    rcases foldl_least_eq hat with h | ⟨m, -, h⟩
    · cases h
    · obtain ⟨due, hmark, hdue, rfl⟩ := Mark.retryAt_eq.mp h
      exact ⟨hmark, hdue⟩

include hnodup htouched hpast hpast' in
/-- A queue's due places found again tell of it as the batch leaves it. -/
theorem foundAgain_ok (hs : s.Sound numbers) (hn : index.number ∈ numbers) (hq : q < 256 ^ 16)
    (hb : b.Proper) (hbelow : b.below = s.get)
    (hbefore : Tells (View.marks s.records q) next before)
    (hnext' : (b.view.queue .held q).next = next') (hnext : next ≤ next') (hfits : next' ≤ u64Max)
    (hdue : ∀ n mark, b.view.marks q n = some mark → mark.due ≤ u64Max) :
    ∃ places, foundAgain s b q touched before = .ok places ∧
      Tells (b.view.marks q) next' places := by
  have hheld : ∀ n mark, b.view.marks q n = some mark → n < u64Max := by
    intro n mark hmark
    by_contra hle
    rw [hpast' n (by omega)] at hmark
    cases hmark
  have hheld' : ∀ n mark, View.marks s.records q n = some mark → n < u64Max := by
    intro n mark hmark
    by_contra hle
    rw [hpast n (by omega)] at hmark
    cases hmark
  obtain ⟨tally, htally, h⟩ := tally_ok hnodup htouched hpast hpast' hs.proper hb hbelow hbefore
  obtain ⟨freshKept, hfresh, hfreshCovers, hfreshFits⟩ :=
    keptFresh_ok hs hn hq hbefore touched tally
  obtain ⟨retryKept, hretry, hretryCovers, hretryFrom⟩ :=
    keptRetry_ok hs hn hq hbefore hheld' touched tally
  have hfirst : ∀ n, b.view.marks q n = some ⟨false, 0⟩ →
      AtOrBefore (least (freshKept.map fun at' => (ofLex at').2) tally.fresh) n := by
    intro n hmark
    by_cases hn : n ∈ touched
    · exact (h.fresh n hn hmark).least_right
    · rw [marks_untouched htouched hs.proper hbelow hn] at hmark
      exact hfreshCovers n hmark hn
  have hfirstRetry : ∀ n due, b.view.marks q n = some ⟨false, due⟩ → due ≠ 0 →
      AtOrBefore (least retryKept tally.retry) (toLex (due, n)) := by
    intro n due hmark hdue
    by_cases hn : n ∈ touched
    · exact (h.retry n hn due hmark hdue).least_right
    · rw [marks_untouched htouched hs.proper hbelow hn] at hmark
      exact hretryCovers n due hmark hdue hn
  have hplace : ∃ fresh, freshAt b q (least (freshKept.map fun at' => (ofLex at').2) tally.fresh) =
      .ok fresh ∧ (∀ n, b.view.marks q n = some ⟨false, 0⟩ → fresh ≤ n) ∧ fresh ≤ u64Max := by
    cases hleast : least (freshKept.map fun at' => (ofLex at').2) tally.fresh with
    | none =>
        refine ⟨next', by rw [freshAt, nextPlace_ok hb, hnext'], fun n hmark => ?_, hfits⟩
        obtain ⟨f, hf, -⟩ := hfirst n hmark
        rw [hleast] at hf
        cases hf
    | some fresh =>
        refine ⟨fresh, rfl, fun n hmark => ?_, ?_⟩
        · obtain ⟨f, hf, hle⟩ := hfirst n hmark
          rw [hleast] at hf
          exact Option.some.inj hf ▸ hle
        · rcases least_eq hleast with hkept | htally
          · obtain ⟨at', hat, rfl⟩ := Option.map_eq_some_iff.mp hkept
            exact hfreshFits at' hat
          · exact (hheld fresh _ (h.freshFrom fresh htally)).le
  obtain ⟨fresh, hfreshAt, hfreshLe, hfreshFits⟩ := hplace
  refine ⟨⟨fresh, (least retryKept tally.retry).getD noRetry, tally.retrying⟩, ?_, ?_⟩
  · simp only [foundAgain, htally, hfresh, hfreshAt, hretry, bind, Except.bind, pure, Except.pure]
  · cases hleast : least retryKept tally.retry with
    | none =>
        have hlast : toLex (1, 0) ≤ noRetry := by decide
        refine ⟨hfreshLe, fun n due hmark hdue => ?_, h.retrying, hlast, hfreshFits,
          le_refl u64Max, le_refl u64Max⟩
        obtain ⟨f, hf, -⟩ := hfirstRetry n due hmark hdue
        rw [hleast] at hf
        cases hf
    | some retry =>
        have hfrom : toLex (1, 0) ≤ retry ∧ (ofLex retry).1 ≤ u64Max ∧ (ofLex retry).2 ≤ u64Max := by
          rcases least_eq hleast with hkept | htally
          · obtain ⟨hle, hmark⟩ := hretryFrom retry hkept
            exact ⟨hbefore.pastEpoch.trans hle, marks_fit hs hn hmark⟩
          · obtain ⟨hmark, hnonzero⟩ := h.retryFrom retry htally
            refine ⟨?_, hdue _ _ hmark, (hheld _ _ hmark).le⟩
            exact Prod.Lex.toLex_mono ⟨Nat.pos_of_ne_zero hnonzero, Nat.zero_le _⟩
        refine ⟨hfreshLe, fun n due hmark hdue => ?_, h.retrying, hfrom.1, hfreshFits, hfrom.2⟩
        obtain ⟨f, hf, hle⟩ := hfirstRetry n due hmark hdue
        rw [hleast] at hf
        exact Option.some.inj hf ▸ hle

end Again

end Due

end XmipPersist
