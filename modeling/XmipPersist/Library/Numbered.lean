import Mathlib

/-! # Queues that number their entries

An entry takes the queue's next place and keeps it until it is taken out, in any order. What
each entry is about finds its place, and may be remembered once the entry is gone. Counted,
bounded and found so, a queue stays so, and a place once given is never given again.
-/

namespace XmipPersist

variable {ε β : Type} [DecidableEq β]

/-- A queue's entries at their places, what is kept of each thing placed in it (nothing, that it
was taken out, or its place), a place no entry is before, the next place and how many it holds. -/
structure Numbered (ε β : Type) where
  entry : ℕ → Option ε
  index : β → Option (Option ℕ)
  first : ℕ
  next : ℕ
  count : ℕ

namespace Numbered

/-! ## Steps -/

/-- An entry about `about` placed at the end. -/
def place (q : Numbered ε β) (about : β) (entry : ε) : Numbered ε β where
  entry := Function.update q.entry q.next (some entry)
  index := Function.update q.index about (some (some q.next))
  first := q.first
  next := q.next + 1
  count := q.count + 1

/-- The entry at `n` taken out, and `kept` kept of what it was about. -/
def takeOut (q : Numbered ε β) (n : ℕ) (about : β) (kept : Option (Option ℕ)) :
    Numbered ε β where
  entry := Function.update q.entry n none
  index := Function.update q.index about kept
  first := if q.count - 1 = 0 then q.next else q.first
  next := q.next
  count := q.count - 1

/-- The entry at `n` rewritten where it is. -/
def rewrite (q : Numbered ε β) (n : ℕ) (entry : ε) : Numbered ε β :=
  { q with entry := Function.update q.entry n (some entry) }

/-- The places held. -/
def held (q : Numbered ε β) : Finset ℕ := (Finset.range q.next).filter fun n => (q.entry n).isSome

/-! ## Orderly queues -/

variable (about : ε → β) (belongs : ℕ → ε → Prop)

/-- Entries are where they belong and within the bounds, found by what they are about and by
nothing else, and counted; an empty queue's first place is its next. -/
structure Orderly (q : Numbered ε β) : Prop where
  belongs : ∀ n e, q.entry n = some e → belongs n e
  bounds : ∀ n e, q.entry n = some e → q.first ≤ n ∧ n < q.next
  index : ∀ b n, q.index b = some (some n) ↔ ∃ e, q.entry n = some e ∧ about e = b
  count : q.count = q.held.card
  empty : q.count = 0 → q.first = q.next

/-- From one queue to a later one: a place given before is given to nothing else after. -/
structure Later (q q' : Numbered ε β) : Prop where
  next : q.next ≤ q'.next
  entry : ∀ n < q.next, ∀ e', q'.entry n = some e' → ∃ e, q.entry n = some e ∧ about e = about e'

variable {about belongs} {q q' q'' : Numbered ε β} {n : ℕ} {b : β} {e : ε}

omit [DecidableEq β] in
theorem mem_held (h : q.Orderly about belongs) : n ∈ q.held ↔ ∃ e, q.entry n = some e := by
  rw [held, Finset.mem_filter, Finset.mem_range, Option.isSome_iff_exists]
  exact ⟨And.right, fun ⟨e, he⟩ => ⟨(h.bounds n e he).2, e, he⟩⟩

omit [DecidableEq β] in
/-- Two entries about the same are one. -/
theorem Orderly.sole (h : q.Orderly about belongs) {m : ℕ} {d : ε} (hm : q.entry m = some d)
    (hn : q.entry n = some e) (he : about d = about e) : m = n := by
  have hd := (h.index (about d) m).mpr ⟨d, hm, rfl⟩
  have hn' := (h.index (about d) n).mpr ⟨e, hn, he.symm⟩
  rw [hd] at hn'
  exact Option.some.inj (Option.some.inj hn')

omit [DecidableEq β] in
theorem Orderly.first_le (h : q.Orderly about belongs) : q.first ≤ q.next := by
  by_cases h0 : q.count = 0
  · exact (h.empty h0).le
  · rw [h.count] at h0
    obtain ⟨n, hn⟩ := Finset.card_pos.mp (Nat.pos_of_ne_zero h0)
    obtain ⟨e, he⟩ := (mem_held h).mp hn
    have hb := h.bounds n e he
    omega

omit [DecidableEq β] in
theorem Orderly.fresh (h : q.Orderly about belongs) : q.entry q.next = none := by
  by_contra hne
  obtain ⟨e, he⟩ := Option.ne_none_iff_exists'.mp hne
  exact lt_irrefl _ (h.bounds _ e he).2

omit [DecidableEq β] in
/-- Nothing held, nothing placed, nothing given. -/
theorem Orderly.nothing :
    (⟨fun _ => none, fun _ => none, 0, 0, 0⟩ : Numbered ε β).Orderly about belongs where
  belongs n e he := by cases he
  bounds n e he := by cases he
  index b n := by simp
  count := rfl
  empty _ := rfl

theorem Orderly.place (h : q.Orderly about belongs) (hnone : q.index b = none)
    (hb : about e = b) (he : belongs q.next e) : (q.place b e).Orderly about belongs where
  belongs n d hd := by
    simp only [Numbered.place, Function.update_apply] at hd
    split at hd
    · next heq =>
        obtain rfl := Option.some.inj hd
        rwa [heq]
    · exact h.belongs n d hd
  bounds n d hd := by
    simp only [Numbered.place, Function.update_apply] at hd ⊢
    have hfirst := h.first_le
    split at hd
    · omega
    · have hbounds := h.bounds n d hd
      omega
  index b' n := by
    simp only [Numbered.place, Function.update_apply]
    have hindex := h.index b' n
    by_cases hn : n = q.next
    · subst hn
      by_cases hb' : b' = b
      · simp [hb', hb]
      · rw [if_neg hb', if_pos rfl, hindex, h.fresh]
        constructor
        · rintro ⟨d, hd, _⟩
          cases hd
        · rintro ⟨d, hd, hd'⟩
          obtain rfl := Option.some.inj hd
          exact absurd (hd'.symm.trans hb) hb'
    · by_cases hb' : b' = b
      · subst hb'
        rw [hnone] at hindex
        simpa [hn, Ne.symm hn] using hindex
      · rw [if_neg hb', if_neg hn]
        exact hindex
  count := by
    have hheld : (q.place b e).held = insert q.next q.held := by
      ext m
      simp only [held, Numbered.place, Finset.mem_filter, Finset.mem_range, Finset.mem_insert,
        Function.update_apply]
      by_cases hm : m = q.next
      · simp [hm]
      · simp only [hm, if_false, false_or]
        exact and_congr_left fun _ => by omega
    rw [hheld, Finset.card_insert_of_notMem (by simp [held]), ← h.count]
    rfl
  empty h0 := by cases h0

theorem Orderly.takeOut (h : q.Orderly about belongs) (hn : q.entry n = some e)
    (hb : about e = b) {kept : Option (Option ℕ)} (hkept : ∀ m, kept ≠ some (some m)) :
    (q.takeOut n b kept).Orderly about belongs where
  belongs m d hd := by
    simp only [Numbered.takeOut, Function.update_apply] at hd
    split at hd
    · cases hd
    · exact h.belongs m d hd
  bounds m d hd := by
    have hne : m ≠ n := by
      rintro rfl
      simp [Numbered.takeOut] at hd
    have hm : q.entry m = some d := by simpa [Numbered.takeOut, hne] using hd
    have hbounds := h.bounds m d hm
    -- another is held, so the count is not down to nothing
    have hcount : q.count - 1 ≠ 0 := by
      have hsub : ({m, n} : Finset ℕ) ⊆ q.held := by
        intro k hk
        rcases Finset.mem_insert.mp hk with rfl | hk
        · exact (mem_held h).mpr ⟨d, hm⟩
        · rw [Finset.mem_singleton.mp hk]
          exact (mem_held h).mpr ⟨e, hn⟩
      have hcard := Finset.card_le_card hsub
      rw [Finset.card_pair hne, ← h.count] at hcard
      omega
    simp only [Numbered.takeOut, hcount, if_false]
    exact hbounds
  index b' m := by
    simp only [Numbered.takeOut, Function.update_apply]
    by_cases hb' : b' = b
    · subst hb'
      simp only [if_true, hkept, false_iff]
      rintro ⟨d, hd, hd'⟩
      split at hd
      · cases hd
      · next hne => exact hne (h.sole hd hn (hd'.trans hb.symm))
    · rw [if_neg hb', h.index]
      by_cases hm : m = n
      · subst hm
        simp only [hn, if_true]
        constructor
        · rintro ⟨d, hd, hd'⟩
          obtain rfl := Option.some.inj hd
          exact absurd (hd'.symm.trans hb) hb'
        · rintro ⟨d, hd, _⟩
          cases hd
      · rw [if_neg hm]
  count := by
    have hheld : (q.takeOut n b kept).held = q.held.erase n := by
      ext m
      simp only [held, Numbered.takeOut, Finset.mem_filter, Finset.mem_range, Finset.mem_erase,
        Function.update_apply]
      by_cases hm : m = n <;> simp [hm]
    rw [hheld, Finset.card_erase_of_mem ((mem_held h).mpr ⟨e, hn⟩), ← h.count]
    rfl
  empty h0 := by
    simp only [Numbered.takeOut] at h0 ⊢
    rw [if_pos h0]

omit [DecidableEq β] in
theorem Orderly.rewrite (h : q.Orderly about belongs) (hn : q.entry n = some e) {d : ε}
    (hd : about d = about e) (hbelongs : belongs n d) : (q.rewrite n d).Orderly about belongs where
  belongs m d' hm := by
    simp only [Numbered.rewrite, Function.update_apply] at hm
    split at hm
    · next heq =>
        obtain rfl := Option.some.inj hm
        rwa [heq]
    · exact h.belongs m d' hm
  bounds m d' hm := by
    simp only [Numbered.rewrite, Function.update_apply] at hm ⊢
    split at hm
    · next heq => exact heq ▸ h.bounds n e hn
    · exact h.bounds m d' hm
  index b m := by
    simp only [Numbered.rewrite, Function.update_apply]
    rw [h.index]
    by_cases hm : m = n
    · subst hm
      simp [hn, hd]
    · rw [if_neg hm]
  count := by
    have hheld : (q.rewrite n d).held = q.held := by
      ext m
      simp only [held, Numbered.rewrite, Finset.mem_filter, Function.update_apply]
      by_cases hm : m = n <;> simp [hm, hn]
    rw [hheld, ← h.count]
    rfl
  empty h0 := h.empty h0

/-! ## Finding an entry -/

/-- Where something is in the queue, and its entry. -/
def find (q : Numbered ε β) (b : β) : Option (ℕ × ε) :=
  match q.index b with
  | some (some n) => (q.entry n).map fun e => (n, e)
  | _ => none

omit [DecidableEq β] in
theorem Orderly.find_eq_some (h : q.Orderly about belongs) :
    q.find b = some (n, e) ↔ q.entry n = some e ∧ about e = b := by
  have hindex := h.index b
  constructor
  · intro hfind
    unfold find at hfind
    split at hfind
    · next m hm =>
        obtain ⟨d, hd, habout⟩ := (hindex m).mp hm
        rw [hd] at hfind
        cases hfind
        exact ⟨hd, habout⟩
    · cases hfind
  · rintro ⟨hn, habout⟩
    rw [find, (hindex n).mpr ⟨e, hn, habout⟩]
    simp [hn]

omit [DecidableEq β] in
/-- Nothing is found of what is not in the index. -/
theorem find_of_index (hnone : ∀ n, q.index b ≠ some (some n)) : q.find b = none := by
  unfold find
  split
  · next n hn => exact absurd hn (hnone n)
  · rfl

theorem Orderly.find_place (h : q.Orderly about belongs) (hnone : q.index b = none)
    (hb : about e = b) (he : belongs q.next e) (b' : β) :
    (q.place b e).find b' = if b' = b then some (q.next, e) else q.find b' := by
  have hplaced := h.place hnone hb he
  by_cases hb' : b' = b
  · subst hb'
    rw [if_pos rfl]
    refine hplaced.find_eq_some.mpr ⟨?_, hb⟩
    simp [Numbered.place]
  · rw [if_neg hb']
    refine Option.ext fun ⟨n, d⟩ => ?_
    rw [hplaced.find_eq_some, h.find_eq_some]
    refine and_congr_left fun habout => ?_
    by_cases hn : n = q.next
    · subst hn
      rw [h.fresh]
      simp only [Numbered.place, Function.update_self, Option.some.injEq, reduceCtorEq, iff_false]
      rintro rfl
      exact hb' (habout.symm.trans hb)
    · simp [Numbered.place, hn]

theorem Orderly.find_takeOut (h : q.Orderly about belongs) (hn : q.entry n = some e)
    (hb : about e = b) {kept : Option (Option ℕ)} (hkept : ∀ m, kept ≠ some (some m)) (b' : β) :
    (q.takeOut n b kept).find b' = if b' = b then none else q.find b' := by
  have htaken := h.takeOut hn hb hkept
  by_cases hb' : b' = b
  · subst hb'
    rw [if_pos rfl]
    exact find_of_index (by simpa [Numbered.takeOut] using hkept)
  · rw [if_neg hb']
    refine Option.ext fun ⟨m, d⟩ => ?_
    rw [htaken.find_eq_some, h.find_eq_some]
    refine and_congr_left fun habout => ?_
    by_cases hm : m = n
    · subst hm
      rw [hn]
      simp only [Numbered.takeOut, Function.update_self, reduceCtorEq, false_iff,
        Option.some.injEq]
      rintro rfl
      exact hb' (habout.symm.trans hb)
    · simp [Numbered.takeOut, hm]

theorem Orderly.find_rewrite (h : q.Orderly about belongs) (hn : q.entry n = some e) {d : ε}
    (hd : about d = about e) (hbelongs : belongs n d) (b : β) :
    (q.rewrite n d).find b = if b = about e then some (n, d) else q.find b := by
  have hrewritten := h.rewrite hn hd hbelongs
  by_cases hb : b = about e
  · rw [if_pos hb]
    refine hrewritten.find_eq_some.mpr ⟨?_, hd.trans hb.symm⟩
    simp [Numbered.rewrite]
  · rw [if_neg hb]
    refine Option.ext fun ⟨m, d'⟩ => ?_
    rw [hrewritten.find_eq_some, h.find_eq_some]
    refine and_congr_left fun habout => ?_
    by_cases hm : m = n
    · subst hm
      rw [hn]
      simp only [Numbered.rewrite, Function.update_self, Option.some.injEq]
      constructor
      · rintro rfl
        exact absurd (habout.symm.trans hd) hb
      · rintro rfl
        exact absurd habout.symm hb
    · simp [Numbered.rewrite, hm]

/-! ## Places given -/

omit [DecidableEq β] in
theorem Later.refl (about : ε → β) (q : Numbered ε β) : Later about q q :=
  ⟨le_rfl, fun _ _ e he => ⟨e, he, rfl⟩⟩

omit [DecidableEq β] in
theorem Later.trans (h : Later about q q') (h' : Later about q' q'') : Later about q q'' := by
  refine ⟨h.next.trans h'.next, fun n hn e'' he'' => ?_⟩
  obtain ⟨e', he', heq'⟩ := h'.entry n (hn.trans_le h.next) e'' he''
  obtain ⟨e, he, heq⟩ := h.entry n hn e' he'
  exact ⟨e, he, heq.trans heq'⟩

theorem Later.place (about : ε → β) (q : Numbered ε β) (b : β) (e : ε) :
    Later about q (q.place b e) := by
  refine ⟨Nat.le_succ _, fun n hn d hd => ⟨d, ?_, rfl⟩⟩
  simpa [Numbered.place, ne_of_lt hn] using hd

theorem Later.takeOut (about : ε → β) (q : Numbered ε β) (n : ℕ) (b : β)
    (kept : Option (Option ℕ)) : Later about q (q.takeOut n b kept) := by
  refine ⟨le_rfl, fun m _ d hd => ⟨d, ?_, rfl⟩⟩
  simp only [Numbered.takeOut, Function.update_apply] at hd
  split at hd
  · cases hd
  · exact hd

omit [DecidableEq β] in
theorem Later.rewrite (hn : q.entry n = some e) {d : ε} (hd : about d = about e) :
    Later about q (q.rewrite n d) := by
  refine ⟨le_rfl, fun m _ d' hd' => ?_⟩
  simp only [Numbered.rewrite, Function.update_apply] at hd'
  split at hd'
  · next heq =>
      obtain rfl := Option.some.inj hd'
      exact ⟨e, heq ▸ hn, hd.symm⟩
  · exact ⟨d', hd', rfl⟩

/-! ## Entries seen otherwise -/

/-- The queue with each entry seen as `f` of it. -/
def map (f : ε → ε) (q : Numbered ε β) : Numbered ε β :=
  { q with entry := fun n => (q.entry n).map f }

section Map

variable {f : ε → ε} (hf : ∀ e, about (f e) = about e)

omit [DecidableEq β] in
include hf in
/-- A queue is as orderly as it is seen, where what is seen of an entry is what it is about and
where it belongs. -/
theorem Orderly.of_map (hb : ∀ n e, belongs n (f e) → belongs n e)
    (h : (q.map f).Orderly about belongs) : q.Orderly about belongs where
  belongs n e he := hb n e (h.belongs n (f e) (by simp [map, he]))
  bounds n e he := h.bounds n (f e) (by simp [map, he])
  index b n := by
    have hindex := h.index b n
    simp only [map, Option.map_eq_some_iff] at hindex
    rw [hindex]
    constructor
    · rintro ⟨_, ⟨e, he, rfl⟩, habout⟩
      exact ⟨e, he, by rwa [hf] at habout⟩
    · rintro ⟨e, he, habout⟩
      exact ⟨f e, ⟨e, he, rfl⟩, by rwa [hf]⟩
  count := by
    have hheld : (q.map f).held = q.held := by
      ext n
      simp [held, map]
    rw [← hheld]
    exact h.count
  empty h0 := h.empty h0

omit [DecidableEq β] in
include hf in
theorem Later.of_map (h : Later about (q.map f) (q'.map f)) : Later about q q' := by
  refine ⟨h.next, fun n hn e' he' => ?_⟩
  obtain ⟨d, hd, habout⟩ := h.entry n hn (f e') (by simp [map, he'])
  obtain ⟨e, he, rfl⟩ := Option.map_eq_some_iff.mp hd
  exact ⟨e, he, by rwa [hf, hf] at habout⟩

omit [DecidableEq β] in
theorem find_map (f : ε → ε) (q : Numbered ε β) (b : β) :
    (q.map f).find b = (q.find b).map fun at' => (at'.1, f at'.2) := by
  simp only [find, map]
  cases q.index b with
  | none => rfl
  | some kept =>
      cases kept with
      | none => rfl
      | some n => simp [Function.comp_def]

end Map

/-! ## Pages -/

/-- The places held from `start` on, in order. -/
def from' (q : Numbered ε β) (start : ℕ) : List ℕ := (q.held.filter (start ≤ ·)).sort (· ≤ ·)

/-- Up to `most` of them. -/
def page (q : Numbered ε β) (start most : ℕ) : List ℕ := (q.from' start).take most

/-- So many pages, each from the last place of the one before it plus one. -/
def pages (q : Numbered ε β) (most : ℕ) : ℕ → ℕ → List ℕ
  | 0, _ => []
  | rounds + 1, start =>
      match (q.page start most).getLast? with
      | none => []
      | some last => q.page start most ++ q.pages most rounds (last + 1)

omit [DecidableEq β] in
theorem mem_from {start : ℕ} : n ∈ q.from' start ↔ n ∈ q.held ∧ start ≤ n := by
  simp [from']

omit [DecidableEq β] in
theorem from_ascending (q : Numbered ε β) (start : ℕ) : (q.from' start).Pairwise (· < ·) :=
  (q.held.filter (start ≤ ·)).sortedLT_sort.pairwise

omit [DecidableEq β] in
/-- An ascending list of the places held from `start` on is the list of them. -/
theorem eq_from {start : ℕ} {places : List ℕ} (hasc : places.Pairwise (· < ·))
    (hmem : ∀ n, n ∈ places ↔ n ∈ q.held ∧ start ≤ n) : places = q.from' start :=
  hasc.eq_of_mem_iff (from_ascending q start) fun n => (hmem n).trans mem_from.symm

omit [DecidableEq β] in
/-- What is held past the last of some first places held is the rest. -/
theorem from_after {start last most : ℕ} (h : (q.page start most).getLast? = some last) :
    q.from' (last + 1) = (q.from' start).drop most := by
  have hsplit := List.take_append_drop most (q.from' start)
  have hasc := from_ascending q start
  rw [← hsplit] at hasc
  obtain ⟨hpage, hrest, hacross⟩ := List.pairwise_append.mp hasc
  have hmem : last ∈ (q.from' start).take most := List.mem_of_getLast? h
  symm
  refine eq_from hrest fun n => ?_
  constructor
  · intro hn
    have hheld := mem_from.mp (List.mem_of_mem_drop hn)
    exact ⟨hheld.1, hacross last hmem n hn⟩
  · rintro ⟨hn, hlast⟩
    have hstart := (mem_from.mp (List.mem_of_mem_take hmem)).2
    have hfrom : n ∈ q.from' start := mem_from.mpr ⟨hn, by omega⟩
    rw [← hsplit] at hfrom
    rcases List.mem_append.mp hfrom with hn' | hn'
    · -- no place of the page is past its last
      obtain ⟨init, hinit⟩ := List.getLast?_eq_some_iff.mp h
      rw [page] at hinit
      rw [hinit] at hn' hpage
      rcases List.mem_append.mp hn' with hn' | hn'
      · have hlt := (List.pairwise_append.mp hpage).2.2 n hn' last (by simp)
        omega
      · have heq := List.mem_singleton.mp hn'
        omega
    · exact hn'

omit [DecidableEq β] in
/-- Pages read one after another read every place once, in order. -/
theorem pages_eq {most : ℕ} (hmost : 0 < most) (rounds start : ℕ) :
    q.pages most rounds start = (q.from' start).take (rounds * most) := by
  induction rounds generalizing start with
  | zero => simp [pages]
  | succ rounds ih =>
      rw [pages]
      cases hlast : (q.page start most).getLast? with
      | none =>
          have hnil : q.from' start = [] := by
            have hpage : (q.from' start).take most = [] := List.getLast?_eq_none_iff.mp hlast
            rcases List.take_eq_nil_iff.mp hpage with h0 | h0
            · omega
            · exact h0
          simp [hnil]
      | some last =>
          simp only
          rw [ih, from_after hlast, page, Nat.succ_mul, Nat.add_comm, List.take_add]

end Numbered

end XmipPersist
