import XmipPersist.Library.Numbered

/-! # Lines

Those who stand in a line join it at its end, leave it from anywhere and go to its end. One that
stands before another stays before it until it leaves or goes to the end. The entries of a queue
that numbers them stand in a line, by whom they are about.
-/

namespace XmipPersist

variable {ε β : Type} [DecidableEq β]

namespace Line

/-- The line with `b` at its end, where it was not in it. -/
def join (line : List β) (b : β) : List β := if b ∈ line then line else line ++ [b]

/-- The line with `b` gone from where it stood to the end. -/
def toTheEnd (line : List β) (b : β) : List β := if b ∈ line then line.erase b ++ [b] else line

/-- Whether one stands before another. -/
def Before (line : List β) (first second : β) : Prop := [first, second].Sublist line

variable {line : List β} {first second b : β}

omit [DecidableEq β] in
/-- Nobody stands before another for someone else having come to the end. -/
theorem Before.of_concat (h : Before (line ++ [b]) first second) (hne : b ≠ second) :
    Before line first second := by
  obtain ⟨kept, last, hsplit, hkept, hlast⟩ := List.sublist_append_iff.mp h
  rcases List.sublist_singleton.mp hlast with rfl | rfl
  · rw [List.append_nil] at hsplit
    rw [Before, hsplit]
    exact hkept
  · have hsecond : second = b := by
      have hends := congrArg List.getLast? hsplit
      simpa using hends
    exact absurd hsecond.symm hne

/-- Nobody comes to stand before another as someone else joins. -/
theorem Before.of_join (h : Before (join line b) first second) (hne : b ≠ second) :
    Before line first second := by
  by_cases hb : b ∈ line
  · rwa [join, if_pos hb] at h
  · rw [join, if_neg hb] at h
    exact h.of_concat hne

omit [DecidableEq β] in
/-- Nor as some leave. -/
theorem Before.of_filter {stays : β → Bool} (h : Before (line.filter stays) first second) :
    Before line first second :=
  h.trans List.filter_sublist

/-- Nor as someone else goes to the end. -/
theorem Before.of_toTheEnd (h : Before (toTheEnd line b) first second) (hne : b ≠ second) :
    Before line first second := by
  by_cases hb : b ∈ line
  · rw [toTheEnd, if_pos hb] at h
    exact (h.of_concat hne).trans List.erase_sublist
  · rwa [toTheEnd, if_neg hb] at h

end Line

namespace Numbered

/-- Whom the entries of a queue are about, by their places. -/
def line (about : ε → β) (q : Numbered ε β) : List β :=
  (q.from' 0).filterMap fun n => (q.entry n).map about

variable {about : ε → β} {belongs : ℕ → ε → Prop} {q q' : Numbered ε β} {n : ℕ} {b : β} {e : ε}

omit [DecidableEq β] in
theorem mem_line (h : q.Orderly about belongs) :
    b ∈ q.line about ↔ ∃ n, q.index b = some (some n) := by
  rw [line, List.mem_filterMap]
  constructor
  · rintro ⟨n, -, hn⟩
    obtain ⟨e, he, habout⟩ := Option.map_eq_some_iff.mp hn
    exact ⟨n, (h.index b n).mpr ⟨e, he, habout⟩⟩
  · rintro ⟨n, hn⟩
    obtain ⟨e, he, habout⟩ := (h.index b n).mp hn
    have hheld : n ∈ q.held := (mem_held h).mpr ⟨e, he⟩
    exact ⟨n, mem_from.mpr ⟨hheld, Nat.zero_le n⟩, by rw [he, Option.map_some, habout]⟩

omit [DecidableEq β] in
theorem nodup_line (h : q.Orderly about belongs) : (q.line about).Nodup := by
  apply List.Nodup.filterMap
  · intro m n b hm hn
    obtain ⟨d, hd, hb⟩ := Option.map_eq_some_iff.mp hm
    obtain ⟨e, he, hb'⟩ := Option.map_eq_some_iff.mp hn
    exact h.sole hd he (hb.trans hb'.symm)
  · exact (from_ascending q 0).imp fun hlt => hlt.ne

omit [DecidableEq β] in
/-- The places held tell the line, with their entries. -/
theorem line_congr (hheld : q'.held = q.held)
    (hentry : ∀ n, (q'.entry n).map about = (q.entry n).map about) :
    q'.line about = q.line about := by
  simp only [line, from', hheld, hentry]

/-- An entry placed stands at the end. -/
theorem line_place (h : q.Orderly about belongs) (hnone : q.index b = none) (hb : about e = b)
    (he : belongs q.next e) : (q.place b e).line about = q.line about ++ [b] := by
  have hplaced := h.place hnone hb he
  have hfrom : q.from' 0 ++ [q.next] = (q.place b e).from' 0 := by
    have hbefore : ∀ n ∈ q.from' 0, n < q.next := fun n hn => by
      obtain ⟨d, hd⟩ := (mem_held h).mp (mem_from.mp hn).1
      exact (h.bounds n d hd).2
    apply eq_from
    · rw [List.pairwise_append]
      exact ⟨from_ascending q 0, List.pairwise_singleton _ _, by simpa using hbefore⟩
    · intro n
      rw [mem_held hplaced, List.mem_append, List.mem_singleton, mem_from, mem_held h]
      by_cases hn : n = q.next
      · simp [hn, Numbered.place]
      · simp [hn, Numbered.place]
  have hsame : ∀ n ∈ q.from' 0, ((q.place b e).entry n).map about = (q.entry n).map about := by
    intro n hn
    have hne : n ≠ q.next := by
      rintro rfl
      obtain ⟨d, hd⟩ := (mem_held h).mp (mem_from.mp hn).1
      rw [h.fresh] at hd
      cases hd
    simp [Numbered.place, hne]
  rw [line, ← hfrom, List.filterMap_append, List.filterMap_congr hsame, line]
  simp [Numbered.place, hb]

/-- An entry taken out is gone from where it stood. -/
theorem line_takeOut (h : q.Orderly about belongs) (hn : q.entry n = some e) (hb : about e = b)
    {kept : Option (Option ℕ)} (hkept : ∀ m, kept ≠ some (some m)) :
    (q.takeOut n b kept).line about = (q.line about).erase b := by
  have htaken := h.takeOut hn hb hkept
  have hfrom : (q.from' 0).filter (· ≠ n) = (q.takeOut n b kept).from' 0 := by
    apply eq_from
    · exact (from_ascending q 0).filter _
    · intro m
      rw [mem_held htaken, List.mem_filter, mem_from, mem_held h]
      by_cases hm : m = n
      · simp [hm, Numbered.takeOut]
      · simp [hm, Numbered.takeOut]
  rw [(nodup_line h).erase_eq_filter, line, line, ← hfrom, List.filterMap_filter,
    List.filter_filterMap]
  apply List.filterMap_congr
  intro m hm
  obtain ⟨d, hd⟩ := (mem_held h).mp (mem_from.mp hm).1
  by_cases hne : m = n
  · subst hne
    simp [hn, hb, Option.filter]
  · have habout : about d ≠ b := fun hsame => hne (h.sole hd hn (hsame.trans hb.symm))
    simp [Numbered.takeOut, hne, hd, habout, Option.filter]

omit [DecidableEq β] in
/-- An entry rewritten stands where it stood. -/
theorem line_rewrite (hn : q.entry n = some e) {d : ε} (hd : about d = about e) :
    (q.rewrite n d).line about = q.line about := by
  apply line_congr
  · ext m
    simp only [held, rewrite, Finset.mem_filter, Function.update_apply]
    by_cases hm : m = n <;> simp [hm, hn]
  · intro m
    by_cases hm : m = n
    · subst hm
      simp [rewrite, hn, hd]
    · simp [rewrite, hm]

omit [DecidableEq β] in
theorem line_map {f : ε → ε} (hf : ∀ e, about (f e) = about e) :
    (q.map f).line about = q.line about := by
  apply line_congr
  · ext m
    simp [held, map]
  · intro m
    have hcomp : about ∘ f = about := funext hf
    simp [map, Option.map_map, hcomp]

omit [DecidableEq β] in
/-- One stands before another where its place is before the other's. -/
theorem before_line (h : q.Orderly about belongs) {first second : β} :
    Line.Before (q.line about) first second ↔
      ∃ m n, q.index first = some (some m) ∧ q.index second = some (some n) ∧ m < n := by
  let placed (first second : β) : Prop :=
    ∃ m n, q.index first = some (some m) ∧ q.index second = some (some n) ∧ m < n
  have hordered : (q.line about).Pairwise placed := by
    apply List.Pairwise.filterMap _ _ (from_ascending q 0)
    intro m n hlt first hfirst second hsecond
    obtain ⟨d, hd, hfirst⟩ := Option.map_eq_some_iff.mp hfirst
    obtain ⟨e, he, hsecond⟩ := Option.map_eq_some_iff.mp hsecond
    have hm := (h.index first m).mpr ⟨d, hd, hfirst⟩
    have hn := (h.index second n).mpr ⟨e, he, hsecond⟩
    exact ⟨m, n, hm, hn, hlt⟩
  have hall : ∀ first second, Line.Before (q.line about) first second → placed first second :=
    fun _ _ h => List.pairwise_iff_forall_sublist.mp hordered h
  constructor
  · exact hall first second
  · rintro ⟨m, n, hm, hn, hlt⟩
    have hfirst : first ∈ q.line about := (mem_line h).mpr ⟨m, hm⟩
    have hsecond : second ∈ q.line about := (mem_line h).mpr ⟨n, hn⟩
    obtain ⟨before, after, hsplit⟩ := List.append_of_mem hfirst
    have hne : second ≠ first := by
      rintro rfl
      rw [hm] at hn
      cases hn
      omega
    rw [hsplit, List.mem_append, List.mem_cons] at hsecond
    rcases hsecond with hsecond | hsecond
    · -- the other one before it has the earlier place
      have hback : Line.Before (q.line about) second first := by
        rw [hsplit]
        exact (List.singleton_sublist.mpr hsecond).append
          (List.singleton_sublist.mpr (List.mem_cons_self))
      obtain ⟨n', m', hn', hm', hlt'⟩ := hall second first hback
      rw [hm] at hm'
      rw [hn] at hn'
      cases hm'
      cases hn'
      omega
    · rw [hsplit]
      have hrest := hsecond.resolve_left hne
      exact ((List.singleton_sublist.mpr hrest).cons_cons first).trans
        (List.sublist_append_right before _)

omit [DecidableEq β] in
/-- The first of a line stand at the first places held. -/
theorem line_page (h : q.Orderly about belongs) (most : ℕ) :
    (q.page 0 most).filterMap (fun n => (q.entry n).map about) = (q.line about).take most := by
  have htake : ∀ (places : List ℕ) (most : ℕ), (∀ n ∈ places, ∃ e, q.entry n = some e) →
      (places.take most).filterMap (fun n => (q.entry n).map about) =
        (places.filterMap fun n => (q.entry n).map about).take most := by
    intro places most hplaces
    induction places generalizing most with
    | nil => simp
    | cons n places ih =>
        cases most with
        | zero => rfl
        | succ most =>
            obtain ⟨e, he⟩ := hplaces n (by simp)
            have hrest := ih most fun m hm => hplaces m (by simp [hm])
            simp [he, hrest]
  exact htake _ most fun n hn => (mem_held h).mp (mem_from.mp hn).1

end Numbered

end XmipPersist
