import XmipPersist.Model.Waiting

/-! # One caller leads, and every write is answered once

The writes are taken in the order they were submitted and answered in the order they were taken, so a
caller's number tells where its write is: answered, in the batch being decided, or waiting. Only the
caller that leads is anywhere but waiting for its answer.
-/

namespace XmipPersist.Waiting

variable {ω ρ : Type} {s s' : Waiting ω ρ} {leader : Option ℕ} {i j : ℕ}

/-! ## What holds of every state reached -/

/-- Every write taken, in the order they were. -/
def taken (s : Waiting ω ρ) : List (ω × ℕ) := s.groups.flatten

/-- Where the caller that leads is, by where its own write is. -/
inductive Stage (s : Waiting ω ρ) (i : ℕ) : Prop
  | told (hcaller : s.caller i = .waits) (hslot : s.slot i = some .lead)
      (hfirst : i = s.taken.length) (hwaits : i < s.submitted.length)
      (hlevel : s.answers.length = s.taken.length) (hwriter : s.writer = none)
  | locks (hcaller : s.caller i = .locks) (hslot : s.slot i = none)
      (hfirst : i = s.taken.length) (hwaits : i < s.submitted.length)
      (hlevel : s.answers.length = s.taken.length) (hwriter : s.writer = none)
  | takes (hcaller : s.caller i = .takes) (hslot : s.slot i = none)
      (hfirst : i = s.taken.length) (hwaits : i < s.submitted.length)
      (hlevel : s.answers.length = s.taken.length) (hwriter : s.writer = some i)
  | commits (left : List (ω × ℕ)) (hcaller : s.caller i = .commits left)
      (hslot : s.answers.length ≤ i → s.slot i = none) (htaken : i < s.taken.length)
      (hleft : left = s.taken.drop s.answers.length) (hwriter : s.writer = some i)
  | looks (hcaller : s.caller i = .looks) (htaken : i < s.taken.length)
      (hlevel : s.answers.length = s.taken.length) (hwriter : s.writer = some i)
  | hands (own : Except PersistError ρ) (hcaller : s.caller i = .hands own)
      (htaken : i < s.taken.length) (hlevel : s.answers.length = s.taken.length)
      (hwriter : s.writer = none)

/-- How an answered caller has its answer: on its channel, or in hand. -/
inductive Has (s : Waiting ω ρ) (i : ℕ) (said : Option (Except PersistError ρ)) : Prop
  | slot (hslot : s.slot i = said.map .decided)
      (hcaller : s.caller i = .waits ∨ s.caller i = .looks ∨ ∃ left, s.caller i = .commits left)
  | own (hslot : s.slot i = none)
      (hcaller : s.caller i = .hands (said.getD (.error failed)) ∨
        s.caller i = .done (said.getD (.error failed)))

/-- The writes taken and answered, and where every caller is, the one that leads apart. -/
structure Sound (s : Waiting ω ρ) (leader : Option ℕ) : Prop where
  order : s.submitted.zipIdx = s.taken ++ s.writes
  groups : ∀ group ∈ s.groups, group ≠ [] ∧ group.length ≤ groupMost
  answers : s.answers.map Prod.fst = s.taken.take s.answers.length
  fresh : ∀ i, s.submitted.length ≤ i → s.caller i = .idle ∧ s.slot i = none ∧ s.closed i = false
  waits : ∀ i, s.answers.length ≤ i → i < s.submitted.length → s.closed i = false ∧
    (s.slot i = none ∨ leader = some i) ∧ (s.caller i = .waits ∨ leader = some i)
  answered : ∀ i, i < s.answers.length → s.closed i = true ∧
    ∃ write said, s.answers[i]? = some (write, said) ∧ Has s i said
  others : ∀ i, leader ≠ some i →
    (s.caller i = .idle ∨ s.caller i = .waits ∨ ∃ own, s.caller i = .done own) ∧
      s.slot i ≠ some .lead
  leading : s.leading = leader.isSome
  leads : ∀ i, leader = some i → Stage s i
  still : leader = none →
    s.writes = [] ∧ s.answers.length = s.taken.length ∧ s.writer = none

namespace Sound

theorem length_eq (h : Sound s leader) :
    s.submitted.length = s.taken.length + s.writes.length := by
  have hlength := congrArg List.length h.order
  simpa using hlength

theorem answered_le (h : Sound s leader) : s.answers.length ≤ s.taken.length := by
  have hlength := congrArg List.length h.answers
  rw [List.length_map, List.length_take] at hlength
  omega

/-- A write taken is that of its number. -/
theorem taken_index (h : Sound s leader) {n : ℕ} {write : ω × ℕ} (hn : s.taken[n]? = some write) :
    write.2 = n ∧ s.submitted[n]? = some write.1 := by
  have hsubmitted : s.submitted.zipIdx[n]? = some write := by
    rw [h.order, List.getElem?_append_left (List.getElem?_eq_some_iff.mp hn).1]
    exact hn
  rw [List.getElem?_zipIdx] at hsubmitted
  simp only [Option.map_eq_some_iff, Nat.zero_add] at hsubmitted
  obtain ⟨op, hop, rfl⟩ := hsubmitted
  exact ⟨rfl, hop⟩

theorem writes_index (h : Sound s leader) {n : ℕ} {write : ω × ℕ}
    (hn : s.writes[n]? = some write) : write.2 = s.taken.length + n := by
  have hsubmitted : s.submitted.zipIdx[s.taken.length + n]? = some write := by
    rw [h.order, List.getElem?_append_right (Nat.le_add_right _ _), Nat.add_sub_cancel_left]
    exact hn
  rw [List.getElem?_zipIdx] at hsubmitted
  simp only [Option.map_eq_some_iff, Nat.zero_add] at hsubmitted
  obtain ⟨op, hop, rfl⟩ := hsubmitted
  rfl

theorem new : Sound (.new : Waiting ω ρ) none where
  order := rfl
  groups _ h := by cases h
  answers := rfl
  fresh _ _ := ⟨rfl, rfl, rfl⟩
  waits _ _ h := by cases h
  answered _ h := by cases h
  others _ _ := ⟨.inl rfl, nofun⟩
  leading := rfl
  leads _ h := by cases h
  still _ := ⟨rfl, rfl, rfl⟩

end Sound

/-! ## Steps of one caller -/

/-- The stage of a caller is that of its own place and channel, and of what was taken and answered. -/
theorem Stage.congr (h : Stage s i) (hcaller : s'.caller i = s.caller i)
    (hslot : s'.slot i = s.slot i) (htaken : s'.taken = s.taken)
    (hanswers : s'.answers = s.answers)
    (hsubmitted : s.submitted.length ≤ s'.submitted.length) (hwriter : s'.writer = s.writer) :
    Stage s' i := by
  cases h with
  | told hc hs hfirst hwaits hlevel hw =>
      exact .told (hcaller.trans hc) (hslot.trans hs) (by rwa [htaken]) (by omega)
        (by rwa [hanswers, htaken]) (hwriter.trans hw)
  | locks hc hs hfirst hwaits hlevel hw =>
      exact .locks (hcaller.trans hc) (hslot.trans hs) (by rwa [htaken]) (by omega)
        (by rwa [hanswers, htaken]) (hwriter.trans hw)
  | takes hc hs hfirst hwaits hlevel hw =>
      exact .takes (hcaller.trans hc) (hslot.trans hs) (by rwa [htaken]) (by omega)
        (by rwa [hanswers, htaken]) (hwriter.trans hw)
  | commits left hc hs hin hleft hw =>
      exact .commits left (hcaller.trans hc) (by rwa [hanswers, hslot]) (by rwa [htaken])
        (by rwa [hanswers, htaken]) (hwriter.trans hw)
  | looks hc hin hlevel hw =>
      exact .looks (hcaller.trans hc) (by rwa [htaken]) (by rwa [hanswers, htaken])
        (hwriter.trans hw)
  | hands own hc hin hlevel hw =>
      exact .hands own (hcaller.trans hc) (by rwa [htaken]) (by rwa [hanswers, htaken])
        (hwriter.trans hw)

theorem Has.congr {said : Option (Except PersistError ρ)} (h : Has s i said)
    (hcaller : s'.caller i = s.caller i) (hslot : s'.slot i = s.slot i) : Has s' i said := by
  cases h with
  | slot h hwaits =>
      rw [← hcaller] at hwaits
      exact .slot (hslot.trans h) hwaits
  | own h hown =>
      rw [← hcaller] at hown
      exact .own (hslot.trans h) hown

/-- An answered caller that has not its answer in hand has it on its channel. -/
theorem Has.on_slot {said : Option (Except PersistError ρ)} (h : Has s i said)
    (hhands : s.caller i ≠ .hands (said.getD (.error failed)))
    (hdone : s.caller i ≠ .done (said.getD (.error failed))) : s.slot i = said.map .decided := by
  cases h with
  | slot hslot => exact hslot
  | own _ hown => exact (hown.elim hhands hdone).elim

/-- One caller goes on, with what its channel holds then, and who holds the writer. -/
def moved (s : Waiting ω ρ) (i : ℕ) (caller : Caller ω ρ) (slot : Option (Answer ρ))
    (writer : Option ℕ) : Waiting ω ρ :=
  { s with
    caller := Function.update s.caller i caller
    slot := Function.update s.slot i slot
    writer := writer }

theorem placed_eq_moved (caller : Caller ω ρ) :
    s.placed i caller = s.moved i caller (s.slot i) s.writer := by
  simp [placed, moved]

theorem Sound.leader_submitted (h : Sound s (some i)) : i < s.submitted.length := by
  have hlength := h.length_eq
  cases h.leads i rfl with
  | told _ _ _ hwaits => exact hwaits
  | locks _ _ _ hwaits => exact hwaits
  | takes _ _ _ hwaits => exact hwaits
  | commits _ _ _ hin => omega
  | looks _ hin => omega
  | hands _ _ hin => omega

theorem not_answered (hi : s.answers.length ≤ i) {write : ω × ℕ}
    {said : Option (Except PersistError ρ)} (hsaid : s.answers[i]? = some (write, said)) : False :=
  absurd (List.getElem?_eq_some_iff.mp hsaid).1 (not_lt.mpr hi)

/-- A step of the caller that leads. -/
theorem Sound.leads_on (h : Sound s (some i)) {caller : Caller ω ρ} {slot : Option (Answer ρ)}
    {writer : Option ℕ} (hstage : Stage (s.moved i caller slot writer) i)
    (hhas : ∀ write said, s.answers[i]? = some (write, said) → Has s i said →
      Has (s.moved i caller slot writer) i said) :
    Sound (s.moved i caller slot writer) (some i) where
  order := h.order
  groups := h.groups
  answers := h.answers
  fresh j hj := by
    have hlt := h.leader_submitted
    have hne : j ≠ i := fun heq => absurd hlt (not_lt.mpr (heq ▸ hj))
    simpa [moved, hne] using h.fresh j hj
  waits j hanswered hj := by
    by_cases hne : j = i
    · subst hne
      exact ⟨(h.waits j hanswered hj).1, .inr rfl, .inr rfl⟩
    · simpa [moved, hne] using h.waits j hanswered hj
  answered j hj := by
    have ⟨hclosed, write, said, hsaid, hj'⟩ := h.answered j hj
    refine ⟨hclosed, write, said, hsaid, ?_⟩
    by_cases hne : j = i
    · subst hne
      exact hhas write said hsaid hj'
    · exact hj'.congr (by simp [moved, hne]) (by simp [moved, hne])
  others j hj := by
    have hne : j ≠ i := fun heq => hj (heq ▸ rfl)
    simpa [moved, hne] using h.others j hj
  leading := h.leading
  leads j hj := by
    obtain rfl := Option.some.inj hj
    exact hstage
  still hnone := by cases hnone

/-- A caller that does not lead returns with its answer. -/
theorem Sound.returns (h : Sound s leader) (hi : leader ≠ some i) (hcaller : s.caller i = .waits)
    {said : Option (Except PersistError ρ)} {write : ω × ℕ}
    (hsaid : s.answers[i]? = some (write, said)) :
    Sound (s.moved i (.done (said.getD (.error failed))) none s.writer) leader where
  order := h.order
  groups := h.groups
  answers := h.answers
  fresh j hj := by
    have hne : j ≠ i := by
      rintro rfl
      have hidle := (h.fresh j hj).1
      rw [hcaller] at hidle
      cases hidle
    simpa [moved, hne] using h.fresh j hj
  waits j hanswered hj := by
    have hlt := (List.getElem?_eq_some_iff.mp hsaid).1
    have hne : j ≠ i := fun heq => absurd hlt (not_lt.mpr (heq ▸ hanswered))
    simpa [moved, hne] using h.waits j hanswered hj
  answered j hj := by
    have ⟨hclosed, write', said', hsaid', hj'⟩ := h.answered j hj
    refine ⟨hclosed, write', said', hsaid', ?_⟩
    by_cases hne : j = i
    · subst hne
      obtain ⟨rfl, rfl⟩ := Prod.mk.inj (Option.some.inj (hsaid.symm.trans hsaid'))
      exact .own (by simp [moved]) (.inr (by simp [moved]))
    · exact hj'.congr (by simp [moved, hne]) (by simp [moved, hne])
  others j hj := by
    by_cases hne : j = i
    · subst hne
      simp [moved]
    · simpa [moved, hne] using h.others j hj
  leading := h.leading
  leads j hj := by
    have hne : j ≠ i := fun heq => hi (heq ▸ hj)
    exact (h.leads j hj).congr (by simp [moved, hne]) (by simp [moved, hne]) rfl rfl le_rfl rfl
  still hnone := h.still hnone

/-! ## Each step -/

/-- What a caller that waits for its answer, and does not lead, is told. -/
theorem Sound.told (h : Sound s leader) (hi : leader ≠ some i) (hcaller : s.caller i = .waits)
    (hgoes : s.goes i = some s') :
    Sound s' leader ∧ ∃ own, s' = s.moved i (.done own) none s.writer := by
  rw [goes, hcaller] at hgoes
  simp only at hgoes
  have hsubmitted : i < s.submitted.length := by
    by_contra hnot
    have hidle := (h.fresh i (by omega)).1
    rw [hcaller] at hidle
    cases hidle
  by_cases hanswered : i < s.answers.length
  · have ⟨hclosed, write, said, hsaid, hhas⟩ := h.answered i hanswered
    have hreturns := h.returns hi hcaller hsaid
    have hslot := hhas.on_slot (by simp [hcaller]) (by simp [hcaller])
    cases said with
    | none =>
        simp only [hslot, Option.map_none, hclosed, if_true] at hgoes
        obtain rfl := Option.some.inj hgoes
        rw [placed_eq_moved, hslot]
        exact ⟨hreturns, _, rfl⟩
    | some decided =>
        simp only [hslot, Option.map_some] at hgoes
        obtain rfl := Option.some.inj hgoes
        exact ⟨hreturns, _, rfl⟩
  · have ⟨hclosed, hslot, _⟩ := h.waits i (by omega) hsubmitted
    have hnone : s.slot i = none := hslot.resolve_right hi
    simp [hnone, hclosed] at hgoes

/-- The caller that leads takes the writes waiting. -/
theorem Sound.takes (h : Sound s (some i)) (hslot : s.slot i = none)
    (hfirst : i = s.taken.length) (hlevel : s.answers.length = s.taken.length)
    (hwriter : s.writer = some i) (hne : s.writes ≠ []) :
    Sound ({ s with
      writes := s.writes.drop groupMost
      groups := s.groups ++ [s.writes.take groupMost] }.placed i
        (.commits (s.writes.take groupMost))) (some i) := by
  have hlt := h.leader_submitted
  have htaken : taken ({ s with
      writes := s.writes.drop groupMost
      groups := s.groups ++ [s.writes.take groupMost] }.placed i
        (.commits (s.writes.take groupMost))) = s.taken ++ s.writes.take groupMost := by
    simp [taken, placed]
  have hpos : 0 < (s.writes.take groupMost).length := by
    rw [List.length_take]
    exact lt_min (by decide) (List.length_pos_iff.mpr hne)
  constructor
  · rw [htaken, List.append_assoc]
    simpa [placed] using h.order
  · intro group hgroup
    rcases List.mem_append.mp hgroup with hgroup | hgroup
    · exact h.groups group hgroup
    · obtain rfl := List.mem_singleton.mp hgroup
      exact ⟨List.ne_nil_of_length_pos hpos, List.length_take_le _ _⟩
  · rw [htaken]
    have hanswers := h.answers
    have hle := h.answered_le
    change s.answers.map Prod.fst = (s.taken ++ s.writes.take groupMost).take s.answers.length
    rw [List.take_append_of_le_length hle]
    exact hanswers
  · intro j hj
    have hne : j ≠ i := fun heq => absurd hlt (not_lt.mpr (heq ▸ hj))
    simpa [placed, hne] using h.fresh j hj
  · intro j hanswered hj
    have hwaits := h.waits j hanswered hj
    by_cases hne : j = i
    · subst hne
      exact ⟨hwaits.1, .inr rfl, .inr rfl⟩
    · simpa [placed, hne] using hwaits
  · intro j hj
    have ⟨hclosed, write, said, hsaid, hhas⟩ := h.answered j hj
    have hj : j < s.answers.length := hj
    have hne : j ≠ i := by omega
    exact ⟨hclosed, write, said, hsaid, hhas.congr (by simp [placed, hne]) rfl⟩
  · intro j hj
    have hne : j ≠ i := fun heq => hj (heq ▸ rfl)
    simpa [placed, hne] using h.others j hj
  · exact h.leading
  · intro j hj
    obtain rfl := Option.some.inj hj
    apply Stage.commits (s.writes.take groupMost)
    · simp [placed]
    · exact fun _ => hslot
    · rw [htaken, List.length_append]
      omega
    · rw [htaken]
      change s.writes.take groupMost = (s.taken ++ s.writes.take groupMost).drop s.answers.length
      rw [hlevel, List.drop_left]
    · exact hwriter
  · intro hnone
    cases hnone

/-- A caller that leads returns, its answer in hand. -/
theorem Has.in_hand {said : Option (Except PersistError ρ)} (h : Has s i said)
    {own : Except PersistError ρ} (hcaller : s.caller i = .hands own) :
    s.slot i = none ∧ own = said.getD (.error failed) := by
  cases h with
  | slot _ hcaller' => simp [hcaller] at hcaller'
  | own hslot hcaller' =>
      rw [hcaller] at hcaller'
      rcases hcaller' with hown | hown
      · exact ⟨hslot, Caller.hands.inj hown⟩
      · cases hown

/-- The caller that leads returns, and no other leads but one that is told to. -/
theorem Sound.handed (h : Sound s (some i)) {own : Except PersistError ρ}
    (hcaller : s.caller i = .hands own) (htaken : i < s.taken.length)
    (hlevel : s.answers.length = s.taken.length) (hwriter : s.writer = none)
    (leader : Option ℕ) (slot : ℕ → Option (Answer ρ)) {leading : Bool}
    (hleading : leading = leader.isSome) (hslot : ∀ j, leader ≠ some j → slot j = s.slot j)
    (hleader : ∀ j, leader = some j → j = s.taken.length ∧ j < s.submitted.length ∧
      slot j = some .lead)
    (hnone : leader = none → s.writes = []) :
    Sound ({ s with slot, leading }.placed i (.done own)) leader := by
  have hlt := h.leader_submitted
  have hnot : leader ≠ some i := fun heq => by
    have := (hleader i heq).1
    omega
  have hslots : ∀ j, j ≠ s.taken.length → slot j = s.slot j := fun j hj =>
    hslot j fun heq => hj (hleader j heq).1
  constructor
  · exact h.order
  · exact h.groups
  · exact h.answers
  · intro j hj
    have hj : s.submitted.length ≤ j := hj
    have hlength := h.length_eq
    have hne : j ≠ i := by omega
    have hslot' : slot j = s.slot j := hslot j fun heq => by
      have := (hleader j heq).2.1
      omega
    simpa [placed, hne, hslot'] using h.fresh j hj
  · intro j hanswered hj
    have hanswered : s.answers.length ≤ j := hanswered
    have hne : j ≠ i := by omega
    have ⟨hclosed, hfree, hwaits⟩ := h.waits j hanswered hj
    have hwaits : s.caller j = .waits := hwaits.resolve_right fun heq => hne (Option.some.inj heq).symm
    have hfree : s.slot j = none := hfree.resolve_right fun heq => hne (Option.some.inj heq).symm
    refine ⟨hclosed, ?_, .inl (by simpa [placed, hne] using hwaits)⟩
    by_cases hleads : leader = some j
    · exact .inr hleads
    · exact .inl ((hslot j hleads).trans hfree)
  · intro j hj
    have hj : j < s.answers.length := hj
    have ⟨hclosed, write, said, hsaid, hhas⟩ := h.answered j hj
    refine ⟨hclosed, write, said, hsaid, ?_⟩
    have hslot' : slot j = s.slot j := hslots j (by omega)
    by_cases hne : j = i
    · subst hne
      have ⟨hfree, hown⟩ := hhas.in_hand hcaller
      exact .own (hslot'.trans hfree) (.inr (by simp [placed, hown]))
    · exact hhas.congr (by simp [placed, hne]) hslot'
  · intro j hj
    by_cases hne : j = i
    · subst hne
      have ⟨_, write, said, hsaid, hhas⟩ := h.answered j (by omega)
      have ⟨hfree, _⟩ := hhas.in_hand hcaller
      refine ⟨.inr (.inr ⟨own, by simp [placed]⟩), ?_⟩
      change slot j ≠ _
      rw [hslot j hj, hfree]
      nofun
    · have hothers := h.others j fun heq => hne (Option.some.inj heq).symm
      rw [← hslot j hj] at hothers
      simpa [placed, hne] using hothers
  · exact hleading
  · intro j hj
    have ⟨hfirst, hj', hlead⟩ := hleader j hj
    have hne : j ≠ i := by omega
    have hwaits := (h.waits j (by omega) hj').2.2.resolve_right
      fun heq => hne (Option.some.inj heq).symm
    exact .told (by simpa [placed, hne] using hwaits) hlead hfirst hj' hlevel hwriter
  · exact fun hno => ⟨hnone hno, hlevel, hwriter⟩

/-- The caller that leads hands the lead on, and returns. -/
theorem Sound.hands (h : Sound s (some i)) {own : Except PersistError ρ}
    (hcaller : s.caller i = .hands own) (htaken : i < s.taken.length)
    (hlevel : s.answers.length = s.taken.length) (hwriter : s.writer = none) :
    ∃ leader, Sound ((s.handOn s.writes).placed i (.done own)) leader := by
  have hlength := h.length_eq
  cases hwrites : s.writes with
  | nil =>
      have hhanded : Sound ({ s with slot := s.slot, leading := false }.placed i (.done own)) none :=
        h.handed hcaller htaken hlevel hwriter none s.slot rfl (fun _ _ => rfl)
          (fun _ heq => by cases heq) fun _ => hwrites
      refine ⟨none, ?_⟩
      simpa [handOn, placed, hwrites] using hhanded
  | cons write rest =>
      have hfirst : write.2 = s.taken.length := h.writes_index (n := 0) (by simp [hwrites])
      rw [hwrites, List.length_cons] at hlength
      have hj : write.2 < s.submitted.length := by omega
      have ⟨_, hfree, hwaits⟩ := h.waits write.2 (by omega) hj
      have hne : some i ≠ some write.2 := fun heq => by
        have := Option.some.inj heq
        omega
      have hfree := hfree.resolve_right hne
      have hwaits := hwaits.resolve_right hne
      have hhanded : Sound ({ s with
          slot := Function.update s.slot write.2 (some .lead), leading := true }.placed i
            (.done own)) (some write.2) := by
        apply h.handed hcaller htaken hlevel hwriter (some write.2) _ rfl
        · intro j hne'
          exact Function.update_of_ne (fun heq : j = write.2 => hne' (heq ▸ rfl)) _ _
        · intro j hj'
          obtain rfl := Option.some.inj hj'
          exact ⟨hfirst, hj, Function.update_self _ _ _⟩
        · nofun
      refine ⟨some write.2, ?_⟩
      have hleading : s.leading = true := h.leading
      simpa [handOn, placed, hfree, hwaits, returned, hwrites, hleading] using hhanded

theorem Sound.leader_goes (h : Sound s (some i)) (hgoes : s.goes i = some s') :
    ∃ leader, Sound s' leader := by
  cases h.leads i rfl with
  | told hcaller hslot hfirst hwaits hlevel hwriter =>
      simp only [goes, hcaller, hslot] at hgoes
      obtain rfl := Option.some.inj hgoes
      have hstage : Stage (s.moved i .locks none s.writer) i :=
        .locks (by simp [moved]) (by simp [moved]) hfirst hwaits hlevel hwriter
      have hle : s.answers.length ≤ i := by omega
      exact ⟨some i, h.leads_on hstage fun _ _ hsaid => (not_answered hle hsaid).elim⟩
  | locks hcaller hslot hfirst hwaits hlevel hwriter =>
      simp only [goes, hcaller, hwriter, Option.isNone_none, if_true] at hgoes
      obtain rfl := Option.some.inj hgoes
      have hstage : Stage (s.moved i .takes (s.slot i) (some i)) i :=
        .takes (by simp [moved]) (by simp [moved, hslot]) hfirst hwaits hlevel rfl
      have hle : s.answers.length ≤ i := by omega
      have hon := h.leads_on hstage fun _ _ hsaid => (not_answered hle hsaid).elim
      refine ⟨some i, ?_⟩
      rw [placed_eq_moved]
      exact hon
  | takes hcaller hslot hfirst hwaits hlevel hwriter =>
      have hlength := h.length_eq
      have hne : s.writes ≠ [] := by
        rintro hnil
        rw [hnil, List.length_nil] at hlength
        omega
      simp only [goes, hcaller, List.isEmpty_iff, hne, if_false] at hgoes
      obtain rfl := Option.some.inj hgoes
      exact ⟨some i, h.takes hslot hfirst hlevel hwriter hne⟩
  | commits left hcaller hslot htaken hleft hwriter =>
      cases left with
      | cons => simp [goes, hcaller] at hgoes
      | nil =>
          simp only [goes, hcaller] at hgoes
          obtain rfl := Option.some.inj hgoes
          have hle := h.answered_le
          have hlevel : s.answers.length = s.taken.length := by
            have hdrop := List.drop_eq_nil_iff.mp hleft.symm
            omega
          have hstage : Stage (s.moved i .looks (s.slot i) s.writer) i :=
            .looks (by simp [moved]) htaken hlevel hwriter
          refine ⟨some i, ?_⟩
          rw [placed_eq_moved]
          apply h.leads_on hstage
          intro _ said _ hhas
          cases hhas with
          | slot hslot => exact .slot (by simp [moved, hslot]) (.inr (.inl (by simp [moved])))
          | own _ hown => simp [hcaller] at hown
  | looks hcaller htaken hlevel hwriter =>
      have ⟨hclosed, write, said, hsaid, hhas⟩ := h.answered i (by omega)
      have hslot := hhas.on_slot (by simp [hcaller]) (by simp [hcaller])
      have hstage : Stage (s.moved i (.hands (said.getD (.error failed))) none none) i :=
        .hands (said.getD (.error failed)) (by simp [moved]) htaken hlevel rfl
      have hon := h.leads_on hstage fun write' said' hsaid' _ => by
        obtain ⟨rfl, rfl⟩ := Prod.mk.inj (Option.some.inj (hsaid.symm.trans hsaid'))
        exact .own (by simp [moved]) (.inl (by simp [moved]))
      refine ⟨some i, ?_⟩
      cases said with
      | none =>
          simp only [goes, hcaller, hslot, Option.map_none, hclosed, if_true] at hgoes
          obtain rfl := Option.some.inj hgoes
          rw [placed_eq_moved]
          simpa [moved, hslot] using hon
      | some decided =>
          simp only [goes, hcaller, hslot, Option.map_some] at hgoes
          obtain rfl := Option.some.inj hgoes
          exact hon
  | hands own hcaller htaken hlevel hwriter =>
      simp only [goes, hcaller] at hgoes
      obtain rfl := Option.some.inj hgoes
      exact h.hands hcaller htaken hlevel hwriter

/-- A write submitted where one leads waits behind those that do. -/
theorem Sound.joins (h : Sound s (some i)) (op : ω) :
    Sound ({ s with
      writes := s.writes ++ [(op, s.submitted.length)]
      leading := true
      submitted := s.submitted ++ [op] }.placed s.submitted.length .waits) (some i) := by
  have hlt := h.leader_submitted
  have hle := h.answered_le
  have hlength := h.length_eq
  have ⟨hidle, hfree, hopen⟩ := h.fresh _ le_rfl
  constructor
  · change (s.submitted ++ [op]).zipIdx = s.taken ++ (s.writes ++ [(op, s.submitted.length)])
    rw [List.zipIdx_append, h.order, ← List.append_assoc]
    simp
  · exact h.groups
  · exact h.answers
  · intro j hj
    have hj : (s.submitted ++ [op]).length ≤ j := hj
    rw [List.length_append, List.length_singleton] at hj
    have hne : j ≠ s.submitted.length := by omega
    simpa [placed, hne] using h.fresh j (by omega)
  · intro j hanswered hj
    have hj : j < (s.submitted ++ [op]).length := hj
    rw [List.length_append, List.length_singleton] at hj
    by_cases hne : j = s.submitted.length
    · subst hne
      exact ⟨hopen, .inl hfree, .inl (by simp [placed])⟩
    · simpa [placed, hne] using h.waits j hanswered (by omega)
  · intro j hj
    have hj : j < s.answers.length := hj
    have ⟨hclosed, write, said, hsaid, hhas⟩ := h.answered j hj
    have hne : j ≠ s.submitted.length := by omega
    exact ⟨hclosed, write, said, hsaid, hhas.congr (by simp [placed, hne]) rfl⟩
  · intro j hj
    by_cases hne : j = s.submitted.length
    · subst hne
      exact ⟨.inr (.inl (by simp [placed])), by simp [placed, hfree]⟩
    · simpa [placed, hne] using h.others j hj
  · rfl
  · intro j hj
    obtain rfl := Option.some.inj hj
    have hne : i ≠ s.submitted.length := by omega
    exact (h.leads i rfl).congr (by simp [placed, hne]) rfl rfl rfl (by simp [placed]) rfl
  · intro hnone
    cases hnone

/-- A write submitted where none leads is the only one, and its caller leads. -/
theorem Sound.begins (h : Sound s none) (op : ω) :
    Sound ({ s with
      writes := s.writes ++ [(op, s.submitted.length)]
      leading := true
      submitted := s.submitted ++ [op] }.placed s.submitted.length .locks)
      (some s.submitted.length) := by
  have hle := h.answered_le
  have hlength := h.length_eq
  have ⟨hidle, hfree, hopen⟩ := h.fresh _ le_rfl
  have ⟨hnil, hlevel, hwriter⟩ := h.still rfl
  rw [hnil, List.length_nil, Nat.add_zero] at hlength
  constructor
  · change (s.submitted ++ [op]).zipIdx = s.taken ++ (s.writes ++ [(op, s.submitted.length)])
    rw [List.zipIdx_append, h.order, ← List.append_assoc]
    simp
  · exact h.groups
  · exact h.answers
  · intro j hj
    have hj : (s.submitted ++ [op]).length ≤ j := hj
    rw [List.length_append, List.length_singleton] at hj
    have hne : j ≠ s.submitted.length := by omega
    simpa [placed, hne] using h.fresh j (by omega)
  · intro j hanswered hj
    have hanswered : s.answers.length ≤ j := hanswered
    have hj : j < (s.submitted ++ [op]).length := hj
    rw [List.length_append, List.length_singleton] at hj
    obtain rfl : j = s.submitted.length := by omega
    exact ⟨hopen, .inr rfl, .inr rfl⟩
  · intro j hj
    have hj : j < s.answers.length := hj
    have ⟨hclosed, write, said, hsaid, hhas⟩ := h.answered j hj
    have hne : j ≠ s.submitted.length := by omega
    exact ⟨hclosed, write, said, hsaid, hhas.congr (by simp [placed, hne]) rfl⟩
  · intro j hj
    have hne : j ≠ s.submitted.length := fun heq => hj (heq ▸ rfl)
    simpa [placed, hne] using h.others j nofun
  · rfl
  · intro j hj
    obtain rfl := Option.some.inj hj
    exact .locks (by simp [placed]) hfree hlength (by simp [placed]) hlevel hwriter
  · intro hnone
    cases hnone

/-- A write is submitted: its caller leads where none did. -/
theorem Sound.submits (h : Sound s leader) (op : ω) (hsubmits : s.after (.decided op) = some s') :
    ∃ leader', Sound s' leader' := by
  have hleading := h.leading
  obtain rfl := Option.some.inj hsubmits
  cases leader with
  | none =>
      rw [hleading]
      exact ⟨_, h.begins op⟩
  | some i =>
      rw [hleading]
      exact ⟨_, h.joins op⟩

/-- Only the caller that leads decides a batch. -/
theorem Sound.commits (h : Sound s leader) {left : List (ω × ℕ)}
    (hcaller : s.caller i = .commits left) :
    leader = some i ∧ (s.answers.length ≤ i → s.slot i = none) ∧ i < s.taken.length ∧
      left = s.taken.drop s.answers.length ∧ s.writer = some i := by
  have hleads : leader = some i := by
    by_contra hnot
    simpa [hcaller] using (h.others i hnot).1
  refine ⟨hleads, ?_⟩
  cases h.leads i hleads with
  | commits left' hcaller' hslot htaken hleft hwriter =>
      obtain rfl := Caller.commits.inj (hcaller.symm.trans hcaller')
      exact ⟨hslot, htaken, hleft, hwriter⟩
  | told hcaller' => simp [hcaller] at hcaller'
  | locks hcaller' => simp [hcaller] at hcaller'
  | takes hcaller' => simp [hcaller] at hcaller'
  | looks hcaller' => simp [hcaller] at hcaller'
  | hands _ hcaller' => simp [hcaller] at hcaller'

/-- A caller whose write is not answered has been told nothing, but to lead. -/
theorem Sound.silent (h : Sound s (some i)) (hi : s.answers.length ≤ i → s.slot i = none)
    (hj : s.answers.length ≤ j) (hsubmitted : j < s.submitted.length) : s.slot j = none := by
  by_cases hne : j = i
  · subst hne
    exact hi hj
  · exact (h.waits j hj hsubmitted).2.1.resolve_right fun heq => hne (Option.some.inj heq).symm

/-- The next write of the batch being decided is answered. -/
theorem Sound.answer (h : Sound s (some i)) {op : ω} {rest : List (ω × ℕ)}
    (hcaller : s.caller i = .commits ((op, j) :: rest)) (decided : Except PersistError ρ) :
    Sound ({ s with
      slot := Function.update s.slot j (some (.decided decided))
      closed := Function.update s.closed j true
      answers := s.answers ++ [((op, j), some decided)] }.placed i (.commits rest)) (some i) := by
  have ⟨_, hslot, htaken, hleft, hwriter⟩ := h.commits hcaller
  have hlt := h.leader_submitted
  have hlength := h.length_eq
  have hnext : s.taken[s.answers.length]? = some (op, j) := by
    rw [← List.head?_drop, ← hleft]
    rfl
  have hj : j = s.answers.length := (h.taken_index hnext).1
  have hin : s.answers.length < s.taken.length := (List.getElem?_eq_some_iff.mp hnext).1
  have hrest : rest = s.taken.drop (s.answers.length + 1) := by
    rw [← List.tail_drop, ← hleft]
    rfl
  constructor
  · exact h.order
  · exact h.groups
  · change (s.answers ++ [((op, j), some decided)]).map Prod.fst =
      s.taken.take (s.answers ++ [((op, j), some decided)]).length
    rw [List.map_append, h.answers, List.length_append, List.length_singleton,
      List.take_add_one, hnext]
    rfl
  · intro k hk
    have hk : s.submitted.length ≤ k := hk
    have hki : k ≠ i := by omega
    have hkj : k ≠ j := by omega
    simpa [placed, hki, hkj] using h.fresh k hk
  · intro k hanswered hk
    have hanswered : (s.answers ++ [((op, j), some decided)]).length ≤ k := hanswered
    rw [List.length_append, List.length_singleton] at hanswered
    have hkj : k ≠ j := by omega
    have hwaits := h.waits k (by omega) hk
    by_cases hki : k = i
    · subst hki
      exact ⟨by simpa [placed, hkj] using hwaits.1, .inr rfl, .inr rfl⟩
    · simpa [placed, hki, hkj] using hwaits
  · intro k hk
    have hk : k < (s.answers ++ [((op, j), some decided)]).length := hk
    rw [List.length_append, List.length_singleton] at hk
    by_cases hkj : k = j
    · subst hkj
      refine ⟨by simp [placed], (op, k), some decided, by simp [placed, hj], .slot ?_ ?_⟩
      · simp [placed]
      · by_cases hki : k = i
        · subst hki
          exact .inr (.inr ⟨rest, by simp [placed]⟩)
        · have hwaits := (h.waits k (by omega) (by omega)).2.2.resolve_right
            fun heq => hki (Option.some.inj heq).symm
          exact .inl (by simpa [placed, hki] using hwaits)
    · have hanswered : k < s.answers.length := by omega
      have ⟨hclosed, write, said, hsaid, hhas⟩ := h.answered k hanswered
      refine ⟨by simpa [placed, hkj] using hclosed, write, said, ?_, ?_⟩
      · change (s.answers ++ [((op, j), some decided)])[k]? = _
        rw [List.getElem?_append_left hanswered]
        exact hsaid
      · by_cases hki : k = i
        · subst hki
          cases hhas with
          | slot hfree =>
              exact .slot (by simpa [placed, hkj] using hfree)
                (.inr (.inr ⟨rest, by simp [placed]⟩))
          | own _ hown => simp [hcaller] at hown
        · exact hhas.congr (by simp [placed, hki]) (by simp [placed, hkj])
  · intro k hk
    have hki : k ≠ i := fun heq => hk (heq ▸ rfl)
    have hothers := h.others k hk
    by_cases hkj : k = j
    · subst hkj
      simpa [placed, hki] using hothers.1
    · simpa [placed, hki, hkj] using hothers
  · exact h.leading
  · intro k hk
    obtain rfl := Option.some.inj hk
    apply Stage.commits rest
    · simp [placed]
    · intro hanswered
      have hanswered : (s.answers ++ [((op, j), some decided)]).length ≤ i := hanswered
      rw [List.length_append, List.length_singleton] at hanswered
      have hij : i ≠ j := by omega
      simpa [placed, hij] using hslot (by omega)
    · exact htaken
    · change rest = s.taken.drop (s.answers ++ [((op, j), some decided)]).length
      rw [List.length_append, List.length_singleton]
      exact hrest
    · exact hwriter
  · intro hnone
    cases hnone

/-- The batch being decided panics, and drops the replies of the writes it did not answer. -/
theorem Sound.panic (h : Sound s (some i)) {left : List (ω × ℕ)}
    (hcaller : s.caller i = .commits left) :
    Sound ({ s with
      closed := fun j => s.closed j || left.any fun write => write.2 == j
      answers := s.answers ++ left.map fun write => (write, none) }.placed i .looks) (some i) := by
  have ⟨_, hslot, htaken, hleft, hwriter⟩ := h.commits hcaller
  have hlt := h.leader_submitted
  have hlength := h.length_eq
  have hle := h.answered_le
  have hlevel : (s.answers ++ left.map fun write =>
      ((write, none) : (ω × ℕ) × Option (Except PersistError ρ))).length = s.taken.length := by
    rw [List.length_append, List.length_map, hleft, List.length_drop]
    omega
  have hnumber : ∀ {n : ℕ} {write : ω × ℕ}, left[n]? = some write →
      write.2 = s.answers.length + n := by
    intro n write hn
    rw [hleft, List.getElem?_drop] at hn
    exact (h.taken_index hn).1
  have hleftlength : s.answers.length + left.length = s.taken.length := by
    rw [hleft, List.length_drop]
    omega
  have hbelow : ∀ k, s.taken.length ≤ k → (left.any fun write => write.2 == k) = false := by
    intro k hk
    rw [List.any_eq_false]
    intro write hwrite
    obtain ⟨n, hn⟩ := List.mem_iff_getElem?.mp hwrite
    have hnlt := (List.getElem?_eq_some_iff.mp hn).1
    have hwrite := hnumber hn
    simp only [beq_iff_eq]
    omega
  constructor
  · exact h.order
  · exact h.groups
  · change (s.answers ++ left.map fun write => (write, none)).map Prod.fst =
      s.taken.take (s.answers ++ left.map fun write => (write, none)).length
    have hmap : (left.map fun write =>
        ((write, none) : (ω × ℕ) × Option (Except PersistError ρ))).map Prod.fst = left := by
      simp [Function.comp_def]
    rw [hlevel, List.take_length, List.map_append, h.answers, hmap, hleft, List.take_append_drop]
  · intro k hk
    have hk : s.submitted.length ≤ k := hk
    have hki : k ≠ i := by omega
    simpa [placed, hki, hbelow k (by omega)] using h.fresh k hk
  · intro k hanswered hk
    have hanswered : s.taken.length ≤ k := hlevel ▸ hanswered
    have hki : k ≠ i := by omega
    simpa [placed, hki, hbelow k hanswered] using h.waits k (by omega) hk
  · intro k hk
    have hk : k < s.taken.length := hlevel ▸ hk
    by_cases hanswered : k < s.answers.length
    · have ⟨hclosed, write, said, hsaid, hhas⟩ := h.answered k hanswered
      refine ⟨by simp [placed, hclosed], write, said, ?_, ?_⟩
      · change (s.answers ++ left.map fun write => (write, none))[k]? = _
        rw [List.getElem?_append_left hanswered]
        exact hsaid
      · by_cases hki : k = i
        · subst hki
          cases hhas with
          | slot hfree => exact .slot hfree (.inr (.inl (by simp [placed])))
          | own _ hown => simp [hcaller] at hown
        · exact hhas.congr (by simp [placed, hki]) rfl
    · -- a write the batch did not answer: its caller finds its reply dropped
      obtain ⟨write, hwrite⟩ : ∃ write, left[k - s.answers.length]? = some write :=
        ⟨_, List.getElem?_eq_getElem (by omega)⟩
      have hnumbered := hnumber hwrite
      have hany : (left.any fun write => write.2 == k) = true := by
        rw [List.any_eq_true]
        refine ⟨write, List.mem_of_getElem? hwrite, ?_⟩
        simp only [beq_iff_eq]
        omega
      refine ⟨by simp [placed, hany], write, none, ?_, .slot ?_ ?_⟩
      · change (s.answers ++ left.map fun write => (write, none))[k]? = _
        rw [List.getElem?_append_right (by omega), List.getElem?_map, hwrite]
        rfl
      · exact h.silent hslot (by omega) (by omega)
      · by_cases hki : k = i
        · subst hki
          exact .inr (.inl (by simp [placed]))
        · have hwaits := (h.waits k (by omega) (by omega)).2.2.resolve_right
            fun heq => hki (Option.some.inj heq).symm
          exact .inl (by simpa [placed, hki] using hwaits)
  · intro k hk
    have hki : k ≠ i := fun heq => hk (heq ▸ rfl)
    simpa [placed, hki] using h.others k hk
  · exact h.leading
  · intro k hk
    obtain rfl := Option.some.inj hk
    exact .looks (by simp [placed]) htaken hlevel hwriter
  · intro hnone
    cases hnone

theorem Sound.goes (h : Sound s leader) (hgoes : s.goes i = some s') :
    ∃ leader', Sound s' leader' := by
  by_cases hleads : leader = some i
  · subst hleads
    exact h.leader_goes hgoes
  · rcases (h.others i hleads).1 with hidle | hwaits | ⟨own, hdone⟩
    · simp [Waiting.goes, hidle] at hgoes
    · exact ⟨leader, (h.told hleads hwaits hgoes).1⟩
    · simp [Waiting.goes, hdone] at hgoes

theorem Sound.after (h : Sound s leader) {event : Event ω ρ} (hafter : s.after event = some s') :
    ∃ leader', Sound s' leader' := by
  cases event with
  | decided op => exact h.submits op hafter
  | goes i => exact h.goes hafter
  | answers i decided =>
      simp only [Waiting.after] at hafter
      split at hafter
      · next op j rest hcaller =>
          have ⟨hleads, _⟩ := h.commits hcaller
          subst hleads
          split at hafter
          · obtain rfl := Option.some.inj hafter
            exact ⟨some i, h.answer hcaller decided⟩
          · cases hafter
      · cases hafter
  | panics i =>
      simp only [Waiting.after] at hafter
      split at hafter
      · next left hcaller =>
          have ⟨hleads, _⟩ := h.commits hcaller
          subst hleads
          obtain rfl := Option.some.inj hafter
          exact ⟨some i, h.panic hcaller⟩
      · cases hafter

theorem Sound.run {events : List (Event ω ρ)} (h : Sound s leader)
    (hrun : s.run events = some s') : ∃ leader', Sound s' leader' := by
  induction events generalizing s leader with
  | nil => exact ⟨leader, Option.some.inj hrun ▸ h⟩
  | cons event events ih =>
      rw [Waiting.run, List.foldlM_cons] at hrun
      obtain ⟨next, hnext, hrun⟩ := Option.bind_eq_some_iff.mp hrun
      obtain ⟨leader', h'⟩ := h.after hnext
      exact ih h' hrun

end XmipPersist.Waiting
