import XmipPersist.Verification.Writer.Waiting

/-! # No write waits for ever

Whoever leads can always go on, and each of its steps brings every write not answered nearer to its
answer: the batch being decided has one write less to answer, or the next has taken those before it.
-/

namespace XmipPersist.Waiting

variable {ω ρ : Type} {s s' : Waiting ω ρ} {leader leader' : Option ℕ} {i j : ℕ}

/-! ## Who leads can go on -/

theorem Sound.leads_iff (h : Sound s leader) : s.leads i = true ↔ leader = some i := by
  constructor
  · intro hleads
    by_contra hnot
    obtain ⟨hcaller, hslot⟩ := h.others i hnot
    rcases hcaller with hcaller | hcaller | ⟨own, hcaller⟩
    · simp [Waiting.leads, hcaller] at hleads
    · cases hs : s.slot i with
      | none => simp [Waiting.leads, hcaller, hs] at hleads
      | some answer =>
          cases answer with
          | decided => simp [Waiting.leads, hcaller, hs] at hleads
          | lead => exact hslot hs
    · simp [Waiting.leads, hcaller] at hleads
  · intro hleader
    cases h.leads i hleader with
    | told hcaller hslot => simp [Waiting.leads, hcaller, hslot]
    | locks hcaller => simp [Waiting.leads, hcaller]
    | takes hcaller => simp [Waiting.leads, hcaller]
    | commits left hcaller => simp [Waiting.leads, hcaller]
    | looks hcaller => simp [Waiting.leads, hcaller]
    | hands own hcaller => simp [Waiting.leads, hcaller]

/-- The caller that leads can take a step. -/
theorem Sound.can_go (h : Sound s (some i)) :
    ∃ event : Event ω ρ, event.caller = some i ∧ (s.after event).isSome = true := by
  cases h.leads i rfl with
  | told hcaller hslot => exact ⟨.goes i, rfl, by simp [Waiting.after, Waiting.goes, hcaller, hslot]⟩
  | locks hcaller _ _ _ _ hwriter =>
      exact ⟨.goes i, rfl, by simp [Waiting.after, Waiting.goes, hcaller, hwriter]⟩
  | takes hcaller =>
      refine ⟨.goes i, rfl, ?_⟩
      by_cases hnil : s.writes = []
      · simp [Waiting.after, Waiting.goes, hcaller, hnil]
      · simp [Waiting.after, Waiting.goes, hcaller, hnil]
  | commits left hcaller => exact ⟨.panics i, rfl, by simp [Waiting.after, hcaller]⟩
  | looks hcaller =>
      refine ⟨.goes i, rfl, ?_⟩
      cases hslot : s.slot i with
      | none =>
          by_cases hclosed : s.closed i = true
          · simp [Waiting.after, Waiting.goes, hcaller, hslot, hclosed]
          · simp [Waiting.after, Waiting.goes, hcaller, hslot, hclosed]
      | some answer => cases answer <;> simp [Waiting.after, Waiting.goes, hcaller, hslot]
  | hands own hcaller => exact ⟨.goes i, rfl, by simp [Waiting.after, Waiting.goes, hcaller]⟩

/-- A caller that waits once its write is answered can return. -/
theorem Sound.can_return (h : Sound s leader) (hi : i < s.answers.length)
    (hcaller : s.caller i = .waits) : (s.goes i).isSome = true := by
  obtain ⟨hclosed, write, said, _, hhas⟩ := h.answered i hi
  cases hhas with
  | slot hslot =>
      cases said with
      | none => simp [Waiting.goes, hcaller, hslot, hclosed]
      | some decided => simp [Waiting.goes, hcaller, hslot]
  | own _ hown => simp [hcaller] at hown

/-! ## What is left before a write is answered -/

/-- How many steps the caller that leads is from taking the writes waiting, at most. -/
def Caller.rank (caller : Caller ω ρ) (slot : Option (Answer ρ)) : ℕ :=
  match caller, slot with
  | .takes, _ => 1
  | .locks, _ => 2
  | .waits, some .lead => 3
  | .hands _, _ => 4
  | .looks, _ => 5
  | .commits left, _ => 6 + left.length
  | _, _ => 0

def work (s : Waiting ω ρ) : ℕ :=
  ∑ i ∈ Finset.range s.submitted.length, (s.caller i).rank (s.slot i)

/-- How many steps of those that lead come before a write is answered, at most. -/
def left (s : Waiting ω ρ) (i : ℕ) : ℕ :=
  if i < s.taken.length then i - s.answers.length + 1
  else (groupMost + 7) * (i - s.taken.length + 1) + s.work

theorem Sound.rank_others (h : Sound s leader) (hi : leader ≠ some i) :
    (s.caller i).rank (s.slot i) = 0 := by
  obtain ⟨hcaller, hslot⟩ := h.others i hi
  rcases hcaller with hcaller | hcaller | ⟨own, hcaller⟩
  · simp [Caller.rank, hcaller]
  · cases hs : s.slot i with
    | none => simp [Caller.rank, hcaller]
    | some answer =>
        cases answer with
        | decided => simp [Caller.rank, hcaller]
        | lead => exact absurd hs hslot
  · simp [Caller.rank, hcaller]

theorem Sound.work_none (h : Sound s none) : s.work = 0 := by
  rw [work]
  exact Finset.sum_eq_zero fun i _ => h.rank_others nofun

theorem Sound.work_some (h : Sound s (some i)) : s.work = (s.caller i).rank (s.slot i) := by
  rw [work]
  apply Finset.sum_eq_single i
  · intro j _ hne
    exact h.rank_others fun heq => hne (Option.some.inj heq).symm
  · intro hnot
    exact absurd (Finset.mem_range.mpr h.leader_submitted) hnot

/-- Where nothing more is taken, a write is nearer its answer as the caller that leads is to taking
what waits. -/
theorem left_lt (htaken : s'.taken = s.taken) (hwork : s'.work < s.work)
    (hj : s.taken.length ≤ j) : s'.left j < s.left j := by
  simp only [left, htaken, not_lt.mpr hj, if_false]
  omega

theorem handOn_same (s : Waiting ω ρ) (writes : List (ω × ℕ)) :
    (s.handOn writes).groups = s.groups ∧ (s.handOn writes).caller = s.caller ∧
      (s.handOn writes).answers = s.answers ∧ (s.handOn writes).submitted = s.submitted := by
  induction writes generalizing s with
  | nil => exact ⟨rfl, rfl, rfl, rfl⟩
  | cons write writes ih =>
      rw [handOn]
      split
      · exact ⟨rfl, rfl, rfl, rfl⟩
      · exact ih _

/-- A caller that leads and is on its way to do so has not far to go. -/
theorem Sound.work_le (h : Sound s leader)
    (hothers : ∀ i, s.caller i = .idle ∨ s.caller i = .waits ∨ ∃ own, s.caller i = .done own) :
    s.work ≤ 3 := by
  cases leader with
  | none =>
      rw [h.work_none]
      exact Nat.zero_le 3
  | some i =>
      rw [h.work_some]
      cases h.leads i rfl with
      | told hcaller hslot => simp [Caller.rank, hcaller, hslot]
      | locks hcaller => simpa [hcaller] using hothers i
      | takes hcaller => simpa [hcaller] using hothers i
      | commits left hcaller => simpa [hcaller] using hothers i
      | looks hcaller => simpa [hcaller] using hothers i
      | hands own hcaller => simpa [hcaller] using hothers i

/-- What is left once the caller that leads is at a place, and leads still. -/
theorem Sound.work_at (h : Sound s leader) (hleads : s.leads i = true) :
    s.work = (s.caller i).rank (s.slot i) := by
  have hleader := h.leads_iff.mp hleads
  subst hleader
  exact h.work_some

/-- The caller that leads goes on: every write not answered is nearer its answer. -/
theorem Sound.goes_left (h : Sound s (some i)) (h' : Sound s' leader)
    (hgoes : s.goes i = some s') (hj : s.answers.length ≤ j) : s'.left j < s.left j := by
  have hwork := h.work_some
  cases h.leads i rfl with
  | told hcaller hslot _ _ hlevel =>
      simp only [Waiting.goes, hcaller, hslot] at hgoes
      obtain rfl := Option.some.inj hgoes
      apply left_lt
      · rfl
      · rw [h'.work_at (i := i) (by simp [Waiting.leads, placed]), hwork]
        simp [Caller.rank, placed, hcaller, hslot]
      · omega
  | locks hcaller _ _ _ hlevel hwriter =>
      simp only [Waiting.goes, hcaller, hwriter, Option.isNone_none, if_true] at hgoes
      obtain rfl := Option.some.inj hgoes
      apply left_lt
      · rfl
      · rw [h'.work_at (i := i) (by simp [Waiting.leads, placed]), hwork]
        simp [Caller.rank, placed, hcaller]
      · omega
  | takes hcaller _ hfirst hwaits hlevel _ =>
      have hlength := h.length_eq
      have hne : s.writes ≠ [] := by
        rintro hnil
        rw [hnil, List.length_nil] at hlength
        omega
      have hpos := List.length_pos_iff.mpr hne
      simp only [Waiting.goes, hcaller, List.isEmpty_iff, hne, if_false] at hgoes
      obtain rfl := Option.some.inj hgoes
      have hwork' := h'.work_at (i := i) (by simp [Waiting.leads, placed])
      have htaken : taken ({ s with
          writes := s.writes.drop groupMost
          groups := s.groups ++ [s.writes.take groupMost] }.placed i
            (.commits (s.writes.take groupMost))) = s.taken ++ s.writes.take groupMost := by
        simp [taken, placed]
      have hle : (s.writes.take groupMost).length ≤ groupMost := List.length_take_le _ _
      have htake : 0 < (s.writes.take groupMost).length := by
        rw [List.length_take]
        exact lt_min (by decide) hpos
      have hrank : (s.caller i).rank (s.slot i) = 1 := by simp [Caller.rank, hcaller]
      simp only [placed, Function.update_self, Caller.rank] at hwork'
      simp only [placed] at htaken ⊢
      simp only [left, htaken, hwork', hwork, hrank, List.length_append]
      generalize hgroup : (s.writes.take groupMost).length = group at hle htake ⊢
      have hout : ¬ j < s.taken.length := by omega
      simp only [hout, if_false, groupMost] at hle ⊢
      by_cases hin : j < s.taken.length + group
      · simp only [hin, if_true]
        omega
      · simp only [hin, if_false]
        omega
  | commits left hcaller _ _ hleft =>
      cases left with
      | cons => simp [Waiting.goes, hcaller] at hgoes
      | nil =>
          have hdrop := List.drop_eq_nil_iff.mp hleft.symm
          simp only [Waiting.goes, hcaller] at hgoes
          obtain rfl := Option.some.inj hgoes
          apply left_lt
          · rfl
          · rw [h'.work_at (i := i) (by simp [Waiting.leads, placed]), hwork]
            simp [Caller.rank, placed, hcaller]
          · omega
  | looks hcaller htaken hlevel =>
      obtain ⟨hclosed, write, said, _, hhas⟩ := h.answered i (by omega)
      have hslot := hhas.on_slot (by simp [hcaller]) (by simp [hcaller])
      cases said with
      | none =>
          simp only [Waiting.goes, hcaller, hslot, Option.map_none, hclosed, if_true] at hgoes
          obtain rfl := Option.some.inj hgoes
          apply left_lt
          · rfl
          · rw [h'.work_at (i := i) (by simp [Waiting.leads, placed]), hwork]
            simp [Caller.rank, placed, hcaller]
          · omega
      | some decided =>
          simp only [Waiting.goes, hcaller, hslot, Option.map_some] at hgoes
          obtain rfl := Option.some.inj hgoes
          apply left_lt
          · rfl
          · rw [h'.work_at (i := i) (by simp [Waiting.leads, placed]), hwork]
            simp [Caller.rank, placed, hcaller]
          · omega
  | hands own hcaller _ hlevel =>
      simp only [Waiting.goes, hcaller] at hgoes
      obtain rfl := Option.some.inj hgoes
      obtain ⟨hgroups, hcallers, _⟩ := handOn_same s s.writes
      apply left_lt
      · simp [taken, placed, hgroups]
      · have hle := h'.work_le fun k => by
          by_cases hne : k = i
          · exact .inr (.inr ⟨own, by simp [placed, hne]⟩)
          · have hothers := (h.others k fun heq => hne (Option.some.inj heq).symm).1
            simpa [placed, hne, hcallers] using hothers
        rw [hwork]
        simp only [Caller.rank, hcaller]
        omega
      · omega

theorem left_same (htaken : s'.taken = s.taken) (hanswers : s'.answers.length = s.answers.length)
    (hwork : s'.work = s.work) : s'.left j = s.left j := by
  simp only [left, htaken, hanswers, hwork]

/-- What is left is the same where the caller that leads is where it was. -/
theorem Sound.work_same (h : Sound s (some i)) (h' : Sound s' leader)
    (hcaller : s'.caller i = s.caller i) (hslot : s'.slot i = s.slot i) : s'.work = s.work := by
  have hleads : s'.leads i = true := by
    have hleads := h.leads_iff.mpr rfl
    rwa [Waiting.leads, ← hcaller, ← hslot] at hleads
  rw [h'.work_at hleads, h.work_some, hcaller, hslot]

/-- While a write is not answered, some caller leads. -/
theorem Sound.led (h : Sound s leader) (hj : s.answers.length ≤ j)
    (hsubmitted : j < s.submitted.length) : ∃ i, leader = some i := by
  cases leader with
  | some i => exact ⟨i, rfl⟩
  | none =>
      obtain ⟨hnil, hlevel, _⟩ := h.still rfl
      have hlength := h.length_eq
      rw [hnil, List.length_nil] at hlength
      omega

/-- A step brings a write not answered nearer its answer where it is of the caller that leads, and
else leaves it where it is. -/
theorem Sound.left_after (h : Sound s leader) (h' : Sound s' leader') {event : Event ω ρ}
    (hafter : s.after event = some s') (hj : s.answers.length ≤ j)
    (hsubmitted : j < s.submitted.length) (hj' : s'.answers.length ≤ j) :
    s'.left j + (if event.caller.any s.leads then 1 else 0) ≤ s.left j := by
  obtain ⟨i, rfl⟩ := h.led hj hsubmitted
  have hleads := h.leads_iff.mpr rfl
  have hlt := h.leader_submitted
  cases event with
  | decided op =>
      have hs' := Option.some.inj hafter
      have hne : i ≠ s.submitted.length := by omega
      have hcaller : s'.caller i = s.caller i := by simp [← hs', placed, hne]
      have hslot : s'.slot i = s.slot i := by rw [← hs', placed]
      have hwork := h.work_same h' hcaller hslot
      have hsame : s'.left j = s.left j := left_same (by rw [← hs']; rfl) (by rw [← hs']; rfl) hwork
      simp [hsame, Event.caller]
  | goes k =>
      by_cases hk : i = k
      · subst hk
        have hless := h.goes_left h' hafter hj
        simp only [Event.caller, Option.any_some, hleads, if_true]
        omega
      · have hk' : some i ≠ some k := fun heq => hk (Option.some.inj heq)
        have hnot : s.leads k = false := by
          rw [← Bool.not_eq_true, h.leads_iff]
          exact hk'
        have hwaits : s.caller k = .waits := by
          rcases (h.others k hk').1 with hidle | hwaits | ⟨own, hdone⟩
          · simp [Waiting.after, Waiting.goes, hidle] at hafter
          · exact hwaits
          · simp [Waiting.after, Waiting.goes, hdone] at hafter
        obtain ⟨_, own, hs'⟩ := h.told hk' hwaits hafter
        have hcaller : s'.caller i = s.caller i := by simp [hs', moved, hk]
        have hslot : s'.slot i = s.slot i := by simp [hs', moved, hk]
        have hwork := h.work_same h' hcaller hslot
        have hsame : s'.left j = s.left j := left_same (by rw [hs']; rfl) (by rw [hs']; rfl) hwork
        simp [hsame, Event.caller, hnot]
  | answers k decided =>
      simp only [Waiting.after] at hafter
      split at hafter
      · next op m rest hcaller =>
          obtain ⟨hleader, _, _, hleft, _⟩ := h.commits hcaller
          obtain rfl := Option.some.inj hleader
          split at hafter
          · have hs' := Option.some.inj hafter
            have hcaller' : s'.caller i = .commits rest := by simp [← hs', placed]
            have hwork' := h'.work_at (i := i) (by simp [Waiting.leads, hcaller'])
            have hwork := h.work_some
            have htaken : s'.taken = s.taken := by rw [← hs']; rfl
            have hanswers : s'.answers.length = s.answers.length + 1 := by simp [← hs', placed]
            simp only [hcaller, Caller.rank, List.length_cons] at hwork
            simp only [hcaller', Caller.rank] at hwork'
            simp only [Event.caller, Option.any_some, hleads, if_true, left, htaken, hanswers]
            by_cases hin : j < s.taken.length
            · simp only [hin, if_true]
              omega
            · simp only [hin, if_false]
              omega
          · cases hafter
      · cases hafter
  | panics k =>
      simp only [Waiting.after] at hafter
      split at hafter
      · next rest hcaller =>
          obtain ⟨hleader, _, _, hleft, _⟩ := h.commits hcaller
          obtain rfl := Option.some.inj hleader
          have hs' := Option.some.inj hafter
          have hcaller' : s'.caller i = .looks := by simp [← hs', placed]
          have hwork' := h'.work_at (i := i) (by simp [Waiting.leads, hcaller'])
          have hwork := h.work_some
          have htaken : s'.taken = s.taken := by rw [← hs']; rfl
          have hanswers : s'.answers.length = s.answers.length + rest.length := by
            simp [← hs', placed]
          have hlength := congrArg List.length hleft
          rw [List.length_drop] at hlength
          simp only [hcaller, Caller.rank] at hwork
          simp only [hcaller', Caller.rank] at hwork'
          have hout : ¬ j < s.taken.length := by omega
          simp only [Event.caller, Option.any_some, hleads, if_true, left, htaken, hout, if_false]
          omega
      · cases hafter

/-- A caller that goes on answers and submits no write. -/
theorem goes_same (hgoes : s.goes i = some s') :
    s'.answers = s.answers ∧ s'.submitted = s.submitted := by
  rw [Waiting.goes] at hgoes
  split at hgoes
  · cases hgoes
  · split at hgoes
    · exact Option.some.inj hgoes ▸ ⟨rfl, rfl⟩
    · exact Option.some.inj hgoes ▸ ⟨rfl, rfl⟩
    · split at hgoes
      · exact Option.some.inj hgoes ▸ ⟨rfl, rfl⟩
      · cases hgoes
  · split at hgoes
    · exact Option.some.inj hgoes ▸ ⟨rfl, rfl⟩
    · cases hgoes
  · split at hgoes
    · exact Option.some.inj hgoes ▸ ⟨rfl, rfl⟩
    · exact Option.some.inj hgoes ▸ ⟨rfl, rfl⟩
  · exact Option.some.inj hgoes ▸ ⟨rfl, rfl⟩
  · cases hgoes
  · split at hgoes
    · exact Option.some.inj hgoes ▸ ⟨rfl, rfl⟩
    · exact Option.some.inj hgoes ▸ ⟨rfl, rfl⟩
    · split at hgoes
      · exact Option.some.inj hgoes ▸ ⟨rfl, rfl⟩
      · exact Option.some.inj hgoes ▸ ⟨rfl, rfl⟩
  · exact Option.some.inj hgoes ▸ (handOn_same s s.writes).2.2
  · cases hgoes

theorem after_le {event : Event ω ρ} (hafter : s.after event = some s') :
    s.answers.length ≤ s'.answers.length ∧ s.submitted.length ≤ s'.submitted.length := by
  cases event with
  | decided op => exact Option.some.inj hafter ▸ ⟨le_rfl, by simp [placed]⟩
  | goes i =>
      obtain ⟨hanswers, hsubmitted⟩ := goes_same hafter
      rw [hanswers, hsubmitted]
      exact ⟨le_rfl, le_rfl⟩
  | answers i decided =>
      simp only [Waiting.after] at hafter
      split at hafter
      · split at hafter
        · exact Option.some.inj hafter ▸ ⟨by simp [placed], le_rfl⟩
        · cases hafter
      · cases hafter
  | panics i =>
      simp only [Waiting.after] at hafter
      split at hafter
      · exact Option.some.inj hafter ▸ ⟨by simp [placed], le_rfl⟩
      · cases hafter

theorem run_le {events : List (Event ω ρ)} (hrun : s.run events = some s') :
    s.answers.length ≤ s'.answers.length := by
  induction events generalizing s with
  | nil => exact Option.some.inj hrun ▸ le_rfl
  | cons event events ih =>
      rw [Waiting.run, List.foldlM_cons] at hrun
      obtain ⟨next, hnext, hrun⟩ := Option.bind_eq_some_iff.mp hrun
      exact (after_le hnext).1.trans (ih hrun)

/-- While a write is not answered, those that lead take no more steps than were left. -/
theorem Sound.led_le {events : List (Event ω ρ)} (h : Sound s leader)
    (hrun : s.run events = some s') (hj : s.answers.length ≤ j)
    (hsubmitted : j < s.submitted.length) (hj' : s'.answers.length ≤ j) :
    s.led events ≤ s.left j := by
  induction events generalizing s leader with
  | nil => exact Nat.zero_le _
  | cons event events ih =>
      rw [Waiting.run, List.foldlM_cons] at hrun
      obtain ⟨next, hnext, hrun⟩ := Option.bind_eq_some_iff.mp hrun
      obtain ⟨leader', h'⟩ := h.after hnext
      have hanswers := (run_le hrun).trans hj'
      have hstep := h.left_after h' hnext hj hsubmitted hanswers
      have hrest := ih h' hrun hanswers (hsubmitted.trans_le (after_le hnext).2)
      rw [Waiting.led, hnext]
      simp only
      omega

/-! ## Every run -/

theorem Sound.deciding (h : Sound s leader) (hcommits : s.commits i = true) : leader = some i := by
  cases hcaller : s.caller i with
  | commits left => exact (h.commits hcaller).1
  | _ => simp [Waiting.commits, hcaller] at hcommits

theorem Sound.own_answer (h : Sound s leader) {own : Except PersistError ρ}
    (hdone : s.caller i = .done own) : ∃ op said, s.submitted[i]? = some op ∧
      ((op, i), said) ∈ s.answers ∧ own = said.getD (.error failed) := by
  have hsubmitted : i < s.submitted.length := by
    by_contra hnot
    simpa [hdone] using (h.fresh i (by omega)).1
  have hanswered : i < s.answers.length := by
    by_contra hnot
    obtain ⟨_, _, hwaits⟩ := h.waits i (by omega) hsubmitted
    have hleads : leader = some i := hwaits.resolve_left (by simp [hdone])
    have hleads := h.leads_iff.mpr hleads
    simp [Waiting.leads, hdone] at hleads
  obtain ⟨_, write, said, hsaid, hhas⟩ := h.answered i hanswered
  have htaken : s.taken[i]? = some write := by
    have hfst : (s.answers.map Prod.fst)[i]? = some write := by simp [hsaid]
    rw [h.answers, List.getElem?_take_of_lt hanswered] at hfst
    exact hfst
  obtain ⟨hnumber, hop⟩ := h.taken_index htaken
  refine ⟨write.1, said, hop, ?_, ?_⟩
  · rw [← hnumber]
    exact List.mem_of_getElem? hsaid
  · cases hhas with
    | slot _ hcaller => simp [hdone] at hcaller
    | own _ hown =>
        rw [hdone] at hown
        exact Caller.done.inj (hown.resolve_left nofun)

/-- However the callers interleave, whatever the batches answer and wherever they panic: one caller at
a time decides a batch; the groups take the writes in the order they were submitted, each once and
so many at most; each write is answered once at most and in that order, and a caller returns with its
own answer, or with an error where its batch panicked before it was answered; while a write waits
some caller leads; and of a write not answered, who leads can go on, and needs no more than so many
steps before it is. -/
theorem decided_once {events : List (Event ω ρ)} (hrun : Waiting.run .new events = some s) :
    (∀ i j, s.commits i = true → s.commits j = true → i = j) ∧
      s.submitted.zipIdx = s.groups.flatten ++ s.writes ∧
      (∀ group ∈ s.groups, group.length ≤ groupMost) ∧
      s.answers.map Prod.fst <+: s.groups.flatten ∧
      (∀ i own, s.caller i = .done own → ∃ op said, s.submitted[i]? = some op ∧
        ((op, i), said) ∈ s.answers ∧ own = said.getD (.error failed)) ∧
      (s.writes ≠ [] → ∃ i, s.leads i = true) ∧
      (∀ i, i < s.answers.length → s.caller i = .waits → (s.goes i).isSome = true) ∧
      ∀ i, s.answers.length ≤ i → i < s.submitted.length →
        (∃ j event, s.leads j = true ∧ event.caller = some j ∧ (s.after event).isSome = true) ∧
        ∀ more s', s.run more = some s' → s'.answers.length ≤ i → s.led more ≤ s.left i := by
  obtain ⟨leader, h⟩ := Sound.new.run hrun
  refine ⟨?_, h.order, fun group hgroup => (h.groups group hgroup).2, ?_, ?_, ?_, ?_, ?_⟩
  · intro i j hi hj
    have hleads := (h.deciding hi).symm.trans (h.deciding hj)
    exact Option.some.inj hleads
  · rw [h.answers]
    exact List.take_prefix _ _
  · intro i own hdone
    exact h.own_answer hdone
  · intro hne
    have hlength := h.length_eq
    have hpos := List.length_pos_iff.mpr hne
    have hle := h.answered_le
    obtain ⟨i, rfl⟩ := h.led (j := s.taken.length) hle (by omega)
    exact ⟨i, h.leads_iff.mpr rfl⟩
  · intro i hi hcaller
    exact h.can_return hi hcaller
  · intro i hi hsubmitted
    obtain ⟨j, rfl⟩ := h.led hi hsubmitted
    obtain ⟨event, hevent, hafter⟩ := h.can_go
    exact ⟨⟨j, event, h.leads_iff.mpr rfl, hevent, hafter⟩,
      fun more s' hmore hi' => h.led_le hmore hi hsubmitted hi'⟩

/-- Two writes decided in one batch, which panics once the first is answered. -/
def panicked : List (Event String ℕ) :=
  [.decided "first", .decided "second", .goes 0, .goes 0, .answers 0 (.ok 5), .panics 0, .goes 0,
    .goes 0, .goes 1]

theorem decided_once_panicked : ∃ s, Waiting.run .new panicked = some s ∧
    s.caller 0 = .done (.ok 5) ∧ s.caller 1 = .done (.error failed) ∧
      ∃ op said, s.submitted[1]? = some op ∧ ((op, 1), said) ∈ s.answers ∧
        (.error failed : Except PersistError ℕ) = said.getD (.error failed) := by
  obtain ⟨s, hs⟩ : ∃ s, Waiting.run .new panicked = some s := ⟨_, rfl⟩
  have hfirst : s.caller 0 = .done (.ok 5) := by
    rw [← Option.some.inj hs]
    rfl
  have hsecond : s.caller 1 = .done (.error failed) := by
    rw [← Option.some.inj hs]
    rfl
  obtain ⟨_, _, _, _, hown, _⟩ := decided_once hs
  exact ⟨s, hs, hfirst, hsecond, hown 1 _ hsecond⟩

end XmipPersist.Waiting
