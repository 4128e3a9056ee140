import XmipPersist.Library.Line
import XmipPersist.Verification.Origin.Opening

/-! # The queues as lines

A queue is for those who wait in it: they join it at its end, leave it, and go to its end. The
records of the three kinds of queue are such lines, and each of a queue's own steps moves the line
it is about and no other.
-/

namespace XmipPersist

/-! ## What the queues are for -/

/-- Who stands in each queue of what is held, who of it failed, and the dead Messages kept for each
node, with those replayed. -/
structure Lines where
  held : ℕ → List ℕ
  failed : ℕ → List ℕ
  dead : ℕ → List ℕ
  replayed : Set (ℕ × ℕ)

namespace Lines

def empty : Lines := ⟨fun _ => [], fun _ => [], fun _ => [], ∅⟩

def of (lines : Lines) : Queues → ℕ → List ℕ
  | .held => lines.held
  | .failed => lines.failed
  | .dead => lines.dead

/-- The lines of what is held with those that stay. -/
def thinned (stays : ℕ → ℕ → Bool) (lines : Lines) : Lines :=
  { lines with held := fun queue => (lines.held queue).filter (stays queue) }

open Classical in
/-- The lines of what is held with those that have a place. -/
noncomputable def staying (seats : Set (ℕ × ℕ)) (lines : Lines) : Lines :=
  lines.thinned fun queue journey => decide ((queue, journey) ∈ seats)

/-- The lines once one queue's is another one. -/
def set (k : Queues) (queue : ℕ) (line : List ℕ) (lines : Lines) : Lines :=
  match k with
  | .held => { lines with held := Function.update lines.held queue line }
  | .failed => { lines with failed := Function.update lines.failed queue line }
  | .dead => { lines with dead := Function.update lines.dead queue line }

@[simp] theorem set_held (queue : ℕ) (lines : Lines) :
    lines.set .held queue (lines.held queue) = lines := by
  rw [set, Function.update_eq_self]

@[simp] theorem set_failed (queue : ℕ) (lines : Lines) :
    lines.set .failed queue (lines.failed queue) = lines := by
  rw [set, Function.update_eq_self]

@[simp] theorem set_dead (queue : ℕ) (lines : Lines) :
    lines.set .dead queue (lines.dead queue) = lines := by
  rw [set, Function.update_eq_self]

@[simp] theorem held_set (queue : ℕ) (line : List ℕ) (lines : Lines) :
    (lines.set .held queue line).held queue = line :=
  Function.update_self _ _ _

theorem set_set (k : Queues) (queue : ℕ) (line line' : List ℕ) (lines : Lines) :
    (lines.set k queue line).set k queue line' = lines.set k queue line' := by
  cases k <;> simp [set]

def join (kept : Hold) (lines : Lines) : Lines :=
  lines.set .held kept.queue (Line.join (lines.held kept.queue) kept.journey)

def toTheEnd (queue journey : ℕ) (lines : Lines) : Lines :=
  lines.set .held queue (Line.toTheEnd (lines.held queue) journey)

/-- Failed in a queue it stands in. -/
def enter (queue journey : ℕ) (lines : Lines) : Lines :=
  if journey ∈ lines.held queue then
    lines.set .failed queue (Line.join (lines.failed queue) journey)
  else lines

def clear (queue journey : ℕ) (lines : Lines) : Lines :=
  lines.set .failed queue ((lines.failed queue).erase journey)

open Classical in
/-- Kept for a node, where it was not replayed from there. -/
noncomputable def keep (dead : DeadMessage) (lines : Lines) : Lines :=
  if (dead.queue, dead.message) ∈ lines.replayed then lines
  else lines.set .dead dead.queue (Line.join (lines.dead dead.queue) dead.message)

def replay (queue message : ℕ) (lines : Lines) : Lines :=
  { lines.set .dead queue ((lines.dead queue).erase message) with
    replayed := insert (queue, message) lines.replayed }

end Lines

/-! ## The lines of a view -/

namespace View

def line (v : View) (k : Queues) (q : ℕ) : List ℕ := (v.queue k q).line Content.about

def lines (v : View) : Lines where
  held := v.line .held
  failed := v.line .failed
  dead := v.line .dead
  replayed := {p | (v.queue .dead p.1).index p.2 = some none}

variable {v v' : View} {k : Queues} {q : ℕ} {queue : Numbered Content ℕ}

theorem lines_of (v : View) (k : Queues) (q : ℕ) : v.lines.of k q = v.line k q := by
  cases k <;> rfl

theorem lines_set (v : View) (k : Queues) (q : ℕ) : v.lines.set k q (v.line k q) = v.lines := by
  cases k
  · exact Lines.set_held q v.lines
  · exact Lines.set_failed q v.lines
  · exact Lines.set_dead q v.lines

theorem OneQueue.line (h : v.OneQueue v' k q queue) (k' : Queues) (q' : ℕ) :
    v'.line k' q' = if k' = k ∧ q' = q then queue.line Content.about else v.line k' q' := by
  by_cases hsame : k' = k ∧ q' = q
  · obtain ⟨rfl, rfl⟩ := hsame
    simp [View.line, h.self]
  · simp [View.line, h.other k' q' hsame, hsame]

/-- One queue changed changes its line, and what is told replayed by the dead ones' indexes. -/
theorem OneQueue.lines_told (h : v.OneQueue v' k q queue) :
    v'.lines = { v.lines.set k q (queue.line Content.about) with
      replayed := {p | (v'.queue .dead p.1).index p.2 = some none} } := by
  have hheld : v'.line .held = (v.lines.set k q (queue.line Content.about)).held := by
    funext q'
    rw [h.line]
    cases k <;> simp [Lines.set, View.lines, Function.update_apply]
  have hfailed : v'.line .failed = (v.lines.set k q (queue.line Content.about)).failed := by
    funext q'
    rw [h.line]
    cases k <;> simp [Lines.set, View.lines, Function.update_apply]
  have hdead : v'.line .dead = (v.lines.set k q (queue.line Content.about)).dead := by
    funext q'
    rw [h.line]
    cases k <;> simp [Lines.set, View.lines, Function.update_apply]
  rw [View.lines, hheld, hfailed, hdead]

/-- One queue changed changes its line alone, where as much is remembered as was. -/
theorem OneQueue.lines (h : v.OneQueue v' k q queue)
    (hreplayed : k = .dead → ∀ about, queue.index about = some none ↔
      (v.queue .dead q).index about = some none) :
    v'.lines = v.lines.set k q (queue.line Content.about) := by
  have hsame : {p : ℕ × ℕ | (v'.queue .dead p.1).index p.2 = some none} =
      (v.lines.set k q (queue.line Content.about)).replayed := by
    have hkept : (v.lines.set k q (queue.line Content.about)).replayed = v.lines.replayed := by
      cases k <;> rfl
    rw [hkept]
    ext ⟨q', message⟩
    by_cases hqueue : Queues.dead = k ∧ q' = q
    · obtain ⟨rfl, rfl⟩ := hqueue
      simp only [Set.mem_ofPred_eq, h.self, View.lines]
      exact hreplayed rfl message
    · simp only [Set.mem_ofPred_eq, h.other .dead q' hqueue, View.lines]
  rw [h.lines_told, hsame]

/-- The same queues are the same lines. -/
theorem lines_congr (h : ∀ (k : Queues) q, v'.queue k q = v.queue k q) : v'.lines = v.lines := by
  have hline : ∀ k, v'.line k = v.line k := fun k => funext fun q => by
    rw [View.line, View.line, h]
  simp only [View.lines, hline, h]

theorem mem_line (hv : v.Queued) {k : Queues} {q about : ℕ} :
    about ∈ v.line k q ↔ ∃ n, (v.queue k q).index about = some (some n) :=
  Numbered.mem_line (hv k q)

/-- A Journey stands in a queue of what is held where it has a place. -/
theorem mem_held (hv : v.Queued) {q j : ℕ} : j ∈ v.lines.held q ↔ (q, j) ∈ v.seats := by
  rw [mem_seats, placeOf_index hv, Option.ne_none_iff_exists']
  have hmem : j ∈ v.lines.held q ↔ ∃ n, (v.queue .held q).index j = some (some n) := mem_line hv
  rw [hmem]
  exact exists_congr fun n => Option.join_eq_some_iff.symm

end View

/-! ## What a step does to the lines -/

/-- From a batch in order to a later one, the lines become `g` of what they were. -/
structure Relined (g : Lines → Lines) (b b' : Batch) : Prop where
  orders : Orders b b'
  lines : b'.view.lines = g b.view.lines

/-- Whatever `m` decides in a batch in order, the lines become `g` of what they were. -/
def Relines {α : Type} (g : Lines → Lines) (m : Deciding α) : Prop :=
  Decision.Moves (fun b b' => b.InOrder → Relined g b b') m

namespace Relines

variable {α β : Type} {g g' : Lines → Lines}

theorem pure (a : α) : Relines id (pure a) :=
  Decision.Moves.pure (fun _ hb => ⟨.refl hb, rfl⟩) a

theorem bind {m : Deciding α} {f : α → Deciding β} (hm : Relines g m)
    (hf : ∀ a, Relines g' (f a)) : Relines (g' ∘ g) (m >>= f) := by
  intro b a b' h hb
  obtain ⟨x, b₁, h₁, h₂⟩ := Decision.bind_ok_iff.mp h
  have hfirst := hm b x b₁ h₁ hb
  have hsecond := hf x b₁ a b' h₂ hfirst.orders.inOrder
  exact ⟨hfirst.orders.trans hsecond.orders, by rw [hsecond.lines, hfirst.lines]; rfl⟩

theorem forM {step : β → Lines → Lines} {f : β → Deciding PUnit} (xs : List β)
    (h : ∀ x ∈ xs, Relines (step x) (f x)) :
    Relines (fun lines => xs.foldl (fun lines x => step x lines) lines) (xs.forM f) := by
  induction xs with
  | nil => exact Relines.pure PUnit.unit
  | cons x xs ih =>
      change Relines _ (f x >>= fun _ => xs.forM f)
      exact Relines.bind (h x (by simp)) fun _ => ih fun y hy => h y (by simp [hy])

/-- A decision that writes no record of a queue. -/
theorem of_writes {kinds : List Kind} {m : Deciding α} (h : Writes kinds m)
    (hkinds : ∀ k : Queues, ∀ kind ∈ k.kinds.all, kind ∉ kinds) : Relines id m := by
  intro b a b' hr hb
  have hadds := h b a b' hr
  refine ⟨.of_adds hb hadds hkinds, View.lines_congr fun k q => ?_⟩
  exact View.queue_congr (fun p hp => hadds.view_of_kind (hkinds k _ hp)) q

end Relines

/-! ## A queue's own steps -/

section Steps

variable {k : Queues} {q n about : ℕ} {b b' : Batch}

/-- An index keeps the place of what is in its queue, and nothing else but of a dead Message. -/
theorem Batch.Proper.index_at (hb : b.Proper) (hk : k ≠ .dead)
    (h : (b.view.queue k q).index about ≠ none) :
    ∃ n, (b.view.queue k q).index about = some (some n) := by
  obtain ⟨content, hread, hview, hholds⟩ :=
    hb.seen (k.kinds.by', .pair q about) (by cases k <;> rfl)
  have hindex : (b.view.queue k q).index about = Content.placing (content.map Content.bare) :=
    congrArg Content.placing hview
  rw [hindex] at h ⊢
  cases content with
  | none => exact absurd rfl h
  | some content =>
      have hcontent := hholds content rfl
      cases k with
      | dead => exact absurd rfl hk
      | held => cases content <;> first | exact hcontent.elim | exact ⟨_, rfl⟩
      | failed => cases content <;> first | exact hcontent.elim | exact ⟨_, rfl⟩

/-- Something placed goes to the end of its line, where its index has nothing of it. -/
theorem place_lines {entry : ℕ → Content} {yes : Bool} (hb : b.InOrder)
    (hentry : ∀ n, (entry n).about = about ∧ (entry n).Seated q n)
    (h : (Queue.place k.kinds q about entry).run b = .ok (yes, b')) :
    (b' = b ∧ (b.view.queue k q).index about ≠ none) ∨
      (b.view.queue k q).index about = none ∧
        b'.view.lines = b.view.lines.set k q (b.view.line k q ++ [about]) := by
  rcases place_ok hb.proper h with hfound | ⟨hnone, hone, -⟩
  · exact .inl hfound
  · refine .inr ⟨hnone, ?_⟩
    have hlast := hentry (b.view.placesOf k q).next
    rw [hone.lines]
    · rw [Numbered.line_place (hb.queued k q) hnone]
      · rfl
      · rw [Content.about_bare]
        exact hlast.1
      · rw [Content.seated_bare]
        exact hlast.2
    · rintro rfl other
      by_cases hother : other = about
      · simp [Numbered.place, hother, hnone]
      · simp [Numbered.place, hother]

/-- Something in no line of a dead Message's joins its line as it is placed. -/
theorem place_joins {entry : ℕ → Content} {yes : Bool} (hb : b.InOrder) (hk : k ≠ .dead)
    (hentry : ∀ n, (entry n).about = about ∧ (entry n).Seated q n)
    (h : (Queue.place k.kinds q about entry).run b = .ok (yes, b')) :
    b'.view.lines = b.view.lines.set k q (Line.join (b.view.line k q) about) := by
  rcases place_lines hb hentry h with ⟨rfl, hin⟩ | ⟨hnone, hlines⟩
  · have hmem : about ∈ b'.view.line k q :=
      (View.mem_line hb.queued).mpr (hb.proper.index_at hk hin)
    rw [Line.join, if_pos hmem, View.lines_set]
  · have hnot : about ∉ b.view.line k q := fun hmem => by
      obtain ⟨n, hn⟩ := (View.mem_line hb.queued).mp hmem
      rw [hnone] at hn
      cases hn
    rw [hlines, Line.join, if_neg hnot]

/-- An entry taken out is gone from its line. -/
theorem goneFrom_lines {entry : Content} (hb : b.InOrder)
    (hn : (b.view.queue k q).entry n = some entry) (habout : entry.about = about) :
    (goneFrom b k q n about none).view.lines =
      b.view.lines.set k q ((b.view.line k q).erase about) := by
  have hindex := ((hb.queued k q).index about n).mpr ⟨entry, hn, habout⟩
  rw [(goneFrom_view b k q n about none).lines]
  · rw [Numbered.line_takeOut (hb.queued k q) hn habout (by simp [Content.placing])]
    rfl
  · rintro rfl other
    by_cases hother : other = about
    · simp [Numbered.takeOut, hother, hindex, Content.placing]
    · simp [Numbered.takeOut, hother]

/-- What has no place in a queue is in no line of it. -/
theorem View.erase_line {v : View} (hv : v.Queued)
    (h : ∀ n, (v.queue k q).index about ≠ some (some n)) :
    (v.line k q).erase about = v.line k q := by
  apply List.erase_of_not_mem
  intro hmem
  obtain ⟨n, hn⟩ := (mem_line hv).mp hmem
  exact h n hn

/-- An entry rewritten about the same leaves every line. -/
theorem rewrite_lines {entry bytes : Content} (hn : (b.view.queue k q).entry n = some entry)
    (habout : bytes.about = entry.about) :
    (b.put k.kinds.entry (.pair q n) (some bytes)).view.lines = b.view.lines := by
  have hone := b.view.queue_entry k q n (some bytes.bare)
  have hview : (b.put k.kinds.entry (.pair q n) (some bytes)).view =
      Function.update b.view (k.kinds.entry, .pair q n) (some bytes.bare) :=
    Batch.view_put _ _ _ k.seen.1
  have hbare : bytes.bare.about = entry.about := by rw [Content.about_bare, habout]
  have hline : ({ b.view.queue k q with
      entry := Function.update (b.view.queue k q).entry n (some bytes.bare) } :
        Numbered Content ℕ).line Content.about = b.view.line k q :=
    Numbered.line_rewrite hn hbare
  rw [hview, hone.lines (by rintro rfl other; rfl), hline, View.lines_set]

end Steps

namespace Hold

theorem keep_relines (kept : Hold) : Relines (Lines.join kept) (keep kept) := by
  intro b a b' h hb
  have horders := keep_ordering kept b a b' h hb
  obtain ⟨yes, b₁, hplace, hrest⟩ := Decision.bind_ok_iff.mp h
  obtain ⟨-, rfl⟩ := pure_ok.mp hrest
  have hentry : ∀ n, (Form.bytes (Held.mk n kept 0 false none)).about = kept.journey ∧
      (Form.bytes (Held.mk n kept 0 false none)).Seated kept.queue n := fun n => ⟨rfl, rfl, rfl⟩
  exact ⟨horders, place_joins (k := .held) hb (by decide) hentry hplace⟩

/-- A held entry rewritten with the Message it holds stands where it stood. -/
theorem rewrite_relined {queue sequence : ℕ} {held held' : Held} {b : Batch} (hb : b.InOrder)
    (hread : b.read (kinds.entry, .pair queue sequence) = .ok (some (Form.bytes held)))
    (hhold : held'.hold = held.hold) (hsequence : held'.sequence = held.sequence) :
    Relined id b (b.put kinds.entry (.pair queue sequence) (some (Form.bytes held'))) := by
  have hn : (b.view.queue .held queue).entry sequence =
      some (.held { held with heldUnixNanos := 0 }) := Batch.view_eq rfl hread
  refine ⟨rewrite_ordering hb hread hhold hsequence, ?_⟩
  exact rewrite_lines (k := .held) hn (congrArg Hold.journey hhold)

theorem wait_relines (queue journey : ℕ) (due : ℤ) : Relines id (wait queue journey due) := by
  intro b a b' h hb
  obtain ⟨placed, hrest, -⟩ := placed_bind_ok (k := .held) hb.proper h
  cases placed with
  | never =>
      obtain ⟨-, rfl⟩ := pure_ok.mp hrest
      exact ⟨.refl hb, rfl⟩
  | takenOut =>
      obtain ⟨-, rfl⟩ := pure_ok.mp hrest
      exact ⟨.refl hb, rfl⟩
  | «at» sequence =>
      rcases read_held_bind_ok hb.proper hrest with hrest | ⟨held, hread, hrest⟩
      · obtain ⟨-, rfl⟩ := pure_ok.mp hrest
        exact ⟨.refl hb, rfl⟩
      · obtain ⟨held', hheld, hput⟩ := decode_bind_ok.mp hrest
        rw [Form.fromBytes_bytes] at hheld
        cases hheld
        rw [put_ok.mp hput]
        exact rewrite_relined hb hread rfl rfl

theorem mark_relines (queue sequence : ℕ) (failed : Bool) :
    Relines id (mark queue sequence failed) := by
  intro b a b' h hb
  rcases read_held_bind_ok hb.proper h with hrest | ⟨held, hread, hrest⟩
  · obtain ⟨-, rfl⟩ := pure_ok.mp hrest
    exact ⟨.refl hb, rfl⟩
  · obtain ⟨held', hheld, hput⟩ := decode_bind_ok.mp hrest
    rw [Form.fromBytes_bytes] at hheld
    cases hheld
    split at hput
    · rw [put_ok.mp hput]
      exact rewrite_relined hb hread rfl rfl
    · obtain ⟨-, rfl⟩ := pure_ok.mp hput
      exact ⟨.refl hb, rfl⟩

theorem letGoOf_relines (queue journey : ℕ) :
    Relines (fun lines => lines.set .held queue ((lines.held queue).erase journey))
      (letGoOf queue journey) := by
  intro b a b' h hb
  refine ⟨letGoOf_ordering queue journey b a b' h hb, ?_⟩
  obtain ⟨placed, hrest, hat⟩ := placed_bind_ok (k := .held) hb.proper h
  have hnowhere : (∀ n, (b.view.queue .held queue).index journey ≠ some (some n)) → b' = b →
      b'.view.lines = b.view.lines.set .held queue ((b.view.line .held queue).erase journey) := by
    rintro hno rfl
    rw [View.erase_line hb.queued hno, View.lines_set]
  cases placed with
  | never =>
      obtain ⟨-, rfl⟩ := pure_ok.mp hrest
      exact hnowhere (by simp [hat]) rfl
  | takenOut =>
      obtain ⟨-, rfl⟩ := pure_ok.mp hrest
      exact hnowhere (by simp [hat]) rfl
  | «at» sequence =>
      obtain ⟨found, b₁, htake, hrest⟩ := Decision.bind_ok_iff.mp hrest
      obtain ⟨held, rfl, rfl, -, hn, rfl⟩ := taken_ok hb hat htake
      obtain ⟨held', hheld, hput⟩ := decode_bind_ok.mp hrest
      rw [Form.fromBytes_bytes] at hheld
      cases hheld
      rw [put_ok.mp hput]
      exact goneFrom_lines (k := .held) hb hn rfl

theorem toTheEnd_relines (queue journey : ℕ) :
    Relines (Lines.toTheEnd queue journey) (toTheEnd queue journey) := by
  intro b a b' h hb
  refine ⟨toTheEnd_ordering queue journey b a b' h hb, ?_⟩
  obtain ⟨placed, hrest, hat⟩ := placed_bind_ok (k := .held) hb.proper h
  have hnowhere : (∀ n, (b.view.queue .held queue).index journey ≠ some (some n)) → b' = b →
      b'.view.lines = Lines.toTheEnd queue journey b.view.lines := by
    rintro hno rfl
    have hnot : journey ∉ b'.view.lines.held queue := fun hmem => by
      obtain ⟨n, hn⟩ := (View.mem_line hb.queued).mp hmem
      exact hno n hn
    rw [Lines.toTheEnd, Line.toTheEnd, if_neg hnot, Lines.set_held]
  cases placed with
  | never =>
      obtain ⟨-, rfl⟩ := pure_ok.mp hrest
      exact hnowhere (by simp [hat]) rfl
  | takenOut =>
      obtain ⟨-, rfl⟩ := pure_ok.mp hrest
      exact hnowhere (by simp [hat]) rfl
  | «at» sequence =>
      obtain ⟨found, b₁, htake, hrest⟩ := Decision.bind_ok_iff.mp hrest
      obtain ⟨held, rfl, rfl, hqueue, hn, rfl⟩ := taken_ok hb hat htake
      obtain ⟨held', hheld, hrest⟩ := decode_bind_ok.mp hrest
      rw [Form.fromBytes_bytes] at hheld
      cases hheld
      obtain ⟨_, b₂, hforget, hkeep⟩ := Decision.bind_ok_iff.mp hrest
      rw [put_ok.mp hforget] at hkeep
      have hgone := goneFrom_orders hb hn rfl (.inl (rfl : none = none)) trivial
      have hlines : (goneFrom b .held queue sequence held.hold.journey none).view.lines =
          b.view.lines.set .held queue ((b.view.line .held queue).erase held.hold.journey) :=
        goneFrom_lines hb hn rfl
      have hjoined := (keep_relines held.hold _ a b' hkeep hgone.inOrder).lines
      have hmem : held.hold.journey ∈ b.view.line .held queue :=
        (View.mem_line hb.queued).mpr ⟨sequence, hat⟩
      have hnot : held.hold.journey ∉ (b.view.line .held queue).erase held.hold.journey :=
        (Numbered.nodup_line (hb.queued .held queue)).not_mem_erase
      -- gone from the line, it joins it again
      rw [hjoined]
      change Lines.join held.hold
        (goneFrom b .held queue sequence held.hold.journey none).view.lines = _
      rw [hlines, Lines.join, hqueue, Lines.held_set, Line.join, if_neg hnot, Lines.set_set,
        Lines.toTheEnd, Line.toTheEnd]
      exact (congrArg (fun line => Lines.set .held queue line b.view.lines) (if_pos hmem)).symm

end Hold

namespace Failed

/-- Failed in a queue it stands in, a Journey joins its line; one that stands not there does not. -/
theorem enter_relines (journey : ℕ) (failure : Failure) (now : ℤ) :
    Relines (Lines.enter failure.queue journey) (enter journey failure now) := by
  intro b a b' h hb
  have horders := enter_ordering journey failure now b a b' h hb
  refine ⟨horders, ?_⟩
  obtain ⟨placed, hrest, hat⟩ := placed_bind_ok (k := .held) hb.proper h
  have hnowhere : (∀ n, (b.view.queue .held failure.queue).index journey ≠ some (some n)) →
      b' = b → b'.view.lines = Lines.enter failure.queue journey b.view.lines := by
    rintro hno rfl
    have hnot : journey ∉ b'.view.lines.held failure.queue := fun hmem => by
      obtain ⟨n, hn⟩ := (View.mem_line hb.queued).mp hmem
      exact hno n hn
    rw [Lines.enter, if_neg hnot]
  cases placed with
  | never =>
      obtain ⟨-, rfl⟩ := pure_ok.mp hrest
      exact hnowhere (by simp [hat]) rfl
  | takenOut =>
      obtain ⟨-, rfl⟩ := pure_ok.mp hrest
      exact hnowhere (by simp [hat]) rfl
  | «at» place =>
      obtain ⟨_, b₁, hmark, hrest⟩ := Decision.bind_ok_iff.mp hrest
      obtain ⟨yes, b₂, hplace, hpure⟩ := Decision.bind_ok_iff.mp hrest
      obtain ⟨-, rfl⟩ := pure_ok.mp hpure
      have hmarked := Hold.mark_relines failure.queue place true b _ b₁ hmark hb
      have hentry : ∀ n, (Form.bytes (Failed.mk failure.queue n journey place failure.reason
          now)).about = journey ∧ (Form.bytes (Failed.mk failure.queue n journey place
            failure.reason now)).Seated failure.queue n := fun n => ⟨rfl, rfl, rfl⟩
      have hjoined : b₂.view.lines = b₁.view.lines.set .failed failure.queue
          (Line.join (b₁.view.lines.failed failure.queue) journey) :=
        place_joins (k := .failed) hmarked.orders.inOrder (by decide) hentry hplace
      have hmem : journey ∈ b.view.lines.held failure.queue :=
        (View.mem_line hb.queued).mpr ⟨place, hat⟩
      rw [hjoined, hmarked.lines, Lines.enter]
      exact (if_pos hmem).symm

theorem leave_relines (queue journey : ℕ) :
    Relines (Lines.clear queue journey) (leave queue journey) := by
  intro b a b' h hb
  refine ⟨leave_ordering queue journey b a b' h hb, ?_⟩
  obtain ⟨placed, hrest, hat⟩ := placed_bind_ok (k := .failed) hb.proper h
  have hnowhere : (∀ n, (b.view.queue .failed queue).index journey ≠ some (some n)) →
      b' = b → b'.view.lines = Lines.clear queue journey b.view.lines := by
    rintro hno rfl
    have hsame : (b'.view.lines.failed queue).erase journey = b'.view.lines.failed queue :=
      View.erase_line hb.queued hno
    rw [Lines.clear, hsame, Lines.set_failed]
  cases placed with
  | never =>
      obtain ⟨-, rfl⟩ := pure_ok.mp hrest
      exact hnowhere (by simp [hat]) rfl
  | takenOut =>
      obtain ⟨-, rfl⟩ := pure_ok.mp hrest
      exact hnowhere (by simp [hat]) rfl
  | «at» sequence =>
      obtain ⟨found, b₁, htake, hforget⟩ := Decision.bind_ok_iff.mp hrest
      obtain ⟨entry, hentry, habout⟩ := ((hb.queued .failed queue).index journey sequence).mp hat
      rcases takeOut_ok (k := .failed) hb.proper htake with ⟨-, -, hnone⟩ | ⟨bytes, -, -, -, rfl⟩
      · rw [hentry] at hnone
        cases hnone
      · rw [put_ok.mp hforget]
        exact goneFrom_lines (k := .failed) hb hentry habout

theorem unmark_relines (queue journey : ℕ) : Relines id (unmark queue journey) := by
  intro b a b' h hb
  obtain ⟨placed, hrest, -⟩ := placed_bind_ok (k := .held) hb.proper h
  cases placed with
  | never =>
      obtain ⟨-, rfl⟩ := pure_ok.mp hrest
      exact ⟨.refl hb, rfl⟩
  | takenOut =>
      obtain ⟨-, rfl⟩ := pure_ok.mp hrest
      exact ⟨.refl hb, rfl⟩
  | «at» place => exact Hold.mark_relines queue place false b a b' hrest hb

theorem clear_relines (queue journey : ℕ) :
    Relines (Lines.clear queue journey) (clear queue journey) :=
  (leave_relines queue journey).bind fun _ => unmark_relines queue journey

end Failed

/-- A dead Message joins its node's line, where it was not replayed from there. -/
theorem Dead.keep_relines (dead : DeadMessage) : Relines (Lines.keep dead) (keep dead) := by
  intro b a b' h hb
  have horders := keep_ordering dead b a b' h hb
  obtain ⟨yes, b₁, hplace, hrest⟩ := Decision.bind_ok_iff.mp h
  obtain ⟨-, rfl⟩ := pure_ok.mp hrest
  have hentry : ∀ n, (Form.bytes (Dead.mk n dead)).about = dead.message ∧
      (Form.bytes (Dead.mk n dead)).Seated dead.queue n := fun n => ⟨rfl, rfl, rfl⟩
  refine ⟨horders, ?_⟩
  have hreplayed : (dead.queue, dead.message) ∈ b.view.lines.replayed ↔
      (b.view.queue .dead dead.queue).index dead.message = some none := Iff.rfl
  have hstands : dead.message ∈ b.view.lines.dead dead.queue ↔
      ∃ n, (b.view.queue .dead dead.queue).index dead.message = some (some n) :=
    View.mem_line hb.queued
  rcases place_lines (k := .dead) hb hentry hplace with ⟨rfl, hin⟩ | ⟨hnone, hlines⟩
  · by_cases hgone : (dead.queue, dead.message) ∈ b₁.view.lines.replayed
    · rw [Lines.keep, if_pos hgone]
    · obtain ⟨n, hn⟩ : ∃ n, (b₁.view.queue .dead dead.queue).index dead.message =
          some (some n) := by
        cases hindex : (b₁.view.queue .dead dead.queue).index dead.message with
        | none => exact absurd hindex hin
        | some kept =>
            cases kept with
            | none => exact absurd (hreplayed.mpr hindex) hgone
            | some n => exact ⟨n, rfl⟩
      rw [Lines.keep, if_neg hgone, Line.join, if_pos (hstands.mpr ⟨n, hn⟩), Lines.set_dead]
  · have hgone : (dead.queue, dead.message) ∉ b.view.lines.replayed := by
      rw [hreplayed, hnone]
      intro hgone
      cases hgone
    have hnot : dead.message ∉ b.view.lines.dead dead.queue := fun hmem => by
      obtain ⟨n, hn⟩ := hstands.mp hmem
      rw [hnone] at hn
      cases hn
    rw [Lines.keep, if_neg hgone, Line.join, if_neg hnot]
    exact hlines

/-- A dead Message's entry taken out and its Message remembered: it is gone from its line. -/
theorem remembered_lines {b : Batch} {queue message n : ℕ} {entry : Content} (hb : b.InOrder)
    (hn : (b.view.queue .dead queue).entry n = some entry) (habout : entry.about = message) :
    (goneFrom b .dead queue n message (some .nothing)).view.lines =
      Lines.replay queue message b.view.lines := by
  have hone := goneFrom_view b .dead queue n message (some .nothing)
  have hline : ((b.view.queue .dead queue).takeOut n message (some none)).line Content.about =
      (b.view.lines.dead queue).erase message :=
    Numbered.line_takeOut (hb.queued .dead queue) hn habout (by simp)
  have htold : {p : ℕ × ℕ | ((goneFrom b .dead queue n message (some .nothing)).view.queue .dead
      p.1).index p.2 = some none} = insert (queue, message) b.view.lines.replayed := by
    ext ⟨q, other⟩
    rw [Set.mem_ofPred_eq, Set.mem_insert_iff, Prod.mk.injEq]
    by_cases hqueue : q = queue
    · subst hqueue
      rw [hone.self]
      by_cases hother : other = message
      · simp [Numbered.takeOut, hother, Content.placing, Content.bare]
      · simp [Numbered.takeOut, hother, View.lines]
    · rw [hone.other .dead q (by simp [hqueue])]
      simp [hqueue, View.lines]
  rw [hone.lines_told, htold, Lines.replay, ← hline]
  rfl

end XmipPersist
