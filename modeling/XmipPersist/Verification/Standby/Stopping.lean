import XmipPersist.Library.Steps
import XmipPersist.Model.Stopping
import XmipPersist.Verification.Standby.Handed

/-! # What a stop hands on

Once a stop has waited for every operation, none writes any more where no statement was left with
the databases, so a turn of the shipping to a follower that hands nothing on after that leaves it
with every write there was.
-/

namespace XmipPersist.Standby

variable {most turn : ℕ} {start : Copies Bytes Bytes}

/-! ## A follower with nothing more to take -/

theorem Copies.since_nil {bounds : Bounds Bytes Bytes} {copies : Copies Bytes Bytes} {d : Database}
    {from' bytes : ℕ} (h : copies.since bounds d from' bytes = .ok []) :
    copies.next d ≤ from' := by
  by_contra hlt
  have hnext : ¬(copies.kept d).next ≤ from' := hlt
  simp only [Copies.since, if_neg hnext] at h
  by_cases hfirst : from' < (copies.kept d).first
  · simp [hfirst] at h
  · simp only [if_neg hfirst] at h
    -- the write of that number is kept, and is not passed over
    have hmem : from' ∈ (copies.kept d).writes.map Prod.fst :=
      (Kept.mem_numbers _).mpr ⟨by omega, by omega⟩
    obtain ⟨w, hw, hnumber⟩ := List.mem_map.mp hmem
    cases hrest : (copies.kept d).writes.dropWhile fun w => w.1 < from' with
    | nil =>
        have hall := List.dropWhile_eq_nil_iff.mp hrest w hw
        simp [hnumber] at hall
    | cons w' rest => simp [hrest] at h

/-! ## A follower's shipping -/

/-- What writes nothing is no part of what was written. -/
theorem Handing.Sound.unlogged {events : List Handing.Event} {event : Handing.Event} {s : Handing}
    (h : Handing.Sound start (events ++ [event]) s) (hnone : ∀ d, event.keeps d = none) :
    Handing.Sound start events s := by
  have hnumbered : ∀ d, Handing.numbered start d (events ++ [event]) =
      Handing.numbered start d events := by
    intro d
    rw [Handing.numbered_concat, hnone d]
    simp
  have hlogged := h.logged
  refine ⟨⟨fun d => ?_, fun d => hnumbered d ▸ hlogged.kept d⟩, h.next, h.numbers,
    fun d => hnumbered d ▸ h.handed d, h.asks, h.copies, fun d copies hstage => ?_⟩
  · rw [hlogged.next d, List.filterMap_append]
    simp [hnone d]
  · have ⟨hnumbers, hmem⟩ := h.hands d copies hstage
    exact ⟨hnumbers, hnumbered d ▸ hmem⟩

namespace Follower

variable {f : Follower} {copies : Copies Bytes Bytes} {log : List Handing.Event}

/-- What a turn that handed nothing on has found of the databases it was at. -/
def CaughtUp (copies : Copies Bytes Bytes) (f : Follower) : Prop :=
  match f.at' with
  | .goes (.takes d) => ∀ e < d, copies.next e ≤ f.next e
  | .goes (.hands d []) => ∀ e ≤ d, copies.next e ≤ f.next e
  | .goes (.hands d (_ :: _)) => ∀ e < d, copies.next e ≤ f.next e
  | _ => True

/-- A follower handed the writes in their order, in a turn that is the last only where the stop has
waited, and with nothing more to take where its shipping ended after its last turn. -/
structure Sound (start : Copies Bytes Bytes) (log : List Handing.Event)
    (copies : Copies Bytes Bytes) (drained : Bool) (f : Follower) : Prop where
  handing : Handing.Sound start log (f.handing copies)
  last : f.last = true → drained = true
  turn : f.last = true → f.handed = false → CaughtUp copies f
  begins : ∀ d, f.at' = .goes (.asks d) ∨ f.at' = .goes (.copies d) → f.last = false
  going : f.at' ≠ .goes .ended
  ended : f.at' = .ended false → drained = true ∧ ∀ d, copies.next d ≤ f.next d

variable {drained : Bool}

theorem step_eq (stage : Stage) : (f.step most turn copies stage) =
    { f with
      at' := (match ((f.handing copies).ship most turn).stage with
        | .takes 0 => if f.last && !(f.handed || hands stage) then .ended false else .turns
        | .ended => .ended true
        | stage => .goes stage)
      handed := f.handed || hands stage
      accepted := ((f.handing copies).ship most turn).accepted
      next := ((f.handing copies).ship most turn).next
      copies := ((f.handing copies).ship most turn).handed } := rfl

/-- A step hands on as its shipping does. -/
theorem step_handing (h : Handing.Sound start log (f.handing copies)) (stage : Stage) :
    Handing.Sound start log ((f.step most turn copies stage).handing copies) := by
  have hship : Handing.Sound start log ((f.handing copies).ship most turn) := h.ship
  have hcopies : ((f.handing copies).ship most turn).copies = copies := Handing.copies_ship
  have hended : Handing.Sound start log
      { (f.handing copies).ship most turn with stage := .ended } :=
    hship.staged nofun nofun nofun
  rw [step_eq]
  generalize (f.handing copies).ship most turn = shipped at *
  obtain ⟨copies', stage', accepted, next, handed⟩ := shipped
  obtain rfl : copies' = copies := hcopies
  cases stage' with
  | asks d => exact hship
  | copies d => exact hship
  | takes d =>
      obtain rfl | rfl | rfl := Database.each d
      · cases f.last && !(f.handed || hands stage) with
        | true => exact hended
        | false => exact hship
      · exact hship
      · exact hship
  | hands d taken => exact hship
  | ended => exact hship

theorem handing_eq {stage : Stage} (hat : f.at' = .goes stage) :
    f.handing copies = ⟨copies, stage, f.accepted, f.next, f.copies⟩ := by
  simp only [handing, hat]

/-- A step before the first turn, or to its start. -/
theorem Sound.before (h : f.Sound start log copies drained) {stage : Stage}
    (hlast : f.last = false)
    (hat : (f.step most turn copies stage).at' = .turns ∨
      ∃ d, (f.step most turn copies stage).at' = .goes (.asks d) ∨
        (f.step most turn copies stage).at' = .goes (.copies d)) :
    (f.step most turn copies stage).Sound start log copies drained where
  handing := step_handing h.handing stage
  last := h.last
  turn hlast' := absurd (hlast.symm.trans hlast') (by decide)
  begins _ _ := hlast
  going hended := by
    rcases hat with hat | ⟨d, hat | hat⟩ <;>
      · rw [hat] at hended
        cases hended
  ended hended := by
    rcases hat with hat | ⟨d, hat | hat⟩ <;>
      · rw [hat] at hended
        cases hended

/-- A step within a turn. -/
theorem Sound.within (h : f.Sound start log copies drained) {stage next : Stage}
    (hat : (f.step most turn copies stage).at' = .goes next)
    (hnext : (∃ d, next = .takes d) ∨ ∃ d taken, next = .hands d taken)
    (hturn : f.last = true → (f.step most turn copies stage).handed = false →
      CaughtUp copies (f.step most turn copies stage)) :
    (f.step most turn copies stage).Sound start log copies drained where
  handing := step_handing h.handing stage
  last := h.last
  turn := hturn
  begins d hbegins := by
    rw [hat] at hbegins
    rcases hnext with ⟨e, rfl⟩ | ⟨e, taken, rfl⟩ <;> rcases hbegins with hbegins | hbegins <;>
      cases hbegins
  going hended := by
    rw [hat] at hended
    rcases hnext with ⟨e, rfl⟩ | ⟨e, taken, rfl⟩ <;> cases hended
  ended hended := by
    rw [hat] at hended
    cases hended

theorem Sound.asks (h : f.Sound start log copies drained) {d : Database}
    (hat : f.at' = .goes (.asks d)) :
    (f.step most turn copies (.asks d)).Sound start log copies drained := by
  have hlast : f.last = false := h.begins d (.inl hat)
  apply h.before hlast
  simp only [step_eq, handing_eq hat, Handing.ship, hlast, Bool.false_and, Bool.false_eq_true,
    if_false]
  cases copies.followsIn d (f.next d) with
  | ok _ =>
      obtain rfl | rfl | rfl := Database.each d
      · exact .inr ⟨1, .inl rfl⟩
      · exact .inr ⟨2, .inl rfl⟩
      · exact .inl rfl
  | error reason => exact .inr ⟨0, .inr rfl⟩

theorem Sound.copied (h : f.Sound start log copies drained) {d : Database}
    (hat : f.at' = .goes (.copies d)) :
    (f.step most turn copies (.copies d)).Sound start log copies drained := by
  have hlast : f.last = false := h.begins d (.inr hat)
  apply h.before hlast
  simp only [step_eq, handing_eq hat, Handing.ship, hlast, Bool.false_and, Bool.false_eq_true,
    if_false]
  obtain rfl | rfl | rfl := Database.each d
  · exact .inr ⟨1, .inr rfl⟩
  · exact .inr ⟨2, .inr rfl⟩
  · exact .inl rfl

/-- A database read for copies, where nothing the follower still lacks was dropped. -/
theorem Sound.takes (h : f.Sound start log copies drained) {d : Database}
    (hat : f.at' = .goes (.takes d)) :
    (f.step most turn copies (.takes d)).Sound start log copies drained := by
  have hturn := h.turn
  simp only [CaughtUp, hat] at hturn
  cases hsince : copies.since (sizes most) d (f.next d) turn with
  | error reason =>
      have hstep : (f.step most turn copies (.takes d)).at' = .ended true := by
        simp only [step_eq, handing_eq hat, Handing.ship, hsince]
      exact ⟨step_handing h.handing _, h.last, fun _ _ => by simp only [CaughtUp, hstep],
        by simp [hstep], by simp [hstep], by simp [hstep]⟩
  | ok taken =>
      have hstep : f.step most turn copies (.takes d) = { f with
          at' := .goes (.hands d taken)
          handed := f.handed || false } := by
        simp only [step_eq, handing_eq hat, Handing.ship, hsince]
        rfl
      refine h.within (by rw [hstep]) (.inr ⟨d, taken, rfl⟩) fun hlast hhanded => ?_
      rw [hstep] at hhanded ⊢
      have hseen := hturn hlast (by simpa using hhanded)
      cases taken with
      | cons copy rest => exact hseen
      | nil =>
          -- the database has nothing more
          have hnone := Copies.since_nil hsince
          intro e he
          rcases lt_or_eq_of_le he with hlt | rfl
          · exact hseen e hlt
          · exact hnone

/-- A turn that handed nothing on, and began after the stop, leaves nothing. -/
theorem Sound.ends (h : f.Sound start log copies drained) (hat : f.at' = .goes (.hands 2 [])) :
    (f.step most turn copies (.hands 2 [])).Sound start log copies drained := by
  have hturn := h.turn
  simp only [CaughtUp, hat] at hturn
  have hstep : f.step most turn copies (.hands 2 []) = { f with
      at' := if f.last && !(f.handed || false) then .ended false else .turns
      handed := f.handed || false } := by
    simp only [step_eq, handing_eq hat, Handing.ship]
    rfl
  have hhanding : Handing.Sound start log
      ((f.step most turn copies (.hands 2 [])).handing copies) := step_handing h.handing _
  rw [hstep] at hhanding ⊢
  cases hdone : f.last && !(f.handed || false) with
  | false =>
      rw [hdone] at hhanding
      exact ⟨hhanding, h.last, fun _ _ => trivial, by simp, by simp, by simp⟩
  | true =>
      rw [hdone] at hhanding
      refine ⟨hhanding, h.last, fun _ _ => trivial, by simp, by simp, fun _ => ?_⟩
      simp only [Bool.and_eq_true, Bool.not_eq_true', Bool.or_false] at hdone
      exact ⟨h.last hdone.1, fun d => hturn hdone.1 hdone.2 d (Fin.le_last d)⟩

/-- A database with nothing left to hand on. -/
theorem Sound.passes (h : f.Sound start log copies drained) {d : Database}
    (hat : f.at' = .goes (.hands d [])) :
    (f.step most turn copies (.hands d [])).Sound start log copies drained := by
  have hturn := h.turn
  simp only [CaughtUp, hat] at hturn
  obtain rfl | rfl | rfl := Database.each d
  · have hstep : f.step most turn copies (.hands 0 []) = { f with
        at' := .goes (.takes 1)
        handed := f.handed || false } := by
      simp only [step_eq, handing_eq hat, Handing.ship]
      rfl
    refine h.within (by rw [hstep]) (.inl ⟨1, rfl⟩) fun hlast hhanded => ?_
    rw [hstep] at hhanded ⊢
    have hbefore : ∀ e : Database, e < 1 → e ≤ 0 := by decide
    exact fun e he => hturn hlast (by simpa using hhanded) e (hbefore e he)
  · have hstep : f.step most turn copies (.hands 1 []) = { f with
        at' := .goes (.takes 2)
        handed := f.handed || false } := by
      simp only [step_eq, handing_eq hat, Handing.ship]
      rfl
    refine h.within (by rw [hstep]) (.inl ⟨2, rfl⟩) fun hlast hhanded => ?_
    rw [hstep] at hhanded ⊢
    have hbefore : ∀ e : Database, e < 2 → e ≤ 1 := by decide
    exact fun e he => hturn hlast (by simpa using hhanded) e (hbefore e he)
  · exact h.ends hat

theorem Sound.hands (h : f.Sound start log copies drained) {d : Database}
    {taken : List (Copy Bytes Bytes)} (hat : f.at' = .goes (.hands d taken)) :
    (f.step most turn copies (.hands d taken)).Sound start log copies drained := by
  have hturn := h.turn
  simp only [CaughtUp, hat] at hturn
  cases taken with
  | cons copy rest =>
      have hat' : (f.step most turn copies (.hands d (copy :: rest))).at' =
          .goes (.hands d rest) := by
        simp only [step_eq, handing_eq hat, Handing.ship]
      refine h.within hat' (.inr ⟨d, rest, rfl⟩) fun _ hhanded => ?_
      simp [step_eq, Follower.hands] at hhanded
  | nil => exact h.passes hat

theorem Sound.step (h : f.Sound start log copies drained) {stage : Stage}
    (hat : f.at' = .goes stage) :
    (f.step most turn copies stage).Sound start log copies drained := by
  cases stage with
  | asks d => exact h.asks hat
  | copies d => exact h.copied hat
  | takes d => exact h.takes hat
  | hands d taken => exact h.hands hat
  | ended => exact absurd hat h.going

theorem last_or (last : Bool) :
    (if last then ShippingAt.ended false else .turns) ≠ .ended true := by
  cases last <;> simp

/-- A step that ends a shipping otherwise found that what it lacks is kept no more. -/
theorem Sound.declined (h : f.Sound start log copies drained) {stage : Stage}
    (hat : f.at' = .goes stage) (hended : (f.step most turn copies stage).at' = .ended true) :
    ∃ d, stage = .takes d ∧ f.next d < (copies.kept d).first := by
  simp only [step_eq, handing_eq hat, Handing.ship] at hended
  cases stage with
  | asks d =>
      cases hfollows : copies.followsIn d (f.next d) with
      | ok _ =>
          obtain rfl | rfl | rfl := Database.each d
          · simp [hfollows, following] at hended
          · simp [hfollows, following] at hended
          · simp only [hfollows, following] at hended
            exact absurd hended (last_or _)
      | error reason => simp [hfollows] at hended
  | copies d =>
      obtain rfl | rfl | rfl := Database.each d
      · simp [following] at hended
      · simp [following] at hended
      · exact absurd hended (last_or _)
  | takes d =>
      refine ⟨d, rfl, ?_⟩
      cases hsince : copies.since (sizes most) d (f.next d) turn with
      | ok taken => simp [hsince] at hended
      | error reason =>
          simp only [Copies.since] at hsince
          split at hsince
          · cases hsince
          · split at hsince
            · assumption
            · split at hsince <;> cases hsince
  | hands d taken =>
      cases taken with
      | cons copy rest => simp at hended
      | nil =>
          obtain rfl | rfl | rfl := Database.each d
          · simp [following] at hended
          · simp [following] at hended
          · exact absurd hended (last_or _)
  | ended => exact absurd hat h.going

end Follower

namespace Stopping

variable {s : Stopping}

/-! ## Lending and the stop -/

/-- What is counted as lent is so, and once the stop has waited nothing is. -/
structure Counts (s : Stopping) : Prop where
  lent : s.lent =
    s.operations.counted + s.operations.allowed + s.operations.held + s.operations.leaving
  drained : s.drained = true → s.stopping = true ∧ s.operations.allowed = 0 ∧
    s.operations.held = 0 ∧ s.operations.pinned = 0

theorem Counts.lends (h : s.Counts) (step : Lends) : (s.lends step).Counts := by
  have hlent := h.lent
  have hdrained := h.drained
  cases step with
  | counts => exact ⟨by simp only [Stopping.lends]; omega, hdrained⟩
  | looks =>
      simp only [Stopping.lends]
      split
      · exact h
      · split
        · exact ⟨by dsimp only; omega, hdrained⟩
        · next hstopping =>
            refine ⟨by dsimp only; omega, fun hdone => ?_⟩
            exact absurd (hdrained hdone).1 hstopping
  | takes =>
      simp only [Stopping.lends]
      split
      · exact h
      · next hallowed =>
          split
          · refine ⟨by dsimp only; omega, fun hdone => ?_⟩
            exact absurd (hdrained hdone).2.1 hallowed
          · refine ⟨by dsimp only; omega, fun hdone => ?_⟩
            exact absurd (hdrained hdone).2.1 hallowed
  | pins =>
      simp only [Stopping.lends]
      split
      · exact h
      · next hheld =>
          refine ⟨by dsimp only; omega, fun hdone => ?_⟩
          exact absurd (hdrained hdone).2.2.1 hheld
  | drops =>
      simp only [Stopping.lends]
      split
      · exact h
      · next hheld =>
          refine ⟨by dsimp only; omega, fun hdone => ?_⟩
          exact absurd (hdrained hdone).2.2.1 hheld
  | leaves =>
      simp only [Stopping.lends]
      split
      · exact h
      · exact ⟨by dsimp only; omega, hdrained⟩
  | unpins =>
      refine ⟨hlent, fun hdone => ?_⟩
      obtain ⟨hstopping, hallowed, hheld, hpinned⟩ := hdrained hdone
      exact ⟨hstopping, hallowed, hheld, by simp only [Stopping.lends, hpinned]⟩

/-! ## What the shipping to each follower meets -/

/-- A follower's turn looks at a server that stops only once the stop has waited; and, where it was
connected at the stop, at a primary, and nothing it still lacks was dropped as a database is read for
it. -/
def ShipMeets (s : Stopping) (i : ℕ) : ShippingAt → Prop
  | .turns => s.server = true → s.drained = true
  | .stands => s.atStop i = true → s.primary = true
  | .goes (.takes d) => s.atStop i = true → (s.copies.kept d).first ≤ (s.followers i).next d
  | _ => True

/-- No statement has the databases as the stop has waited, and the shipping to a follower connected
at the stop does not end but after its last turn. -/
def Meets (s : Stopping) : StoppingEvent → Prop
  | .drain => s.stopping = true → s.lent = 0 → s.operations.pinned = 0
  | .ship i => s.ShipMeets i (s.followers i).at'
  | .cut i => s.atStop i = true → (s.followers i).at'.connected = false
  | _ => True

instance (s : Stopping) (i : ℕ) : (at' : ShippingAt) → Decidable (s.ShipMeets i at')
  | .turns => inferInstanceAs (Decidable (s.server = true → s.drained = true))
  | .stands => inferInstanceAs (Decidable (s.atStop i = true → s.primary = true))
  | .goes (.takes d) =>
      inferInstanceAs (Decidable
        (s.atStop i = true → (s.copies.kept d).first ≤ (s.followers i).next d))
  | .away => .isTrue trivial
  | .goes (.asks _) => .isTrue trivial
  | .goes (.copies _) => .isTrue trivial
  | .goes (.hands _ _) => .isTrue trivial
  | .goes .ended => .isTrue trivial
  | .ended _ => .isTrue trivial

instance (s : Stopping) : DecidablePred s.Meets
  | .drain =>
      inferInstanceAs (Decidable (s.stopping = true → s.lent = 0 → s.operations.pinned = 0))
  | .ship i =>
      inferInstanceAs (Decidable (s.ShipMeets i (s.followers i).at'))
  | .cut i =>
      inferInstanceAs (Decidable (s.atStop i = true → (s.followers i).at'.connected = false))
  | .lends _ => .isTrue trivial
  | .write _ _ _ _ => .isTrue trivial
  | .stop => .isTrue trivial
  | .stepDown => .isTrue trivial
  | .halt => .isTrue trivial
  | .follow _ _ _ => .isTrue trivial

structure Sound (start : Copies Bytes Bytes) (s : Stopping) : Prop where
  counts : s.Counts
  followers : ∀ i, (s.followers i).Sound start s.log s.copies s.drained
  connected : ∀ i, s.atStop i = true → (s.followers i).at' ≠ .ended true

theorem Sound.lends (h : s.Sound start) (step : Lends) : (s.lends step).Sound start := by
  have hsame : (s.lends step).copies = s.copies ∧ (s.lends step).log = s.log ∧
      (s.lends step).drained = s.drained ∧ (s.lends step).followers = s.followers ∧
        (s.lends step).atStop = s.atStop := by
    cases step with
    | counts => exact ⟨rfl, rfl, rfl, rfl, rfl⟩
    | unpins => exact ⟨rfl, rfl, rfl, rfl, rfl⟩
    | _ =>
        simp only [Stopping.lends]
        split
        · exact ⟨rfl, rfl, rfl, rfl, rfl⟩
        · first
            | exact ⟨rfl, rfl, rfl, rfl, rfl⟩
            | split <;> exact ⟨rfl, rfl, rfl, rfl, rfl⟩
  obtain ⟨hcopies, hlog, hdrained, hfollowers, hatStop⟩ := hsame
  refine ⟨h.counts.lends step, fun i => ?_, fun i => ?_⟩
  · rw [hcopies, hlog, hdrained, hfollowers]
    exact h.followers i
  · rw [hfollowers, hatStop]
    exact h.connected i

/-- Nothing is written once the stop has waited. -/
theorem Counts.undrained (h : s.Counts) {pinned : Bool}
    (hwriting : s.operations.writing pinned ≠ 0) : s.drained = false := by
  cases hdone : s.drained with
  | false => rfl
  | true =>
      obtain ⟨-, -, hheld, hpinned⟩ := h.drained hdone
      cases pinned <;> simp [Operations.writing, hheld, hpinned] at hwriting

theorem Sound.write (h : s.Sound start) {pinned : Bool} (database : Database)
    (asked : Copied.Write) (answer : Except PersistError Bool)
    (hwriting : s.operations.writing pinned ≠ 0) :
    Sound start { s with
      copies := s.copies.wrote most database asked answer
      log := s.log ++ [.write database asked answer] } := by
  have hdrained := h.counts.undrained hwriting
  refine ⟨⟨h.counts.lent, h.counts.drained⟩, fun i => ?_, h.connected⟩
  have hf := h.followers i
  have hlast : (s.followers i).last = false := by
    cases hlast : (s.followers i).last with
    | false => rfl
    | true => exact absurd (hf.last hlast) (by simp [hdrained])
  have hwrote : Handing.Sound start (s.log ++ [.write database asked answer])
      (((s.followers i).handing s.copies).after most 0 (.write database asked answer)) :=
    hf.handing.wrote
  refine ⟨hwrote, hf.last, fun hlast' => ?_, hf.begins, hf.going, fun hended => ?_⟩
  · exact absurd (hlast.symm.trans hlast') (by decide)
  · exact absurd (hf.ended hended).1 (by simp [hdrained])

theorem Sound.set (h : s.Sound start) (i : ℕ) {f : Follower}
    (hf : f.Sound start s.log s.copies s.drained) (hat : s.atStop i = true → f.at' ≠ .ended true) :
    (s.set i f).Sound start := by
  refine ⟨⟨h.counts.lent, h.counts.drained⟩, fun j => ?_, fun j => ?_⟩
  · by_cases hj : j = i
    · subst hj
      simpa [Stopping.set] using hf
    · simpa [Stopping.set, hj] using h.followers j
  · by_cases hj : j = i
    · subst hj
      simpa [Stopping.set] using hat
    · simpa [Stopping.set, hj] using h.connected j

theorem Sound.ship (h : s.Sound start) (i : ℕ) (hmeets : s.Meets (.ship i)) :
    (s.ship most turn i).Sound start := by
  have hf := h.followers i
  simp only [Meets] at hmeets
  simp only [Stopping.ship]
  split
  · exact h
  · next hat =>
      rw [hat] at hmeets
      refine h.set i ⟨?_, fun hlast => ?_, fun _ _ => trivial, by simp, by simp, by simp⟩ (by simp)
      · have hhanding := hf.handing
        simpa only [Follower.handing, hat] using hhanding
      · simp only [Bool.or_eq_true] at hlast
        exact hlast.elim (fun h => h) hmeets
  · next hat =>
      rw [hat] at hmeets
      have hhanding := hf.handing
      cases hprimary : s.primary with
      | true =>
          simp only [if_true]
          refine h.set i ⟨?_, hf.last, fun _ _ e he => absurd he (by simp), by simp, by simp,
            by simp⟩ (by simp)
          simpa only [Follower.handing, hat] using hhanding
      | false =>
          have hdeclined : s.atStop i = false := by
            cases hatStop : s.atStop i with
            | false => rfl
            | true => exact absurd (hmeets hatStop) (by simp [hprimary])
          refine h.set i ⟨?_, hf.last, fun _ _ => trivial, by simp, by simp, by simp⟩
            (by simp [hdeclined])
          simp only [Follower.handing, hat] at hhanding
          exact hhanding.staged nofun nofun nofun
  · next stage hat =>
      rw [hat] at hmeets
      refine h.set i (hf.step hat) fun hatStop hended => ?_
      obtain ⟨d, rfl, hlt⟩ := hf.declined hat hended
      have hkept : (s.copies.kept d).first ≤ (s.followers i).next d := hmeets hatStop
      omega
  · exact h

theorem Sound.follow (h : s.Sound start) (i history : ℕ) (next : Database → ℕ) :
    Sound start (s.set i ⟨.goes (if history = s.copies.history then .asks 0 else .copies 0), false,
      false, next, next, []⟩) := by
  refine h.set i ⟨?_, by simp, by simp, fun _ _ => rfl, ?_, by simp⟩ ?_
  · have hhanding := (h.followers i).handing
    have hfollow : Handing.Sound start (s.log ++ [.follow history next])
        (((s.followers i).handing s.copies).after 0 0 (.follow history next)) :=
      hhanding.follow history next
    exact hfollow.unlogged fun _ => rfl
  · split <;> simp
  · simp

theorem Sound.after (h : s.Sound start) (event : StoppingEvent) (hmeets : s.Meets event) :
    (s.after most turn event).Sound start := by
  cases event with
  | lends step => exact h.lends step
  | write pinned database asked answer =>
      simp only [Stopping.after]
      split
      · exact h
      · next hwriting => exact h.write database asked answer hwriting
  | stop =>
      simp only [Stopping.after]
      split
      · exact h
      · refine ⟨⟨h.counts.lent, fun hdone => ?_⟩, h.followers, fun i hatStop hended => ?_⟩
        · exact ⟨rfl, (h.counts.drained hdone).2⟩
        · have hat : (s.followers i).at' = .ended true := hended
          simp [hat, ShippingAt.connected] at hatStop
  | drain =>
      simp only [Stopping.after]
      split
      · next hwaited =>
          simp only [Bool.and_eq_true, decide_eq_true_eq] at hwaited
          have hlent := h.counts.lent
          refine ⟨⟨hlent, fun _ => ⟨hwaited.1, ?_, ?_, hmeets hwaited.1 hwaited.2⟩⟩, fun i => ?_,
            h.connected⟩
          · dsimp only
            omega
          · dsimp only
            omega
          · have hf := h.followers i
            exact ⟨hf.handing, fun _ => rfl, hf.turn, hf.begins, hf.going, fun hended =>
              ⟨rfl, (hf.ended hended).2⟩⟩
      · exact h
  | stepDown => exact ⟨⟨h.counts.lent, h.counts.drained⟩, h.followers, h.connected⟩
  | halt => exact ⟨⟨h.counts.lent, h.counts.drained⟩, h.followers, h.connected⟩
  | follow i history next =>
      simp only [Stopping.after]
      split
      · split
        · exact h.follow i history next
        · exact h
      · exact h
  | ship i => exact h.ship i hmeets
  | cut i =>
      simp only [Meets] at hmeets
      simp only [Stopping.after]
      split
      · exact h
      · exact h
      · next haway hended =>
          have hconnected : (s.followers i).at'.connected = true := by
            cases hat : (s.followers i).at' with
            | away => exact absurd hat haway
            | ended declined => exact absurd hat (hended declined)
            | _ => rfl
          have hf := h.followers i
          refine h.set i ⟨hf.handing.staged nofun nofun nofun, hf.last, fun _ _ => trivial, by simp,
            by simp, by simp⟩ fun hatStop => ?_
          exact absurd (hconnected.symm.trans (hmeets hatStop)) (by decide)

theorem Sound.begun (start : Copies Bytes Bytes) : (begun start).Sound start where
  counts := ⟨rfl, by simp [Stopping.begun]⟩
  followers i :=
    ⟨⟨⟨fun d => by simp [Stopping.begun, Follower.away, Follower.handing],
          fun d => by simp [Stopping.begun, Follower.away, Follower.handing, Handing.numbered]⟩,
        fun d => by simp [Stopping.begun, Follower.away, Follower.handing, Handing.handedIn],
        fun d => by simp [Stopping.begun, Follower.away, Follower.handing, Handing.handedIn],
        fun d w hw => by
          simp [Stopping.begun, Follower.away, Follower.handing, Handing.handedIn] at hw,
        nofun, nofun, nofun⟩,
      nofun, nofun, nofun, nofun, nofun⟩
  connected _ _ := nofun

/-! ## What a stop leaves -/

/-- Once the stop has waited nothing is asked of the engines, and nothing numbered. -/
def Quiet (most turn : ℕ) (s : Stopping) (event : StoppingEvent) : Prop :=
  s.drained = true → (s.after most turn event).log = s.log ∧
    (s.after most turn event).copies = s.copies

/-- Each follower is handed writes from where it was accepted on, in their order; one connected at
the stop whose shipping ended, up to the last there is. -/
structure HandedOn (start : Copies Bytes Bytes) (s : Stopping) : Prop where
  last : ∀ i declined, s.atStop i = true → (s.followers i).at' = .ended declined →
    declined = false ∧ s.drained = true
  inOrder : ∀ i d, ((s.followers i).handedIn d).map Prod.fst =
    List.range' ((s.followers i).accepted d) ((s.followers i).handedIn d).length
  written : ∀ i d, ∀ copy ∈ (s.followers i).handedIn d, copy ∈ Handing.numbered start d s.log
  all : ∀ i declined, s.atStop i = true → (s.followers i).at' = .ended declined → ∀ d,
    s.copies.next d ≤ (s.followers i).accepted d + ((s.followers i).handedIn d).length

theorem Sound.quiet (h : s.Sound start) (event : StoppingEvent) : s.Quiet most turn event := by
  intro hdone
  cases event with
  | lends step =>
      cases step with
      | counts => exact ⟨rfl, rfl⟩
      | unpins => exact ⟨rfl, rfl⟩
      | _ =>
          simp only [Stopping.after, Stopping.lends]
          split
          · exact ⟨rfl, rfl⟩
          · first
              | exact ⟨rfl, rfl⟩
              | split <;> exact ⟨rfl, rfl⟩
  | write pinned database asked answer =>
      simp only [Stopping.after]
      split
      · exact ⟨rfl, rfl⟩
      · next hwriting =>
          have hdrained := h.counts.undrained hwriting
          exact absurd (hdrained.symm.trans hdone) (by decide)
  | stop =>
      simp only [Stopping.after]
      split <;> exact ⟨rfl, rfl⟩
  | drain =>
      simp only [Stopping.after]
      split <;> exact ⟨rfl, rfl⟩
  | stepDown => exact ⟨rfl, rfl⟩
  | halt => exact ⟨rfl, rfl⟩
  | follow i history next =>
      simp only [Stopping.after]
      split
      · split <;> exact ⟨rfl, rfl⟩
      · exact ⟨rfl, rfl⟩
  | ship i =>
      simp only [Stopping.after, Stopping.ship]
      split <;> exact ⟨rfl, rfl⟩
  | cut i =>
      simp only [Stopping.after]
      split <;> exact ⟨rfl, rfl⟩

/-- The shipping to a follower connected at the stop ends after its last turn. -/
theorem Sound.endsInOrder (h : s.Sound start) {i : ℕ} {declined : Bool}
    (hatStop : s.atStop i = true) (hended : (s.followers i).at' = .ended declined) :
    declined = false := by
  cases declined with
  | false => rfl
  | true => exact absurd hended (h.connected i hatStop)

theorem Sound.handedOn (h : s.Sound start) : s.HandedOn start where
  last i declined hatStop hended := by
    obtain rfl := h.endsInOrder hatStop hended
    exact ⟨rfl, ((h.followers i).ended hended).1⟩
  inOrder i := (h.followers i).handing.numbers
  written i := (h.followers i).handing.handed
  all i declined hatStop hended d := by
    obtain rfl := h.endsInOrder hatStop hended
    have hnext := (h.followers i).handing.next d
    have hall := ((h.followers i).ended hended).2 d
    exact hall.trans hnext.le

/-- The number of a database that a follower is accepted from after an event: the one it asks for,
that of the whole copy it is to be handed, or the one before. -/
inductive AcceptedFrom (s : Stopping) (i : ℕ) (d : Database) : StoppingEvent → ℕ → Prop
  | asked {history : ℕ} {next : Database → ℕ} (haway : (s.followers i).at' = .away)
      (hprimary : s.primary = true) : AcceptedFrom s i d (.follow i history next) (next d)
  | whole (hat : (s.followers i).at' = .goes (.copies d)) :
      AcceptedFrom s i d (.ship i) (s.copies.next d)
  | kept {event : StoppingEvent}
      (hasked : (s.followers i).at' = .away → s.primary = true →
        ∀ history next, event ≠ .follow i history next)
      (hwhole : (s.followers i).at' = .goes (.copies d) → event ≠ .ship i) :
      AcceptedFrom s i d event ((s.followers i).accepted d)

/-- Each follower goes on from where it was accepted. -/
def Accepts (most turn : ℕ) (s : Stopping) (event : StoppingEvent) : Prop :=
  ∀ i d, AcceptedFrom s i d event (((s.after most turn event).followers i).accepted d)

theorem set_self (s : Stopping) (i : ℕ) (f : Follower) : (s.set i f).followers i = f := by
  simp [Stopping.set]

theorem set_other (s : Stopping) {i j : ℕ} (h : i ≠ j) (f : Follower) :
    (s.set j f).followers i = s.followers i := by
  simp [Stopping.set, h]

theorem set_accepted (s : Stopping) (i : ℕ) {j : ℕ} {f : Follower}
    (h : f.accepted = (s.followers j).accepted) :
    ((s.set j f).followers i).accepted = (s.followers i).accepted := by
  by_cases hi : i = j
  · subst hi
    rw [set_self, h]
  · rw [set_other s hi]

theorem ship_accepted (s : Stopping) (j i : ℕ) (d : Database) :
    AcceptedFrom s i d (.ship j) (((s.ship most turn j).followers i).accepted d) := by
  have hkept : ((s.ship most turn j).followers i).accepted d = (s.followers i).accepted d →
      ((s.followers i).at' = .goes (.copies d) → j ≠ i) →
        AcceptedFrom s i d (.ship j) (((s.ship most turn j).followers i).accepted d) := by
    intro hsame hwhole
    rw [hsame]
    exact .kept (fun _ _ _ _ he => by cases he) fun hat hship =>
      hwhole hat (StoppingEvent.ship.inj hship)
  cases hat : (s.followers j).at' with
  | goes stage =>
      have hship : s.ship most turn j = s.set j ((s.followers j).step most turn s.copies stage) := by
        simp [Stopping.ship, hat]
      have hstage : ((s.followers j).handing s.copies).stage = stage := by
        simp [Follower.handing, hat]
      by_cases hcopies : stage = .copies d
      · by_cases hi : j = i
        · subst hi hcopies
          have hnext : ((s.ship most turn j).followers j).accepted d = s.copies.next d := by
            rw [hship, set_self]
            exact Handing.accepted_copied hstage
          rw [hnext]
          exact .whole hat
        · refine hkept ?_ fun _ => hi
          rw [hship, set_other s (Ne.symm hi)]
      · refine hkept ?_ fun hgoes hji => ?_
        · rw [hship]
          by_cases hi : j = i
          · subst hi
            rw [set_self]
            exact Handing.accepted_same (by rwa [hstage])
          · rw [set_other s (Ne.symm hi)]
        · rw [hji, hgoes] at hat
          exact hcopies (ShippingAt.goes.inj hat).symm
  | away =>
      refine hkept (by simp [Stopping.ship, hat]) fun hgoes hji => ?_
      rw [hji, hgoes] at hat
      cases hat
  | turns =>
      refine hkept ?_ fun hgoes hji => ?_
      · have hship := set_accepted s i (j := j)
          (f := { s.followers j with
            at' := .stands, last := s.drained || s.server, handed := false }) rfl
        simpa [Stopping.ship, hat] using congrFun hship d
      · rw [hji, hgoes] at hat
        cases hat
  | stands =>
      refine hkept ?_ fun hgoes hji => ?_
      · have hship := set_accepted s i (j := j)
          (f := { s.followers j with
            at' := if s.primary then .goes (.takes 0) else .ended true }) rfl
        simpa [Stopping.ship, hat] using congrFun hship d
      · rw [hji, hgoes] at hat
        cases hat
  | ended declined =>
      refine hkept (by simp [Stopping.ship, hat]) fun hgoes hji => ?_
      rw [hji, hgoes] at hat
      cases hat

theorem accepts (most turn : ℕ) (s : Stopping) (event : StoppingEvent) :
    s.Accepts most turn event := by
  intro i d
  have hkept : ((s.after most turn event).followers i).accepted d = (s.followers i).accepted d →
      (∀ history next, event ≠ .follow i history next) → (∀ j, event ≠ .ship j) →
        AcceptedFrom s i d event (((s.after most turn event).followers i).accepted d) := by
    intro hsame hfollow hship
    rw [hsame]
    exact .kept (fun _ _ => hfollow) fun _ => hship i
  cases event with
  | lends step =>
      refine hkept ?_ (by simp) (by simp)
      cases step <;> simp only [Stopping.after, Stopping.lends] <;> (repeat' split) <;> rfl
  | write pinned database write answer =>
      refine hkept ?_ (by simp) (by simp)
      simp only [Stopping.after]
      split <;> rfl
  | stop =>
      refine hkept ?_ (by simp) (by simp)
      simp only [Stopping.after]
      split <;> rfl
  | drain =>
      refine hkept ?_ (by simp) (by simp)
      simp only [Stopping.after]
      split <;> rfl
  | stepDown => exact hkept rfl (by simp) (by simp)
  | halt => exact hkept rfl (by simp) (by simp)
  | follow j history next =>
      by_cases hfollow : (s.followers j).at' = .away ∧ s.primary = true
      · by_cases hi : j = i
        · subst hi
          have hasked : ((s.after most turn (.follow j history next)).followers j).accepted d =
              next d := by
            simp [Stopping.after, hfollow, set_self]
          rw [hasked]
          exact .asked hfollow.1 hfollow.2
        · refine hkept ?_ (by simp [hi]) (by simp)
          simp [Stopping.after, hfollow, set_other s (Ne.symm hi)]
      · have hsame : s.after most turn (.follow j history next) = s := by
          simp only [Stopping.after]
          split
          · next haway => simp [show s.primary = false by simpa [haway] using hfollow]
          · rfl
        rw [hsame]
        refine .kept (fun haway hprimary _ _ he => hfollow ?_) (by simp)
        rw [(StoppingEvent.follow.inj he).1]
        exact ⟨haway, hprimary⟩
  | ship j => exact ship_accepted s j i d
  | cut j =>
      refine hkept ?_ (by simp) (by simp)
      have hcut := set_accepted s i (j := j) (f := { s.followers j with at' := .ended true }) rfl
      simp only [Stopping.after]
      split
      · rfl
      · rfl
      · exact congrFun hcut d

/-- In every run in which no statement has the databases as the stop has waited, and the shipping to
a follower connected at the stop ends only after its last turn, nothing is written once the stop has
waited, and each follower connected at the stop is handed every write before its shipping ends, from
the number it asked or that of the whole copy it was handed. -/
theorem stopped_in_order (most turn : ℕ) (start : Copies Bytes Bytes) (events : List StoppingEvent)
    (hmeets : EachStep (after most turn) Meets (begun start) events) :
    EachStep (after most turn) (Quiet most turn) (begun start) events ∧
      EachStep (after most turn) (Accepts most turn) (begun start) events ∧
        ((begun start).run most turn events).HandedOn start := by
  have hstep : ∀ (s : Stopping) (event : StoppingEvent), s.Sound start → s.Meets event →
      (s.after most turn event).Sound start := fun s event h hevent => h.after event hevent
  have hquiet : ∀ (s : Stopping) (event : StoppingEvent), s.Sound start → s.Meets event →
      s.Quiet most turn event := fun s event h _ => h.quiet event
  have hend : ((begun start).run most turn events).Sound start :=
    hmeets.invariant (Sound.begun start) hstep
  exact ⟨hmeets.mono_of_invariant (Sound.begun start) hquiet hstep,
    .of_forall (accepts most turn) _ _, hend.handedOn⟩

/-- A follower accepted, and an operation lent the databases. -/
def lentAndFollowed : List StoppingEvent :=
  [.follow 0 3 fun _ => 1, .ship 0, .ship 0, .ship 0, .lends .counts, .lends .looks, .lends .takes]

/-- A key written, by an operation or by a statement. -/
def writes (pinned : Bool) : StoppingEvent := .write pinned 0 (.write [107] [97]) (.ok true)

/-- An operation that the stop waits for writes as the node stops, and its write is handed on. -/
def waitedFor : List StoppingEvent :=
  lentAndFollowed ++ [.stop, writes false, .lends .drops, .drain] ++ List.replicate 17 (.ship 0)

theorem stopped_waiting :
    let s := (begun (.restart 3 fun _ => 1)).run 8 64 waitedFor
    EachStep (after 8 64) Meets (begun (.restart 3 fun _ => 1)) waitedFor ∧
      s.HandedOn (.restart 3 fun _ => 1) ∧ s.atStop 0 = true ∧ (s.followers 0).at' = .ended false ∧
      (s.followers 0).handedIn 0 = [(1, [([107], some [97])])] := by
  have hmeets : EachStep (after 8 64) Meets (begun (.restart 3 fun _ => 1)) waitedFor := by
    decide +kernel
  exact ⟨hmeets, (stopped_in_order 8 64 (.restart 3 fun _ => 1) waitedFor hmeets).2.2, rfl,
    rfl, by decide +kernel⟩

/-- A statement that was lent the databases before the stop, and the last turn of a follower's
shipping. -/
def pinnedBefore : List StoppingEvent :=
  lentAndFollowed ++ [.lends .pins, .stop, .drain] ++ List.replicate 8 (.ship 0)

/-- A statement's operation writes once the stop has waited, and the follower, whose shipping has
ended, is never handed it. -/
theorem pinned_past :
    let s := (begun (.restart 3 fun _ => 1)).run 8 64 (pinnedBefore ++ [writes true])
    ¬ EachStep (after 8 64) (Quiet 8 64) (begun (.restart 3 fun _ => 1))
        (pinnedBefore ++ [writes true]) ∧
      ¬ s.HandedOn (.restart 3 fun _ => 1) := by
  constructor
  · intro hquiet
    have hlast := (EachStep.of_append hquiet).2.head
    have hlog := congrArg List.length (hlast (by decide +kernel)).1
    revert hlog
    decide +kernel
  · intro hhanded
    have hended : (((begun (.restart 3 fun _ => 1)).run 8 64
        (pinnedBefore ++ [writes true])).followers 0).at' = .ended false := rfl
    have hall := hhanded.all 0 false rfl hended 0
    revert hall
    decide +kernel

end Stopping

end XmipPersist.Standby
