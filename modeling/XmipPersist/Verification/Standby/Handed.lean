import XmipPersist.Model.Copied
import XmipPersist.Verification.Standby.Copied

/-! # The copies handed on are the writes, in their order

A database's writes are kept as they are numbered, the oldest dropped first, so what is handed on of
them is always a stretch of all there were.
-/

namespace XmipPersist.Standby

open Handing

variable {κ ν : Type} {bounds : Bounds κ ν}

/-! ## What is no longer kept -/

theorem forM_ok_iff {α ε : Type} {f : α → Except ε Unit} {xs : List α} :
    xs.forM f = .ok () ↔ ∀ x ∈ xs, f x = .ok () := by
  induction xs with
  | nil => simp [pure, Except.pure]
  | cons x xs ih =>
      change (f x >>= fun _ => xs.forM f) = _ ↔ _
      cases hx : f x with
      | error reason => simp [bind, Except.bind, hx]
      | ok _ =>
          simp only [bind, Except.bind, List.mem_cons, forall_eq_or_imp, hx, true_and]
          exact ih

/-- Databases asked one after the other answer as the first that errs. -/
theorem databases_error_iff {ε : Type} {f : Database → Except ε Unit} {reason : ε} :
    ([0, 1, 2] : List Database).forM f = .error reason ↔
      ∃ d, (∀ e < d, f e = .ok ()) ∧ f d = .error reason := by
  change (f 0 >>= fun _ => f 1 >>= fun _ => f 2 >>= fun _ => pure ()) = _ ↔ _
  constructor
  · intro h
    cases h0 : f 0 with
    | error first =>
        rw [h0] at h
        exact ⟨0, by simp, h0.trans h⟩
    | ok _ =>
        rw [h0] at h
        cases h1 : f 1 with
        | error first =>
            rw [h1] at h
            refine ⟨1, fun e he => ?_, h1.trans h⟩
            match e with
            | 0 => exact h0
        | ok _ =>
            rw [h1] at h
            refine ⟨2, fun e he => ?_, ?_⟩
            · match e with
              | 0 => exact h0
              | 1 => exact h1
            · cases h2 : f 2 with
              | error first =>
                  rw [h2] at h
                  exact h
              | ok _ =>
                  rw [h2] at h
                  cases h
  · rintro ⟨d, hbefore, hd⟩
    match d with
    | 0 =>
        rw [hd]
        rfl
    | 1 =>
        rw [hbefore 0 (by decide), hd]
        rfl
    | 2 =>
        rw [hbefore 0 (by decide), hbefore 1 (by decide), hd]
        rfl

theorem Kept.first_eq (kept : Kept κ ν) : kept.first = kept.next - kept.writes.length := by
  have hnum := kept.numbered
  cases hws : kept.writes with
  | nil => simp [Kept.first, hws]
  | cons w rest =>
      rw [hws, List.map_cons, List.length_cons, List.range'_succ] at hnum
      simpa [Kept.first, hws] using (List.cons.inj hnum).1

theorem Kept.mem_numbers (kept : Kept κ ν) {n : ℕ} :
    n ∈ kept.writes.map Prod.fst ↔ kept.first ≤ n ∧ n < kept.next := by
  have hle := kept.le_next
  rw [kept.numbered, List.mem_range'_1, kept.first_eq]
  omega

/-- A write of `database` that was numbered and is no longer kept. -/
def Copies.Evicted (copies : Copies κ ν) (database : Database) (n : ℕ) : Prop :=
  n < copies.next database ∧ n ∉ (copies.kept database).writes.map Prod.fst

namespace Copies

variable {copies : Copies κ ν} {d : Database} {from' : ℕ}

theorem evicted_iff {n : ℕ} : copies.Evicted d n ↔ n < (copies.kept d).first := by
  have hle : (copies.kept d).first ≤ (copies.kept d).next := by
    rw [Kept.first_eq]
    exact Nat.sub_le _ _
  have hnext : copies.next d = (copies.kept d).next := rfl
  rw [Evicted, Kept.mem_numbers]
  omega

/-- What is still needed from a number on was evicted just where that number was. -/
theorem needs_evicted_iff :
    (∃ n, from' ≤ n ∧ copies.Evicted d n) ↔ from' < (copies.kept d).first := by
  constructor
  · rintro ⟨n, hn, hevicted⟩
    exact hn.trans_lt (evicted_iff.mp hevicted)
  · intro h
    exact ⟨from', le_rfl, evicted_iff.mpr h⟩

theorem since_past_iff (most : ℕ) :
    copies.since bounds d from' most = .error .past ↔ ∃ n, from' ≤ n ∧ copies.Evicted d n := by
  have hle : (copies.kept d).first ≤ (copies.kept d).next := by
    rw [Kept.first_eq]
    exact Nat.sub_le _ _
  rw [needs_evicted_iff]
  simp only [since]
  by_cases hnext : (copies.kept d).next ≤ from'
  · have hfirst : ¬ from' < (copies.kept d).first := by omega
    simp [hnext, hfirst]
  · by_cases hfirst : from' < (copies.kept d).first
    · simp [hnext, hfirst]
    · simp only [hnext, hfirst, if_false, iff_false]
      split <;> simp

theorem followsIn_past_iff :
    copies.followsIn d from' = .error .past ↔ ∃ n, from' ≤ n ∧ copies.Evicted d n := by
  have hle : (copies.kept d).first ≤ (copies.kept d).next := by
    rw [Kept.first_eq]
    exact Nat.sub_le _ _
  rw [needs_evicted_iff]
  simp only [followsIn]
  by_cases hnext : (copies.kept d).next < from'
  · have hfirst : ¬ from' < (copies.kept d).first := by omega
    simp [hnext, hfirst]
  · by_cases hfirst : from' < (copies.kept d).first
    · simp [hnext, hfirst]
    · simp [hnext, hfirst]

/-- A position past this node's own numbers is of another history. -/
theorem followsIn_another_iff :
    copies.followsIn d from' = .error .another ↔ copies.next d < from' := by
  have hnext : copies.next d = (copies.kept d).next := rfl
  simp only [followsIn, hnext]
  split
  · simp_all
  · split <;> simp_all

theorem followsIn_ok_iff :
    copies.followsIn d from' = .ok () ↔
      from' ≤ copies.next d ∧ ∀ n, from' ≤ n → ¬copies.Evicted d n := by
  have hpast : copies.followsIn d from' = .error .past ↔ ∃ n, from' ≤ n ∧ copies.Evicted d n :=
    followsIn_past_iff
  have hanother : copies.followsIn d from' = .error .another ↔ copies.next d < from' :=
    followsIn_another_iff
  cases hfollows : copies.followsIn d from' with
  | ok _ =>
      simp only [hfollows, reduceCtorEq, false_iff, not_exists, not_and, not_lt] at hpast hanother
      simpa using ⟨hanother, hpast⟩
  | error reason =>
      cases reason with
      | past =>
          obtain ⟨n, hn, hevicted⟩ := hpast.mp hfollows
          simp only [reduceCtorEq, false_iff]
          exact fun h => h.2 n hn hevicted
      | another =>
          have hlt := hanother.mp hfollows
          simp only [reduceCtorEq, false_iff]
          exact fun h => absurd h.1 (not_le.mpr hlt)

/-- A follower of this history is past where, in the first database it cannot follow in, a write it
needs was evicted. -/
theorem follows_past_iff {history : ℕ} {next : Database → ℕ} :
    copies.follows history next = .error .past ↔
      history = copies.history ∧ ∃ d, (∀ e < d, copies.followsIn e (next e) = .ok ()) ∧
        ∃ n, next d ≤ n ∧ copies.Evicted d n := by
  rw [follows_eq]
  by_cases hhistory : history = copies.history
  · simp only [hhistory, ne_eq, not_true, if_false, true_and, databases_error_iff,
      followsIn_past_iff]
  · simp [hhistory]

/-- It is another's where it names another history, or in the first database it cannot follow in it
is ahead. -/
theorem follows_another_iff {history : ℕ} {next : Database → ℕ} :
    copies.follows history next = .error .another ↔
      history ≠ copies.history ∨ ∃ d, (∀ e < d, copies.followsIn e (next e) = .ok ()) ∧
        copies.next d < next d := by
  rw [follows_eq]
  by_cases hhistory : history = copies.history
  · simp only [hhistory, ne_eq, not_true, if_false, false_or, databases_error_iff,
      followsIn_another_iff]
  · simp [hhistory]

/-- It is accepted where it is of this history and can follow in each database. -/
theorem follows_ok_iff {history : ℕ} {next : Database → ℕ} :
    copies.follows history next = .ok () ↔
      history = copies.history ∧ ∀ d, next d ≤ copies.next d ∧
        ∀ n, next d ≤ n → ¬copies.Evicted d n := by
  rw [follows_eq]
  by_cases hhistory : history = copies.history
  · have hall : ∀ P : Database → Prop, (∀ d ∈ ([0, 1, 2] : List Database), P d) ↔ ∀ d, P d :=
      fun P => ⟨fun h d => h d (by obtain rfl | rfl | rfl := Database.each d <;> simp),
        fun h d _ => h d⟩
    simp only [hhistory, ne_eq, not_true, if_false, true_and, forM_ok_iff, hall,
      followsIn_ok_iff]
  · simp [hhistory]

/-- What a primary says of a follower's position: of its writes from there on, and of whether it
follows from there, in one database and in all of them. -/
structure Answers (copies : Copies κ ν) (bounds : Bounds κ ν) : Prop where
  since : ∀ d from' most, copies.since bounds d from' most = .error .past ↔
    ∃ n, from' ≤ n ∧ copies.Evicted d n
  past : ∀ d from', copies.followsIn d from' = .error .past ↔
    ∃ n, from' ≤ n ∧ copies.Evicted d n
  another : ∀ d from', copies.followsIn d from' = .error .another ↔ copies.next d < from'
  accepted : ∀ d from', copies.followsIn d from' = .ok () ↔
    from' ≤ copies.next d ∧ ∀ n, from' ≤ n → ¬copies.Evicted d n
  allPast : ∀ history next, copies.follows history next = .error .past ↔
    history = copies.history ∧ ∃ d, (∀ e < d, copies.followsIn e (next e) = .ok ()) ∧
      ∃ n, next d ≤ n ∧ copies.Evicted d n
  allAnother : ∀ history next, copies.follows history next = .error .another ↔
    history ≠ copies.history ∨ ∃ d, (∀ e < d, copies.followsIn e (next e) = .ok ()) ∧
      copies.next d < next d
  allAccepted : ∀ history next, copies.follows history next = .ok () ↔
    history = copies.history ∧ ∀ d, next d ≤ copies.next d ∧
      ∀ n, next d ≤ n → ¬copies.Evicted d n

theorem answers (copies : Copies κ ν) (bounds : Bounds κ ν) : copies.Answers bounds where
  since _ _ most := since_past_iff most
  past _ _ := followsIn_past_iff
  another _ _ := followsIn_another_iff
  accepted _ _ := followsIn_ok_iff
  allPast _ _ := follows_past_iff
  allAnother _ _ := follows_another_iff
  allAccepted _ _ := follows_ok_iff

end Copies

/-! ## What was written -/

namespace Handing

variable {most turn : ℕ} {start : Copies Bytes Bytes} {s : Handing} {events : List Event}
  {d : Database}

/-- What an event keeps of a database: the changes of a write that wrote, but for the store's own. -/
def Event.keeps (d : Database) : Event → Option (List (Change Bytes Bytes))
  | .write database asked answer =>
      if database = d ∧ asked.done answer = .ok true ∧ asked.copied ≠ [] then some asked.copied
      else none
  | _ => none

/-- Every write of a database under its number: those kept at the start, and those since. -/
def numbered (start : Copies Bytes Bytes) (d : Database) (events : List Event) :
    List (Copy Bytes Bytes) :=
  (start.kept d).writes ++
    (events.filterMap (Event.keeps d)).mapIdx fun i changes => (start.next d + i, changes)

theorem numbered_concat (event : Event) :
    numbered start d (events ++ [event]) = numbered start d events ++
      ((event.keeps d).map fun changes =>
        (start.next d + (events.filterMap (Event.keeps d)).length, changes)).toList := by
  rw [numbered, numbered, List.filterMap_append, List.mapIdx_append, List.append_assoc]
  congr 2
  cases h : event.keeps d with
  | none => simp [h]
  | some changes => simp [h]

/-- All the writes of a database are numbered one after another. -/
theorem numbered_numbers : (numbered start d events).map Prod.fst =
    List.range' (start.kept d).first (numbered start d events).length := by
  have hle := (start.kept d).le_next
  have hfirst := (start.kept d).first_eq
  have hsince : ((events.filterMap (Event.keeps d)).mapIdx fun i changes =>
      (start.next d + i, changes)).map Prod.fst =
      List.range' (start.next d) (events.filterMap (Event.keeps d)).length := by
    apply List.ext_getElem
    · simp
    · simp
  rw [numbered, List.map_append, hsince, (start.kept d).numbered, List.length_append,
    List.length_mapIdx, ← List.range'_append_1, hfirst]
  congr 2
  change (start.kept d).next = _
  omega

/-- A primary's writes since the start: as many numbered as were taken, and of all there were the
last kept. -/
structure Logged (start : Copies Bytes Bytes) (events : List Event) (s : Handing) : Prop where
  next : ∀ d, s.copies.next d = start.next d + (events.filterMap (Event.keeps d)).length
  kept : ∀ d, (s.copies.kept d).writes <:+ numbered start d events

theorem wrote_eq (copies : Copies Bytes Bytes) (e : Database) (asked : Copied.Write)
    (answer : Except PersistError Bool) :
    copies.wrote most e asked answer =
      match Event.keeps e (.write e asked answer) with
      | none => copies
      | some changes => copies.keep (sizes most) e changes := by
  simp only [Copies.wrote, Copies.written, Event.keeps]
  cases hdone : asked.done answer with
  | error reason => simp
  | ok wrote =>
      cases wrote with
      | false => simp
      | true =>
          by_cases hcopied : asked.copied = []
          · simp [hcopied]
          · simp [hcopied]

theorem keeps_of_ne {e : Database} (h : e ≠ d) (asked : Copied.Write)
    (answer : Except PersistError Bool) : Event.keeps d (.write e asked answer) = none := by
  simp [Event.keeps, h]

theorem copies_ship : (s.ship most turn).copies = s.copies := by
  rw [ship]
  split
  · split <;> rfl
  · rfl
  · split <;> rfl
  · rfl
  · rfl
  · rfl

theorem Logged.same (h : Logged start events s) {event : Event} {s' : Handing}
    (hcopies : s'.copies = s.copies) (hnone : ∀ d, event.keeps d = none) :
    Logged start (events ++ [event]) s' where
  next d := by simp [hcopies, h.next d, hnone d]
  kept d := by simpa [hcopies, numbered_concat, hnone d] using h.kept d

theorem Logged.keep (h : Logged start events s) {e : Database} {asked : Copied.Write}
    {answer : Except PersistError Bool} {changes : List (Change Bytes Bytes)}
    (hkeeps : Event.keeps e (.write e asked answer) = some changes) :
    Logged start (events ++ [.write e asked answer])
      { s with copies := s.copies.keep (sizes most) e changes } where
  next d := by
    by_cases hd : e = d
    · subst hd
      have hnext := h.next e
      simp only [Copies.next, Copies.keep, Kept.keep, Function.update_self,
        List.filterMap_append, List.length_append] at hnext ⊢
      simp [hkeeps, hnext]
      omega
    · have hnext := h.next d
      simp [Copies.next, Copies.keep, Ne.symm hd, keeps_of_ne hd] at hnext ⊢
      exact hnext
  kept d := by
    rw [numbered_concat]
    by_cases hd : e = d
    · subst hd
      have hnext : (s.copies.kept e).next = _ := h.next e
      simp only [Copies.keep, Kept.keep, Function.update_self, hkeeps, hnext]
      apply (List.drop_suffix _ _).trans
      obtain ⟨older, holder⟩ := h.kept e
      exact ⟨older, by rw [← List.append_assoc, holder]; rfl⟩
    · simpa [Copies.keep, Ne.symm hd, keeps_of_ne hd] using h.kept d

theorem Logged.after (h : Logged start events s) (event : Event) :
    Logged start (events ++ [event]) (s.after most turn event) := by
  cases event with
  | write e asked answer =>
      rw [Handing.after, wrote_eq]
      cases hkeeps : Event.keeps e (.write e asked answer) with
      | none =>
          apply h.same rfl
          intro d
          by_cases hd : e = d
          · exact hd ▸ hkeeps
          · exact keeps_of_ne hd asked answer
      | some changes => exact h.keep hkeeps
  | follow => exact h.same rfl fun _ => rfl
  | ship => exact h.same copies_ship fun _ => rfl
  | stop => exact h.same rfl fun _ => rfl

/-! ## What was handed on -/

/-- What was handed on of a shipping, and what of it is about to be. -/
structure Sound (start : Copies Bytes Bytes) (events : List Event) (s : Handing) : Prop where
  logged : Logged start events s
  next : ∀ d, s.next d = s.accepted d + (s.handedIn d).length
  numbers : ∀ d, (s.handedIn d).map Prod.fst =
    List.range' (s.accepted d) (s.handedIn d).length
  handed : ∀ d, ∀ w ∈ s.handedIn d, w ∈ numbered start d events
  asks : ∀ d, s.stage = .asks d → s.handed = []
  copies : ∀ d, s.stage = .copies d → s.handed = []
  hands : ∀ d copies, s.stage = .hands d copies →
    copies.map Prod.fst = List.range' (s.next d) copies.length ∧
      ∀ w ∈ copies, w ∈ numbered start d events

theorem mem_numbered {w : Copy Bytes Bytes} (h : w ∈ numbered start d events) (event : Event) :
    w ∈ numbered start d (events ++ [event]) := by
  rw [numbered_concat]
  exact List.mem_append_left _ h

/-- An event of the primary's own leaves a shipping as sound as it is. -/
theorem Sound.wrote (h : Sound start events s) {e : Database} {asked : Copied.Write}
    {answer : Except PersistError Bool} :
    Sound start (events ++ [.write e asked answer])
      (s.after most turn (.write e asked answer)) where
  logged := h.logged.after _
  next := h.next
  numbers := h.numbers
  handed d w hw := mem_numbered (h.handed d w hw) _
  asks := h.asks
  copies := h.copies
  hands d copies hstage :=
    have ⟨hnumbers, hmem⟩ := h.hands d copies hstage
    ⟨hnumbers, fun w hw => mem_numbered (hmem w hw) _⟩

theorem Sound.follow (h : Sound start events s) (history : ℕ) (next : Database → ℕ) :
    Sound start (events ++ [.follow history next]) (s.after most turn (.follow history next)) where
  logged := h.logged.after _
  next d := by simp [Handing.after, handedIn]
  numbers d := by simp [Handing.after, handedIn]
  handed d w hw := by simp [Handing.after, handedIn] at hw
  asks _ _ := rfl
  copies _ _ := rfl
  hands d copies hstage := by
    simp only [Handing.after] at hstage
    split at hstage <;> cases hstage

theorem Sound.stop (h : Sound start events s) :
    Sound start (events ++ [.stop]) (s.after most turn .stop) where
  logged := h.logged.after _
  next := h.next
  numbers := h.numbers
  handed d w hw := mem_numbered (h.handed d w hw) _
  asks _ hstage := by cases hstage
  copies _ hstage := by cases hstage
  hands _ _ hstage := by cases hstage

/-- A shipping goes on to another stage. -/
theorem Sound.staged (h : Sound start events s) {stage : Stage}
    (hasks : ∀ d, stage = .asks d → s.handed = []) (hcopies : ∀ d, stage = .copies d → s.handed = [])
    (hhands : ∀ d copies, stage = .hands d copies →
      copies.map Prod.fst = List.range' (s.next d) copies.length ∧
        ∀ w ∈ copies, w ∈ numbered start d events) :
    Sound start events { s with stage } where
  logged := ⟨h.logged.next, h.logged.kept⟩
  next := h.next
  numbers := h.numbers
  handed := h.handed
  asks := hasks
  copies := hcopies
  hands := hhands

theorem following_ne {α : Type} {a last : α} {next : Database → α} (d : Database)
    (hnext : ∀ e, next e ≠ a) (hlast : last ≠ a) : following d next last ≠ a := by
  rw [following]
  split
  · exact hnext 1
  · split
    · exact hnext 2
    · exact hlast

/-- A database is read from the next of its writes on before anything was handed on. -/
theorem Sound.copied (h : Sound start events s) (hnone : s.handed = []) (d : Database) (from' : ℕ)
    {stage : Stage} (hhands : ∀ d copies, stage ≠ .hands d copies) :
    Sound start events { s with
      accepted := Function.update s.accepted d from'
      next := Function.update s.next d from'
      stage := stage } where
  logged := ⟨h.logged.next, h.logged.kept⟩
  next e := by
    have hnext := h.next e
    simp only [handedIn, hnone, List.filter_nil, List.map_nil, List.length_nil,
      Nat.add_zero] at hnext ⊢
    by_cases he : e = d
    · simp [he]
    · simp [he, hnext]
  numbers e := by simp [handedIn, hnone]
  handed e w hw := by simp [handedIn, hnone] at hw
  asks _ _ := hnone
  copies _ _ := hnone
  hands e copies hstage := absurd hstage (hhands e copies)

theorem handedIn_concat (d e : Database) (copy : Copy Bytes Bytes) (s' : Handing)
    (hs' : s'.handed = s.handed ++ [(d, copy)]) :
    s'.handedIn e = if d = e then s.handedIn e ++ [copy] else s.handedIn e := by
  by_cases hd : d = e
  · simp [handedIn, hs', hd]
  · simp [handedIn, hs', hd]

/-- The next copy of a database is handed on. -/
theorem Sound.hand (h : Sound start events s) {d : Database} {copy : Copy Bytes Bytes}
    {rest : List (Copy Bytes Bytes)} (hstage : s.stage = .hands d (copy :: rest)) :
    Sound start events { s with
      handed := s.handed ++ [(d, copy)]
      next := Function.update s.next d (copy.1 + 1)
      stage := .hands d rest } := by
  have ⟨hnumbers, hmem⟩ := h.hands d _ hstage
  rw [List.map_cons, List.length_cons, List.range'_succ] at hnumbers
  have hcopy : copy.1 = s.next d := (List.cons.inj hnumbers).1
  have hrest := (List.cons.inj hnumbers).2
  have hhanded := fun e => handedIn_concat (s := s) d e copy { s with
    handed := s.handed ++ [(d, copy)]
    next := Function.update s.next d (copy.1 + 1)
    stage := .hands d rest } rfl
  constructor
  · exact ⟨h.logged.next, h.logged.kept⟩
  · intro e
    rw [hhanded e]
    have hnext := h.next e
    by_cases hd : d = e
    · subst hd
      simp only [Function.update_self, if_true, List.length_append, List.length_singleton]
      omega
    · simpa [hd, Ne.symm hd] using hnext
  · intro e
    rw [hhanded e]
    by_cases hd : d = e
    · subst hd
      have hnext := h.next d
      simp only [if_true, List.map_append, h.numbers d, List.length_append, List.length_singleton,
        List.map_cons, List.map_nil, hcopy, hnext, ← List.range'_append_1, List.range'_one]
    · simpa [hd] using h.numbers e
  · intro e w hw
    rw [hhanded e] at hw
    by_cases hd : d = e
    · subst hd
      simp only [if_true, List.mem_append, List.mem_singleton] at hw
      rcases hw with hw | rfl
      · exact h.handed d w hw
      · exact hmem w List.mem_cons_self
    · exact h.handed e w (by simpa [hd] using hw)
  · intro e hstage'
    cases hstage'
  · intro e hstage'
    cases hstage'
  · intro e copies hstage'
    obtain ⟨rfl, rfl⟩ := Stage.hands.inj hstage'
    simp only [Function.update_self, hcopy]
    exact ⟨hrest, fun w hw => hmem w (List.mem_cons_of_mem _ hw)⟩

theorem Sound.ship (h : Sound start events s) : Sound start events (s.ship most turn) := by
  rw [Handing.ship]
  split
  · next d hstage =>
      have hnone := h.asks d hstage
      split
      · apply h.staged (fun _ _ => hnone) (fun _ _ => hnone)
        intro e copies hhands
        exact absurd hhands (following_ne d nofun nofun)
      · exact h.staged (fun _ _ => hnone) (fun _ _ => hnone) nofun
  · next d hstage =>
      apply h.copied (h.copies d hstage)
      intro e copies
      exact following_ne d nofun nofun
  · next d hstage =>
      split
      · next copies hsince =>
          have ⟨hmem, hnumbers⟩ := Copies.since_ok hsince
          apply h.staged (fun _ hasks => by cases hasks) (fun _ hcopies => by cases hcopies)
          intro e taken htaken
          obtain ⟨rfl, rfl⟩ := Stage.hands.inj htaken
          exact ⟨hnumbers, fun w hw => (h.logged.kept d).subset (hmem w hw)⟩
      · exact h.staged nofun nofun nofun
  · next d hstage =>
      apply h.staged
      · intro e hasks
        exact absurd hasks (following_ne d nofun nofun)
      · intro e hcopies
        exact absurd hcopies (following_ne d nofun nofun)
      · intro e copies hhands
        exact absurd hhands (following_ne d nofun nofun)
  · next d copy rest hstage => exact h.hand hstage
  · exact h

theorem Sound.after (h : Sound start events s) (event : Event) :
    Sound start (events ++ [event]) (s.after most turn event) := by
  cases event with
  | write => exact h.wrote
  | follow history next => exact h.follow history next
  | ship =>
      have hship : Sound start events (s.ship most turn) := h.ship
      exact {
        hship with
        logged := h.logged.after .ship
        handed := fun d w hw => mem_numbered (hship.handed d w hw) _
        hands := fun d copies hstage =>
          have ⟨hnumbers, hmem⟩ := hship.hands d copies hstage
          ⟨hnumbers, fun w hw => mem_numbered (hmem w hw) _⟩ }
  | stop => exact h.stop

theorem Sound.begun (start : Copies Bytes Bytes) : Sound start [] (.begun start) where
  logged := ⟨fun d => by simp [Handing.begun], fun d => by simp [Handing.begun, numbered]⟩
  next d := by simp [Handing.begun, handedIn]
  numbers d := by simp [Handing.begun, handedIn]
  handed d w hw := by simp [Handing.begun, handedIn] at hw
  asks _ hstage := by cases hstage
  copies _ hstage := by cases hstage
  hands _ _ hstage := by cases hstage

theorem Sound.run (start : Copies Bytes Bytes) (events : List Event) :
    Sound start events (run most turn (.begun start) events) := by
  induction events using List.reverseRecOn with
  | nil => exact .begun start
  | append_singleton events event ih =>
      rw [Handing.run, List.foldl_append]
      exact ih.after event

/-! ## Where a follower was accepted -/

/-- Whether an event says anew where a follower goes on from in a database: it asks to follow, or
the database is copied whole. -/
def Event.accepts (d : Database) (s : Handing) : Event → Prop
  | .follow _ _ => True
  | .ship => s.stage = .copies d
  | _ => False

/-- The number of a database that a follower is accepted from: the one it last asked for, or that of
the next write as the database was copied whole since. -/
inductive Accepted (most turn : ℕ) (start : Copies Bytes Bytes) (d : Database) :
    List Event → ℕ → Prop
  | never : Accepted most turn start d [] 1
  | asked (events : List Event) (history : ℕ) (next : Database → ℕ) :
      Accepted most turn start d (events ++ [.follow history next]) (next d)
  | whole {events : List Event} (h : (run most turn (.begun start) events).stage = .copies d) :
      Accepted most turn start d (events ++ [.ship])
        ((run most turn (.begun start) events).copies.next d)
  | kept {events : List Event} {n : ℕ} {event : Event} (h : Accepted most turn start d events n)
      (hnot : ¬event.accepts d (run most turn (.begun start) events)) :
      Accepted most turn start d (events ++ [event]) n

theorem run_concat (events : List Event) (event : Event) :
    run most turn s (events ++ [event]) = (run most turn s events).after most turn event := by
  simp [run]

theorem accepted_copied (hstage : s.stage = .copies d) :
    (s.ship most turn).accepted d = s.copies.next d := by
  simp [ship, hstage]

/-- Any other step of a shipping leaves where its follower goes on from. -/
theorem accepted_same (hstage : s.stage ≠ .copies d) :
    (s.ship most turn).accepted d = s.accepted d := by
  rw [ship]
  split
  · split <;> rfl
  · next e hcopies =>
      have hne : d ≠ e := fun h => hstage (h ▸ hcopies)
      exact Function.update_of_ne hne _ _
  · split <;> rfl
  · rfl
  · rfl
  · rfl

theorem accepted_run (start : Copies Bytes Bytes) (events : List Event) (d : Database) :
    Accepted most turn start d events ((run most turn (.begun start) events).accepted d) := by
  induction events using List.reverseRecOn with
  | nil => exact .never
  | append_singleton events event ih =>
      rw [run_concat]
      cases event with
      | follow history next => exact .asked events history next
      | write e asked answer => exact ih.kept id
      | stop => exact ih.kept id
      | ship =>
          by_cases hstage : (run most turn (.begun start) events).stage = .copies d
          · rw [Handing.after, accepted_copied hstage]
            exact .whole hstage
          · rw [Handing.after, accepted_same hstage]
            exact ih.kept hstage

/-- However a primary's writes, what they drop and a follower's shipping interleave, what is handed on
of a database is numbered one after another from where the follower was accepted, each the changes of
the write of that number, and what it still needs is `past` just where it was dropped. -/
theorem handed_in_order (most turn : ℕ) (start : Copies Bytes Bytes) (events : List Event)
    (d : Database) :
    let s := run most turn (.begun start) events
    let writes := numbered start d events
    (s.handedIn d).map Prod.fst = List.range' (s.accepted d) (s.handedIn d).length ∧
      Accepted most turn start d events (s.accepted d) ∧
      (∀ copy ∈ s.handedIn d, copy ∈ writes) ∧
      writes.map Prod.fst = List.range' (start.kept d).first writes.length ∧
      (s.copies.kept d).writes <:+ writes ∧
      s.copies.Answers (sizes most) := by
  have hsound : Sound start events (run most turn (.begun start) events) := .run start events
  exact ⟨hsound.numbers d, accepted_run start events d, hsound.handed d, numbered_numbers,
    hsound.logged.kept d, Copies.answers _ (sizes most)⟩

/-- A value written in a database, and then another, where one is kept. -/
def rewritten (d : Database) : List Event :=
  [.write d (.write [107] [97, 97, 97, 97]) (.ok true),
    .write d (.write [107] [98, 98, 98, 98]) (.ok true)]

/-- A primary whose third database dropped its first write. -/
def droppedThird : Handing := run 8 64 (.begun (.restart 3 fun _ => 1)) (rewritten 2)

/-- A primary whose first database dropped its first write as it looked at a follower of it. -/
def droppedAmid : Handing :=
  run 8 64 (.begun (.restart 3 fun _ => 1))
    ([.follow 3 fun _ => 1, .ship] ++ rewritten 0 ++ [.ship, .ship])

/-- A follower ahead in one database is of another history, whatever it lacks of the next; and one
that lacks nothing as it is looked at is accepted, whatever is dropped before it is. -/
theorem follows_otherwise :
    ¬ (droppedThird.copies.follows 3 ![9, 1, 1] = .error .past ↔
        ∃ d n, (![9, 1, 1] : Database → ℕ) d ≤ n ∧ droppedThird.copies.Evicted d n) ∧
      droppedAmid.stage = .takes 0 ∧
      ∃ n, droppedAmid.next 0 ≤ n ∧ droppedAmid.copies.Evicted 0 n := by
  constructor
  · intro hiff
    have hpast := hiff.mpr ⟨2, 1, by decide +kernel, by decide +kernel, by decide +kernel⟩
    revert hpast
    decide +kernel
  · exact ⟨rfl, 1, by decide +kernel, by decide +kernel, by decide +kernel⟩

end Handing

end XmipPersist.Standby
