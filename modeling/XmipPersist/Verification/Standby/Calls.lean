import XmipPersist.Library.Steps
import XmipPersist.Model.Calls
import XmipPersist.Verification.Standby.Processes

/-! # Which primary answers a client

A process of a Storage node never falls to a lower epoch, so what it said as a connection to it was
opened holds for as long as the connection does. A client holds a Storage node to the latest epoch
it met as it opens a connection, and only then: over a connection since whose opening no later epoch
was met, no primary of an earlier epoch is asked or answers.
-/

namespace XmipPersist.Standby

open StorageNode

variable {κ ν : Type} [LinearOrder κ] {bounds : Bounds κ ν}

/-! ## What the client's connections say -/

namespace Client

/-- A connection's process is in no epoch before the latest met once it was opened, and was not as
it was asked over it. -/
def Progress.Sound (c : Cluster κ ν) : Progress → Prop
  | .done => True
  | .turn _ => True
  | .through place connection _ _ => c.Said place connection.process connection.met
  | .connect _ _ => True
  | .asks _ process _ => process < c.processes
  | .told place process standing _ => c.Said place process standing.epoch
  | .answered place connection _ asked _ =>
      c.Said place connection.process connection.met ∧ connection.met ≤ asked.epoch

theorem Progress.Sound.goes {c c' : Cluster κ ν} {progress : Progress}
    (h : progress.Sound c) (hgoes : Cluster.Goes c c') : progress.Sound c' := by
  cases progress with
  | done => trivial
  | turn rest => trivial
  | through place connection kept rest => exact Cluster.Said.goes h hgoes
  | connect place rest => trivial
  | asks place process rest => exact lt_of_lt_of_le h hgoes.1
  | told place process standing rest => exact Cluster.Said.goes h hgoes
  | answered place connection kept asked rest => exact ⟨h.1.goes hgoes, h.2⟩

end Client

namespace Calls

variable {s : Calls κ ν}

structure Sound (s : Calls κ ν) : Prop where
  process : ∀ place, (s.cluster.members place).node.process < s.cluster.processes
  idle : ∀ place, ∀ connection ∈ s.idle place,
    s.cluster.Said place connection.process connection.met
  callers : ∀ caller, (s.callers caller).Sound s.cluster

theorem Sound.cluster (h : s.Sound) (event : ClusterEvent κ ν) :
    Sound { s with cluster := s.cluster.after bounds event } := by
  have hgoes := Cluster.Goes.after bounds s.cluster event
  exact ⟨hgoes.processes h.process,
    fun place connection hidle => (h.idle place connection hidle).goes hgoes,
    fun caller => (h.callers caller).goes hgoes⟩

theorem Sound.set (h : s.Sound) (caller : ℕ) {progress : Client.Progress}
    (hprogress : progress.Sound s.cluster) : (s.set caller progress).Sound := by
  refine ⟨h.process, h.idle, fun other => ?_⟩
  by_cases hother : other = caller
  · subst hother
    simpa [Calls.set] using hprogress
  · simpa [Calls.set, hother] using h.callers other

/-- Where what is sent arrives, it does at the process it is sent to. -/
theorem reaches_process {place process : ℕ} {arrives : Bool}
    (h : s.reaches place process arrives = true) :
    (s.cluster.members place).node.process = process := by
  simp only [reaches, Bool.and_eq_true, decide_eq_true_eq] at h
  exact h.2

theorem Sound.take (h : s.Sound) (caller place : ℕ) (rest : List ℕ) :
    (s.take caller place rest).Sound := by
  simp only [Calls.take]
  split
  · next connection hlast =>
      have hmem := List.mem_of_getLast? hlast
      have hset : Sound (s.set caller (.through place connection true rest)) :=
        h.set caller (h.idle place connection hmem)
      refine ⟨hset.process, fun other connection' hidle => ?_, hset.callers⟩
      by_cases hother : other = place
      · subst hother
        simp only [Function.update_self] at hidle
        exact h.idle other connection' (List.mem_of_mem_dropLast hidle)
      · simp only [Function.update_of_ne hother] at hidle
        exact h.idle other connection' hidle
  · exact h.set caller trivial

theorem Sound.failed (h : s.Sound) (caller place : ℕ) (kept : Bool) (rest : List ℕ) :
    (s.failed caller place kept rest).Sound := by
  refine h.set caller ?_
  cases kept <;> trivial

theorem Sound.hold (h : s.Sound) (caller : ℕ) {place process : ℕ} {standing : Standing}
    (rest : List ℕ) (hsaid : s.cluster.Said place process standing.epoch) :
    (s.hold caller place process standing rest).Sound := by
  simp only [Calls.hold]
  split
  · have hset : Sound (s.set caller (.turn rest)) := h.set caller trivial
    exact ⟨hset.process, hset.idle, hset.callers⟩
  · by_cases hlt : standing.epoch < s.epoch
    · have hset : Sound (s.set caller (.turn rest)) := h.set caller trivial
      rw [if_pos hlt]
      exact ⟨hset.process, hset.idle, hset.callers⟩
    · -- held to the latest epoch met, its own is that epoch from here on
      have hmet : max s.epoch standing.epoch = standing.epoch := max_eq_right (not_lt.mp hlt)
      have hset : Sound
          (s.set caller (.through place ⟨process, standing.epoch⟩ false rest)) :=
        h.set caller hsaid
      rw [if_neg hlt, hmet]
      exact ⟨hset.process, hset.idle, hset.callers⟩

theorem Sound.receive (h : s.Sound) (caller : ℕ) {place : ℕ} {connection : Client.Connection}
    (asked : Client.Asked) (rest : List ℕ)
    (hsaid : s.cluster.Said place connection.process connection.met) :
    (s.receive caller place connection asked rest).Sound := by
  have hkept : Sound { s with
      idle := Function.update s.idle place (s.idle place ++ [connection])
      standby := Function.update s.standby place !asked.primary } := by
    refine ⟨h.process, fun other connection' hidle => ?_, h.callers⟩
    by_cases hother : other = place
    · subst hother
      simp only [Function.update_self] at hidle
      rcases List.mem_append.mp hidle with hidle | hidle
      · exact h.idle other connection' hidle
      · obtain rfl := List.mem_singleton.mp hidle
        exact hsaid
    · simp only [Function.update_of_ne hother] at hidle
      exact h.idle other connection' hidle
  simp only [Calls.receive]
  split
  · have hset := hkept.set caller (show Client.Progress.done.Sound s.cluster from trivial)
    exact ⟨hset.process, hset.idle, hset.callers⟩
  · exact hkept.set caller trivial

/-- A request's next step keeps what its connections say. -/
theorem Sound.step (h : s.Sound) (caller : ℕ) (arrives : Bool) :
    (s.step caller arrives).Sound := by
  have hcaller := h.callers caller
  simp only [Calls.step]
  split
  · exact h
  · exact h.set caller trivial
  · exact h.take caller _ _
  · next place connection kept rest hprogress =>
      rw [hprogress] at hcaller
      split
      · next hreaches =>
          have hepoch : connection.met ≤ (s.cluster.members place).node.epoch :=
            hcaller.2 (reaches_process hreaches)
          have hset : Sound (s.set caller (.answered place connection kept (s.asks place) rest)) :=
            h.set caller ⟨hcaller, hepoch⟩
          exact ⟨hset.process, hset.idle, hset.callers⟩
      · exact h.failed caller place kept rest
  · next place rest hprogress =>
      split
      · exact h.set caller (h.process place)
      · exact h.set caller trivial
  · next place process rest hprogress =>
      rw [hprogress] at hcaller
      split
      · exact h.set caller ⟨hcaller, fun _ => le_rfl⟩
      · exact h.set caller trivial
  · next place process standing rest hprogress =>
      rw [hprogress] at hcaller
      split
      · exact h.hold caller rest hcaller
      · exact h.set caller trivial
  · next place connection kept asked rest hprogress =>
      rw [hprogress] at hcaller
      split
      · exact h.receive caller asked rest hcaller.1
      · exact h.failed caller place kept rest

/-! ## No earlier primary -/

/-- No primary of an epoch before one the client had met was asked, and none but a primary of no
epoch before any met was what answered. -/
structure Current (s : Calls κ ν) : Prop where
  asked : ∀ a ∈ s.asked, a.primary = true → a.met ≤ a.epoch
  answered : ∀ a ∈ s.answered, a.primary = true ∧ a.met ≤ a.epoch

/-- A request arrives at a primary, and an answer of one comes back, over a connection since
whose opening the client met no later epoch. -/
def MeetsAt (s : Calls κ ν) (arrives : Bool) : Client.Progress → Prop
  | .through place connection _ _ =>
      s.reaches place connection.process arrives = true →
        (s.asks place).primary = true → s.epoch = connection.met
  | .answered _ connection _ asked _ =>
      arrives = true → asked.primary = true → s.epoch = connection.met
  | _ => True

instance (s : Calls κ ν) (arrives : Bool) : DecidablePred (s.MeetsAt arrives)
  | .through _ _ _ _ => inferInstanceAs (Decidable (_ → _ → _))
  | .answered _ _ _ _ _ => inferInstanceAs (Decidable (_ → _ → _))
  | .done => .isTrue trivial
  | .turn _ => .isTrue trivial
  | .connect _ _ => .isTrue trivial
  | .asks _ _ _ => .isTrue trivial
  | .told _ _ _ _ => .isTrue trivial

def Meets (s : Calls κ ν) : CallEvent κ ν → Prop
  | .step caller arrives => s.MeetsAt arrives (s.callers caller)
  | _ => True

instance (s : Calls κ ν) : DecidablePred s.Meets
  | .step caller arrives => inferInstanceAs (Decidable (s.MeetsAt arrives (s.callers caller)))
  | .cluster _ => .isTrue trivial
  | .pin => .isTrue trivial
  | .ask _ _ _ => .isTrue trivial

theorem Current.set (h : s.Current) (caller : ℕ) (progress : Client.Progress) :
    (s.set caller progress).Current := ⟨h.asked, h.answered⟩

theorem Current.failed (h : s.Current) (caller place : ℕ) (kept : Bool) (rest : List ℕ) :
    (s.failed caller place kept rest).Current := h.set caller _

theorem Current.step (h : s.Current) (hs : s.Sound) (caller : ℕ) (arrives : Bool)
    (hmeets : s.Meets (.step caller arrives)) : (s.step caller arrives).Current := by
  have hcaller := hs.callers caller
  simp only [Meets, MeetsAt] at hmeets
  simp only [Calls.step]
  split
  · exact h
  · exact h.set caller _
  · simp only [Calls.take]
    split
    · exact ⟨h.asked, h.answered⟩
    · exact h.set caller _
  · next place connection kept rest hprogress =>
      rw [hprogress] at hcaller hmeets
      split
      · next hreaches =>
          -- what the process said as the connection was opened it has not fallen below
          have hsaid : connection.met ≤ (s.cluster.members place).node.epoch :=
            hcaller.2 (reaches_process hreaches)
          refine ⟨fun a ha hprimary => ?_, h.answered⟩
          rcases List.mem_append.mp ha with ha | ha
          · exact h.asked a ha hprimary
          · obtain rfl := List.mem_singleton.mp ha
            exact (hmeets hreaches hprimary).le.trans hsaid
      · exact h.failed caller place kept rest
  · split
    · exact h.set caller _
    · exact h.set caller _
  · split
    · exact h.set caller _
    · exact h.set caller _
  · split
    · simp only [Calls.hold]
      split
      · exact ⟨h.asked, h.answered⟩
      · exact ⟨h.asked, h.answered⟩
    · exact h.set caller _
  · next place connection kept asked rest hprogress =>
      rw [hprogress] at hcaller hmeets
      split
      · next harrives =>
          simp only [Calls.receive]
          split
          · next hprimary =>
              refine ⟨h.asked, fun a ha => ?_⟩
              rcases List.mem_append.mp ha with ha | ha
              · exact h.answered a ha
              · obtain rfl := List.mem_singleton.mp ha
                exact ⟨hprimary, (hmeets harrives hprimary).le.trans hcaller.2⟩
          · exact ⟨h.asked, h.answered⟩
      · exact h.failed caller place kept rest

variable (bounds) in
theorem Sound.after (h : s.Sound) (event : CallEvent κ ν) : (s.after bounds event).Sound := by
  cases event with
  | cluster event => exact h.cluster event
  | pin => exact ⟨h.process, h.idle, h.callers⟩
  | ask caller pinned passedOver =>
      simp only [Calls.after]
      split
      · exact h.set caller trivial
      · have hset : Sound (s.set caller (.turn (s.turn passedOver))) := h.set caller trivial
        exact ⟨hset.process, hset.idle, hset.callers⟩
      · exact h
  | step caller arrives => exact h.step caller arrives

theorem Current.after (h : s.Current) (hs : s.Sound) (event : CallEvent κ ν)
    (hmeets : s.Meets event) : (s.after bounds event).Current := by
  cases event with
  | cluster event => exact ⟨h.asked, h.answered⟩
  | pin => exact ⟨h.asked, h.answered⟩
  | ask caller pinned passedOver =>
      simp only [Calls.after]
      split
      · exact h.set caller _
      · exact ⟨h.asked, h.answered⟩
      · exact h
  | step caller arrives => exact h.step hs caller arrives hmeets

theorem Sound.opened (listed : ℕ) (engines : ℕ → Database → Engine κ ν) :
    (opened (.opened listed engines)).Sound where
  process := Cluster.processes_opened listed engines
  idle place connection hidle := by cases hidle
  callers _ := trivial

/-- Over every run of a cluster and of the callers of one client of it, in which each request that
arrives at a primary and each answer meet the condition, none but current primaries are asked and
answer. -/
theorem current_primary (bounds : Bounds κ ν) (listed : ℕ) (engines : ℕ → Database → Engine κ ν)
    (events : List (CallEvent κ ν))
    (hmeets : EachStep (after bounds) Meets (opened (.opened listed engines)) events) :
    ((opened (.opened listed engines)).run bounds events).Current := by
  have hstart : (opened (.opened listed engines)).Sound ∧
      (opened (.opened listed engines)).Current :=
    ⟨.opened listed engines, fun a ha => (by cases ha), fun a ha => (by cases ha)⟩
  have hstep : ∀ (s : Calls κ ν) (event : CallEvent κ ν), s.Sound ∧ s.Current → s.Meets event →
      (s.after bounds event).Sound ∧ (s.after bounds event).Current :=
    fun s event h hevent => ⟨h.1.after bounds event, h.2.after h.1 event hevent⟩
  exact (hmeets.invariant hstart hstep).2

/-- Of two Storage nodes the first is promoted and the second follows it; a request is asked of
the first; parted from it, the second is promoted; a request is asked of the second. -/
def askedBetween : List (CallEvent ℕ ℕ) :=
  let opening : Opening ℕ ℕ := ⟨7, fun _ => 0, [], none⟩
  let following : List (ClusterEvent ℕ ℕ) :=
    [.start 0, .start 1, .ask 0 true, .ask 0 false, .settle 0 false opening, .ask 1 true,
      .ask 1 true, .settle 1 false opening]
  let parted : List (ClusterEvent ℕ ℕ) :=
    [.cut 1, .ask 1 false, .ask 1 true, .settle 1 true opening]
  let asking : List (CallEvent ℕ ℕ) :=
    .ask 0 none (fun _ => false) :: List.replicate 6 (.step 0 true)
  following.map .cluster ++ (asking ++ (parted.map .cluster ++ asking))

def sized : Bounds ℕ ℕ := ⟨fun _ => 1, 64⟩

theorem current_primary_between :
    ((opened (.opened 2 fun _ _ => .empty)).run sized askedBetween).answered =
        [⟨true, 1, 1⟩, ⟨true, 2, 2⟩] ∧
      ((opened (.opened 2 fun _ _ => .empty)).run sized askedBetween).Current := by
  have hmeets : EachStep (after sized) Meets (opened (.opened 2 fun _ _ => .empty))
      askedBetween := by decide +kernel
  exact ⟨by decide +kernel, current_primary sized 2 (fun _ _ => .empty) askedBetween hmeets⟩

/-- The connection to the first is kept meanwhile. -/
def askedAgain : List (CallEvent ℕ ℕ) :=
  askedBetween ++ .ask 0 none (fun _ => false) :: List.replicate 3 (.step 0 true)

/-- A primary of an earlier epoch is asked over it, and answers. -/
theorem askedAgain_earlier :
    ¬((opened (.opened 2 fun _ _ => .empty)).run sized askedAgain).Current := by
  intro h
  have hearlier : (⟨true, 1, 2⟩ : Client.Asked) ∈
      ((opened (.opened 2 fun _ _ => .empty)).run sized askedAgain).answered := by
    decide +kernel
  have hle := (h.answered _ hearlier).2
  exact absurd hle (by decide)

end Calls

end XmipPersist.Standby
