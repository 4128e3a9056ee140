import XmipPersist.Library.Steps
import XmipPersist.Model.Claim
import XmipPersist.Model.Finding

/-! # The epoch a Storage node starts again with

A Storage node keeps the latest epoch it met in its runtime database, where a whole copy empties
it: what it holds is written again only where the copy's primary says a later one. Started again
before, it starts behind an epoch it met, and is promoted in one it has been in.
-/

namespace XmipPersist

/-- A claim's fence is above every fence of an earlier epoch, while epochs have 32 bits. -/
theorem Claim.fenceAfter_lt {e e' : ℕ} (h : e < e') (he' : e' < 2 ^ 32)
    (before before' : Option Claim) : fenceAfter e before < fenceAfter e' before' := by
  have hbound : ∀ n, min (n + 1) u32Max < 2 ^ 32 := fun n => by
    have := min_le_right (n + 1) u32Max
    simp only [u32Max] at this ⊢
    omega
  have hvalue : ∀ e < 2 ^ 32, ∀ n, (e * 2 ^ 32) % 2 ^ 64 ||| min (n + 1) u32Max =
      2 ^ 32 * e + min (n + 1) u32Max := fun e he n => by
    rw [Nat.mod_eq_of_lt (by omega), Nat.mul_comm, Nat.two_pow_add_eq_or_of_lt (hbound n)]
  simp only [fenceAfter]
  rw [hvalue e (by omega), hvalue e' he']
  have hlow := hbound ((before.map fun claim => claim.fence % 2 ^ 32).getD 0)
  omega

namespace Standby

open StorageNode

variable {κ ν : Type} [LinearOrder κ] {bounds : Bounds κ ν}

/-! ## Steps that keep the epoch they hold -/

/-- Of steps taken holding the epoch `held`, every one that keeps an epoch keeps the one held. -/
def Keeps : ℕ → List (Effect κ ν) → Prop
  | _, [] => True
  | held, .hold _ epoch :: rest => Keeps (max held epoch) rest
  | held, .hear epoch :: rest => Keeps (max held epoch) rest
  | held, .keepEpoch epoch :: rest => epoch = held ∧ Keeps held rest
  | held, _ :: rest => Keeps held rest

/-- A step that neither meets nor keeps an epoch. -/
def Effect.plain : Effect κ ν → Bool
  | .hold _ _ => false
  | .hear _ => false
  | .keepEpoch _ => false
  | _ => true

omit [LinearOrder κ] in
theorem Keeps.append {held : ℕ} {xs ys : List (Effect κ ν)} (h : ∀ x ∈ xs, x.plain = true)
    (hys : Keeps held ys) : Keeps held (xs ++ ys) := by
  induction xs with
  | nil => exact hys
  | cons x xs ih =>
      have hx : x.plain = true := h x (by simp)
      have hrest := ih fun y hy => h y (by simp [hy])
      cases x with
      | hold role epoch => cases hx
      | hear epoch => cases hx
      | keepEpoch epoch => cases hx
      | _ => exact hrest

theorem Keeps.takeUp (node : StorageNode κ ν) (role : Role) (epoch : ℕ) :
    Keeps node.epoch (node.takeUp role epoch) := by
  by_cases h : node.epoch < epoch
  · simp [StorageNode.takeUp, h, Keeps, h.le]
  · simp [StorageNode.takeUp, h, Keeps]

theorem Keeps.heard (node : StorageNode κ ν) (epoch : ℕ) :
    Keeps node.epoch (node.heard epoch) := by
  by_cases h : node.epoch < epoch
  · simp [StorageNode.heard, h, Keeps, h.le]
  · simp [StorageNode.heard, h, Keeps]

omit [LinearOrder κ] in
theorem Keeps.plain {held : ℕ} {xs : List (Effect κ ν)} (h : ∀ x ∈ xs, x.plain = true) :
    Keeps held xs := by
  have hnil : Keeps held (xs ++ []) := Keeps.append h trivial
  rwa [List.append_nil] at hnil

theorem Keeps.taking (node : StorageNode κ ν) (whole : Option Whole) (frame : Shipped κ ν) :
    Keeps node.epoch (node.taking whole frame).1 := by
  cases frame with
  | beat epoch => exact .heard node epoch
  | entries d page => trivial
  | declined reason => trivial
  | copy d number changes =>
      simp only [StorageNode.taking]
      split
      · exact Keeps.heard node 0
      · trivial
  | whole history epoch keys =>
      simp only [StorageNode.taking]
      split
      · refine Keeps.append (by simp [Effect.plain]) (Keeps.append ?_ (.heard node epoch))
        simp [wiped, Effect.plain]
      · trivial
  | copied d next =>
      simp only [StorageNode.taking]
      split
      · trivial
      · split
        · exact Keeps.plain (by simp [copiedWhole, Effect.plain])
        · trivial

theorem opening_plain (node : StorageNode κ ν) (fresh : ℕ) (keys : Database → ℕ)
    (upgrades : List (Database × List (Change κ ν))) :
    ∀ x ∈ node.opening fresh keys upgrades, x.plain = true := by
  intro x hx
  simp only [opening, List.mem_append, List.mem_map] at hx
  rcases hx with hx | ⟨_, _, rfl⟩ | ⟨_, _, rfl⟩ | ⟨_, _, rfl⟩
  · split at hx
    · obtain rfl := List.mem_singleton.mp hx
      rfl
    · cases hx
  · rfl
  · rfl
  · rfl

theorem Keeps.promote (node : StorageNode κ ν) (epoch fresh : ℕ) (keys : Database → ℕ)
    (upgrades : List (Database × List (Change κ ν))) :
    Keeps node.epoch (node.promote epoch fresh keys upgrades) := by
  simp only [StorageNode.promote]
  split
  · trivial
  · exact Keeps.append (opening_plain _ _ _ _) (.takeUp node .primary epoch)

theorem Keeps.steps (life : Life κ ν) (act : Act κ ν) : Keeps life.node.epoch (life.steps act) := by
  cases act with
  | meet place epoch =>
      simp only [Life.steps]
      split
      · exact .takeUp _ _ _
      · trivial
  | frame frame => exact .taking _ _ _
  | lose => exact .takeUp _ _ _
  | promote answered fresh keys upgrades => exact .promote _ _ _ _ _

omit [LinearOrder κ] in
theorem Keeps.take {held : ℕ} {xs : List (Effect κ ν)} (h : Keeps held xs) (n : ℕ) :
    Keeps held (xs.take n) := by
  induction xs generalizing held n with
  | nil => simpa using h
  | cons x xs ih =>
      cases n with
      | zero => trivial
      | succ n =>
          rw [List.take_succ_cons]
          cases x with
          | keepEpoch epoch => exact ⟨h.1, ih h.2 n⟩
          | _ => exact ih h n

/-! ## What every step leaves -/

/-- The epoch kept. -/
def StorageNode.keptEpoch (node : StorageNode κ ν) : ℕ := (node.engines runtime).epoch.getD 0

theorem keptEpoch_onEngine (node : StorageNode κ ν) {d : Database}
    {f : Engine κ ν → Engine κ ν} (h : (f (node.engines d)).epoch = (node.engines d).epoch) :
    (node.onEngine d f).keptEpoch = node.keptEpoch := by
  by_cases hd : runtime = d
  · subst hd
    simp [onEngine, keptEpoch, h]
  · simp [onEngine, keptEpoch, Function.update_of_ne hd]

/-- A step that neither keeps an epoch nor empties the runtime database leaves the one kept. -/
theorem keptEpoch_perform (node : StorageNode κ ν) {effect : Effect κ ν}
    (hkeep : ∀ epoch, effect ≠ .keepEpoch epoch) (hwipe : effect ≠ .wipe runtime) :
    (node.perform bounds effect).keptEpoch = node.keptEpoch := by
  cases effect with
  | hold role epoch => rfl
  | hear epoch => rfl
  | restart history next => rfl
  | keepEpoch epoch => exact absurd rfl (hkeep epoch)
  | wipe d =>
      have hd : runtime ≠ d := fun h => hwipe (by rw [h])
      simp [perform, onEngine, keptEpoch, Function.update_of_ne hd]
  | mark => rw [perform, keptEpoch_onEngine _ rfl]
  | unmark => rw [perform, keptEpoch_onEngine _ rfl]
  | key d dataKey => rw [perform, keptEpoch_onEngine _ rfl]
  | entries d page => rw [perform, keptEpoch_onEngine _ rfl]
  | position d history next => rw [perform, keptEpoch_onEngine _ rfl]
  | giveUp d => rw [perform, keptEpoch_onEngine _ rfl]
  | opens d dataKey => rw [perform, keptEpoch_onEngine _ rfl]
  | copy d number changes =>
      exact keptEpoch_onEngine node (d := d) (f := fun engine =>
        { engine.apply changes with position := some (node.copies.history, number + 1) }) rfl
  | write d changes =>
      exact keptEpoch_onEngine node (d := d) (f := fun engine => engine.apply changes) rfl

/-- A Storage node that holds the latest epoch it met, and has it kept unless it met it, or its
runtime database was emptied, since. -/
structure Life.Sound (life : Life κ ν) : Prop where
  met : life.met = life.node.epoch
  le : life.node.keptEpoch ≤ life.node.epoch
  kept : life.node.keptEpoch = life.node.epoch ↔ life.behind = false ∨ life.node.epoch = 0

/-- A step that leaves the epoch held and the one kept. -/
theorem Life.Sound.same {life : Life κ ν} (h : life.Sound) {effect : Effect κ ν}
    (hepoch : (life.node.perform bounds effect).epoch = life.node.epoch)
    (hkept : (life.node.perform bounds effect).keptEpoch = life.node.keptEpoch)
    (hbehind : life.behindAfter effect = life.behind) : (life.step bounds effect).Sound := by
  have hmet := h.met
  refine ⟨?_, ?_, ?_⟩
  · simp only [Life.step, hepoch]
    omega
  · simpa only [Life.step, hepoch, hkept] using h.le
  · simpa only [Life.step, hepoch, hkept, hbehind] using h.kept

/-- An epoch met, held from now and not kept yet. -/
theorem Life.Sound.meets {life : Life κ ν} (h : life.Sound) {effect : Effect κ ν} {epoch : ℕ}
    (hepoch : (life.node.perform bounds effect).epoch = max life.node.epoch epoch)
    (hkept : (life.node.perform bounds effect).keptEpoch = life.node.keptEpoch)
    (hbehind : life.behindAfter effect = (life.behind || decide (life.node.epoch < epoch))) :
    (life.step bounds effect).Sound := by
  have hmet := h.met
  have hle := h.le
  have hiff := h.kept
  by_cases hlt : life.node.epoch < epoch
  · refine ⟨?_, ?_, ?_⟩
    · simp only [Life.step, hepoch]
      omega
    · simp only [Life.step, hepoch, hkept]
      omega
    · simp only [Life.step, hepoch, hkept, hbehind, hlt, decide_true, Bool.or_true]
      constructor
      · intro heq
        omega
      · rintro (hb | hz)
        · cases hb
        · omega
  · have hsame : max life.node.epoch epoch = life.node.epoch := by omega
    refine h.same (by rw [hepoch, hsame]) hkept ?_
    rw [hbehind]
    simp [hlt]

variable (bounds) in
theorem Life.Sound.does {life : Life κ ν} (h : life.Sound) {effects : List (Effect κ ν)}
    (hkeeps : Keeps life.node.epoch effects) : (life.does bounds effects).Sound := by
  induction effects generalizing life with
  | nil => exact h
  | cons effect effects ih =>
      have hmet := h.met
      have hle := h.le
      have hiff := h.kept
      cases effect with
      | hold role epoch => exact ih (h.meets rfl rfl rfl) hkeeps
      | hear epoch => exact ih (h.meets rfl rfl rfl) hkeeps
      | keepEpoch epoch =>
          have hmax : max life.met life.node.epoch = life.node.epoch := by omega
          refine ih ⟨hmax, ?_, ?_⟩ hkeeps.2
          · simp [Life.step, perform, onEngine, keptEpoch, hkeeps.1]
          · simp [Life.step, perform, onEngine, keptEpoch, hkeeps.1, Life.behindAfter]
      | wipe d =>
          refine ih ?_ hkeeps
          by_cases hd : d = runtime
          · subst hd
            have hmax : max life.met life.node.epoch = life.node.epoch := by omega
            refine ⟨hmax, ?_, ?_⟩
            · simp [Life.step, perform, onEngine, keptEpoch, Engine.empty]
            · simp [Life.step, perform, onEngine, keptEpoch, Engine.empty, Life.behindAfter,
                eq_comm]
          · exact h.same rfl (keptEpoch_perform _ (by simp) (by simpa using hd))
              (by simp [Life.behindAfter, hd])
      | _ => exact ih (h.same rfl (keptEpoch_perform _ (by simp) (by simp)) rfl) hkeeps

/-! ## Started again -/

theorem Life.Sound.started (process : ℕ) (engines : Database → Engine κ ν) :
    (Life.started process engines).Sound where
  met := rfl
  le := le_rfl
  kept := ⟨fun _ => .inl rfl, fun _ => rfl⟩

/-- What a claim of an earlier epoch is to one taken in the epoch `epoch`: behind a lower fence,
while epochs have 32 bits. -/
def FencedAbove (met epoch : ℕ) : Prop :=
  epoch < 2 ^ 32 → ∀ e ≤ met, ∀ before before' : Option Claim,
    Claim.fenceAfter e before < Claim.fenceAfter epoch before'

namespace Life

/-- Started again, it holds every epoch it met or was the primary in; promoted, it fences its
claims above every one of those epochs. -/
def Holds (bounds : Bounds κ ν) (life : Life κ ν) : LifeEvent κ ν → Prop
  | .restart during steps process =>
      (life.cut bounds during steps).met ≤
        (StorageNode.new process (life.cut bounds during steps).node.engines).epoch
  | .act (.promote answered _ _ _) => FencedAbove life.met (life.promotedIn answered)
  | .act _ => True

/-- It is started again neither between meeting a later epoch and keeping it, nor, once its
runtime database was emptied, before it met and kept a later one. -/
def Kept (bounds : Bounds κ ν) (life : Life κ ν) : LifeEvent κ ν → Prop
  | .restart during steps _ =>
      (life.cut bounds during steps).behind = false ∨
        (life.cut bounds during steps).node.epoch = 0
  | .act _ => True

variable {life : Life κ ν}

variable (bounds) in
theorem Sound.cut (h : life.Sound) (during : Act κ ν) (steps : ℕ) :
    (life.cut bounds during steps).Sound :=
  h.does bounds ((Keeps.steps life during).take steps)

theorem Sound.holds_iff (h : life.Sound) (event : LifeEvent κ ν) :
    life.Holds bounds event ↔ life.Kept bounds event := by
  cases event with
  | restart during steps process =>
      have hcut := h.cut bounds during steps
      have hmet := hcut.met
      have hle := hcut.le
      have hkept := hcut.kept
      have hepoch : (StorageNode.new process (life.cut bounds during steps).node.engines).epoch =
          (life.cut bounds during steps).node.keptEpoch := rfl
      simp only [Holds, Kept, hepoch, ← hkept]
      omega
  | act act =>
      cases act with
      | promote answered fresh keys upgrades =>
          refine ⟨fun _ => trivial, fun _ h32 e he before before' => ?_⟩
          refine Claim.fenceAfter_lt ?_ h32 before before'
          have hmet := h.met
          simp only [promotedIn]
          omega
      | _ => exact Iff.rfl

theorem Sound.after (h : life.Sound) (event : LifeEvent κ ν) (hholds : life.Holds bounds event) :
    (life.after bounds event).Sound := by
  cases event with
  | act act =>
      have hdoes := h.does bounds (Keeps.steps life act)
      exact ⟨hdoes.met, hdoes.le, hdoes.kept⟩
  | restart during steps process =>
      have hmax : max (life.cut bounds during steps).met
          (StorageNode.new process (life.cut bounds during steps).node.engines).epoch =
            (StorageNode.new process (life.cut bounds during steps).node.engines).epoch :=
        max_eq_right hholds
      exact ⟨hmax, le_rfl, ⟨fun _ => .inl rfl, fun _ => rfl⟩⟩

/-- Over every run of a Storage node: it starts again with no epoch lower than one it met, and is
promoted behind none of their fences, exactly where it is never started again with its epoch
unkept. -/
theorem epoch_kept (bounds : Bounds κ ν) (process : ℕ) (engines : Database → Engine κ ν)
    (events : List (LifeEvent κ ν)) :
    EachStep (Life.after bounds) (Holds bounds) (started process engines) events ↔
      EachStep (Life.after bounds) (Kept bounds) (started process engines) events :=
  EachStep.iff_of_invariant (Sound.started process engines)
    (fun _ event h => h.holds_iff event) fun _ event h hholds => h.after event hholds

/-- A standby copied whole by the primary it met in epoch 1, and started again. -/
def copiedThenStarted : List (LifeEvent ℕ ℕ) :=
  [.act (.meet 0 1), .act (.frame (.whole 7 1 [0, 0, 0])), .act (.frame (.copied 0 1)),
    .act (.frame (.copied 1 1)), .act (.frame (.copied 2 1)), .restart .lose 0 2]

theorem copiedThenStarted_lower :
    ¬EachStep (Life.after ⟨fun _ => 1, 64⟩) (Holds ⟨fun _ => 1, 64⟩)
      (started 1 fun _ => Engine.empty) copiedThenStarted := by
  intro h
  have hrestart : 1 ≤ 0 := h.tail.tail.tail.tail.tail.head
  omega

end Life

end Standby

end XmipPersist
