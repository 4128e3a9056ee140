import XmipPersist.Verification.Standby.Promotion

/-! # The processes of the Storage nodes

Whatever happens among the Storage nodes, the one at a place is the same process in no earlier epoch
than before, or one just started, numbered as none was.
-/

namespace XmipPersist.Standby

open StorageNode

variable {κ ν : Type} [LinearOrder κ] {bounds : Bounds κ ν}

theorem StorageNode.process_perform (node : StorageNode κ ν) (effect : Effect κ ν) :
    (node.perform bounds effect).process = node.process := by
  cases effect <;> rfl

variable (bounds) in
theorem StorageNode.process_performAll (node : StorageNode κ ν) (effects : List (Effect κ ν)) :
    (node.performAll bounds effects).process = node.process := by
  induction effects generalizing node with
  | nil => rfl
  | cons effect effects ih => exact (ih _).trans (process_perform node effect)

/-- The same process, in no earlier epoch. -/
structure SameProcess (before after : StorageNode κ ν) : Prop where
  process : after.process = before.process
  epoch : before.epoch ≤ after.epoch

theorem SameProcess.refl (node : StorageNode κ ν) : SameProcess node node := ⟨rfl, le_rfl⟩

theorem SameProcess.trans {a b c : StorageNode κ ν} (hab : SameProcess a b)
    (hbc : SameProcess b c) : SameProcess a c :=
  ⟨hbc.process.trans hab.process, hab.epoch.trans hbc.epoch⟩

variable (bounds) in
theorem SameProcess.performAll (node : StorageNode κ ν) (effects : List (Effect κ ν)) :
    SameProcess node (node.performAll bounds effects) :=
  ⟨process_performAll bounds node effects, epoch_le_performAll bounds node effects⟩

namespace Member

theorem unfollowed_sameProcess (m : Member κ ν) {node : StorageNode κ ν}
    (h : SameProcess m.node node) : SameProcess m.node (m.unfollowed bounds node).node := by
  simp only [unfollowed]
  split
  · exact h
  · exact h.trans (.performAll bounds node _)

theorem take_sameProcess (m : Member κ ν) (f : Followed κ ν) (c : Connection κ ν)
    (fails : Option ℕ) : SameProcess m.node (m.take bounds f c fails).node := by
  simp only [take]
  split
  · exact .refl m.node
  · next sent frames steps hframes =>
      exact m.unfollowed_sameProcess (.performAll bounds m.node _)
  · next sent frames hframes =>
      have hsame : SameProcess m.node
          (m.node.performAll bounds (m.node.taking c.whole sent.frame).1) :=
        .performAll bounds m.node _
      cases hok : (m.node.taking c.whole sent.frame).2 with
      | ok whole =>
          simp only [Receiver.take, hok, if_true]
          exact hsame
      | error stopped =>
          simp only [Receiver.take, hok]
          exact m.unfollowed_sameProcess hsame

end Member

namespace Cluster

variable {c : Cluster κ ν}

/-- Each Storage node is the same process in no earlier epoch, or one just started. -/
def Goes (c c' : Cluster κ ν) : Prop :=
  c.processes ≤ c'.processes ∧ ∀ place,
    SameProcess (c.members place).node (c'.members place).node ∨
      (c'.members place).node.process = c.processes ∧ c.processes < c'.processes

theorem Goes.refl (c : Cluster κ ν) : Goes c c := ⟨le_rfl, fun _ => .inl (.refl _)⟩

theorem Goes.set {place : ℕ} {m : Member κ ν} (h : SameProcess (c.members place).node m.node) :
    Goes c (c.set place m) := by
  refine ⟨le_rfl, fun other => .inl ?_⟩
  by_cases hother : other = place
  · subst hother
    simpa [Cluster.set] using h
  · simpa [Cluster.set, hother] using SameProcess.refl (c.members other).node

theorem Goes.settle (place : ℕ) (silent : Bool) (opening : Opening κ ν) :
    Goes c (c.settle bounds place silent opening) := by
  simp only [Cluster.settle]
  split
  · split
    · exact .set (.performAll bounds _ _)
    · exact .set (.refl _)
  · split
    · exact .set (.refl _)
    · exact .set (.performAll bounds _ _)
    · split
      · exact .set (.refl _)
      · exact .set (.performAll bounds _ _)
      · exact .set (.performAll bounds _ _)

variable (bounds) in
theorem Goes.after (c : Cluster κ ν) (event : ClusterEvent κ ν) :
    Goes c (c.after bounds event) := by
  cases event with
  | start place =>
      simp only [Cluster.after]
      split
      · refine ⟨Nat.le_succ _, fun other => ?_⟩
        by_cases hother : other = place
        · subst hother
          exact .inr ⟨by simp [Cluster.set, Member.start, StorageNode.new], Nat.lt_succ_self _⟩
        · exact .inl (by simpa [Cluster.set, hother] using SameProcess.refl (c.members other).node)
      · exact .refl c
  | kill place =>
      refine ⟨le_rfl, fun other => .inl ?_⟩
      simp only [Cluster.after]
      split <;> exact .refl _
  | stop place => exact .set ⟨rfl, le_rfl⟩
  | ask place answers =>
      simp only [Cluster.after]
      split
      · exact .set (.refl _)
      · exact .refl c
  | settle place silent opening =>
      simp only [Cluster.after]
      split
      · exact .settle place silent opening
      · exact .refl c
  | accept place =>
      simp only [Cluster.after]
      split
      · split
        · exact .set (.refl _)
        · exact .refl c
      · exact .refl c
  | ship place idle =>
      simp only [Cluster.after]
      split
      · exact .set (.refl _)
      · exact .refl c
  | take place fails =>
      simp only [Cluster.after]
      split
      · exact .set (Member.take_sameProcess _ _ _ _)
      · exact .refl c
  | cut place =>
      simp only [Cluster.after]
      split
      · exact .set (Member.unfollowed_sameProcess _ (.refl _))
      · exact .refl c
  | write place database changes =>
      simp only [Cluster.after]
      split
      · exact .set ⟨process_perform _ _, epoch_le_perform _ _⟩
      · exact .refl c

theorem processes_opened (listed : ℕ) (engines : ℕ → Database → Engine κ ν) (place : ℕ) :
    ((opened listed engines).members place).node.process < (opened listed engines).processes :=
  Nat.zero_lt_one

/-- Every Storage node's process is one that was started. -/
theorem Goes.processes {c' : Cluster κ ν} (hgoes : Goes c c')
    (h : ∀ place, (c.members place).node.process < c.processes) (place : ℕ) :
    (c'.members place).node.process < c'.processes := by
  rcases hgoes.2 place with hsame | hstarted
  · exact hsame.process ▸ lt_of_lt_of_le (h place) hgoes.1
  · exact hstarted.1 ▸ hstarted.2

/-- What a process said: it is one started, and where it still runs, in no earlier epoch. -/
def Said (c : Cluster κ ν) (place process epoch : ℕ) : Prop :=
  process < c.processes ∧
    ((c.members place).node.process = process → epoch ≤ (c.members place).node.epoch)

theorem Said.goes {c' : Cluster κ ν} {place process epoch : ℕ} (h : c.Said place process epoch)
    (hgoes : Goes c c') : c'.Said place process epoch := by
  have hle := hgoes.1
  refine ⟨lt_of_lt_of_le h.1 hle, fun hprocess => ?_⟩
  rcases hgoes.2 place with hsame | hstarted
  · exact (h.2 (hsame.process.symm.trans hprocess)).trans hsame.epoch
  · have hlt := h.1
    omega

end Cluster

end XmipPersist.Standby
