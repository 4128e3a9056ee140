import XmipPersist.Model.Following

/-! # What a Storage node's steps leave of it

For each thing a Storage node does on a frame, and for what it takes up, the writes, entries,
positions and mark it is left with.
-/

namespace XmipPersist.Standby

variable {κ ν : Type} [LinearOrder κ] {bounds : Bounds κ ν}

namespace StorageNode

theorem engines_onEngine (node : StorageNode κ ν) (d e : Database)
    (f : Engine κ ν → Engine κ ν) :
    (node.onEngine d f).engines e = if e = d then f (node.engines d) else node.engines e := by
  simp [onEngine, Function.update_apply]

@[simp] theorem copies_onEngine (node : StorageNode κ ν) (d : Database)
    (f : Engine κ ν → Engine κ ν) : (node.onEngine d f).copies = node.copies := rfl

@[simp] theorem performAll_nil (node : StorageNode κ ν) : node.performAll bounds [] = node := rfl

@[simp] theorem performAll_cons (node : StorageNode κ ν) (effect : Effect κ ν)
    (effects : List (Effect κ ν)) :
    node.performAll bounds (effect :: effects) =
      (node.perform bounds effect).performAll bounds effects := rfl

theorem performAll_append (node : StorageNode κ ν) (xs ys : List (Effect κ ν)) :
    node.performAll bounds (xs ++ ys) = (node.performAll bounds xs).performAll bounds ys :=
  List.foldl_append

/-! ## What leaves the copy as it is -/

/-- The same writes, entries, positions and mark of a whole copy. -/
structure Same (a b : StorageNode κ ν) : Prop where
  copies : b.copies = a.copies
  entries : ∀ d, (b.engines d).entries = (a.engines d).entries
  position : ∀ d, (b.engines d).position = (a.engines d).position
  copying : b.isCopying = a.isCopying

theorem Same.refl (a : StorageNode κ ν) : Same a a := ⟨rfl, fun _ => rfl, fun _ => rfl, rfl⟩

theorem Same.trans {a b c : StorageNode κ ν} (hab : Same a b) (hbc : Same b c) : Same a c where
  copies := hbc.copies.trans hab.copies
  entries d := (hbc.entries d).trans (hab.entries d)
  position d := (hbc.position d).trans (hab.position d)
  copying := hbc.copying.trans hab.copying

theorem keepEpoch_same (node : StorageNode κ ν) (epoch : ℕ) :
    Same node (node.perform bounds (.keepEpoch epoch)) where
  copies := rfl
  entries d := by by_cases h : d = runtime <;> simp [perform, engines_onEngine, h]
  position d := by by_cases h : d = runtime <;> simp [perform, engines_onEngine, h]
  copying := by simp [perform, isCopying, engines_onEngine]

/-- An epoch kept where it is later than another, after a step that touches no engine. -/
private theorem epoch_same (node : StorageNode κ ν) (effect : Effect κ ν) (before epoch : ℕ)
    (h : Same node (node.perform bounds effect)) :
    Same node (node.performAll bounds
      (effect :: if before < epoch then [.keepEpoch epoch] else [])) := by
  by_cases hlt : before < epoch
  · simp only [hlt, if_true, performAll_cons, performAll_nil]
    exact h.trans (keepEpoch_same _ _)
  · simpa only [hlt, if_false, performAll_cons, performAll_nil] using h

variable (bounds) in
theorem takeUp_same (node other : StorageNode κ ν) (role : Role) (epoch : ℕ) :
    Same node (node.performAll bounds (other.takeUp role epoch)) :=
  epoch_same node _ _ _ ⟨rfl, fun _ => rfl, fun _ => rfl, rfl⟩

variable (bounds) in
theorem heard_same (node other : StorageNode κ ν) (epoch : ℕ) :
    Same node (node.performAll bounds (other.heard epoch)) :=
  epoch_same node _ _ _ ⟨rfl, fun _ => rfl, fun _ => rfl, rfl⟩

/-! ## A whole copy begun -/

theorem wiped_entries (node : StorageNode κ ν) (keys : Database → ℕ) (d : Database) :
    ((node.performAll bounds (wiped keys)).engines d).entries = .empty := by
  match d with
  | 0 => simp [wiped, perform, engines_onEngine, Engine.empty]
  | 1 => simp [wiped, perform, engines_onEngine, Engine.empty]
  | 2 => simp [wiped, perform, engines_onEngine, Engine.empty]

theorem wiped_copying (node : StorageNode κ ν) (keys : Database → ℕ) :
    (node.performAll bounds (wiped keys)).isCopying = node.isCopying := by
  simp [wiped, perform, isCopying, engines_onEngine, runtime]

/-- Marked before anything of it is lost. -/
theorem begun_copying (node : StorageNode κ ν) :
    (node.performAll bounds [.mark, .restart 0 fun _ => 1]).isCopying = true := by
  simp [perform, isCopying, engines_onEngine]

/-! ## A whole copy taken -/

theorem copiedWhole_copies (node : StorageNode κ ν) (whole : Whole) :
    (node.performAll bounds (copiedWhole whole)).copies =
      .restart whole.history fun database => (whole.next database).getD 1 := by
  simp [copiedWhole, perform]

theorem copiedWhole_entries (node : StorageNode κ ν) (whole : Whole) (d : Database) :
    ((node.performAll bounds (copiedWhole whole)).engines d).entries =
      (node.engines d).entries := by
  match d with
  | 0 => simp [copiedWhole, perform, engines_onEngine, runtime]
  | 1 => simp [copiedWhole, perform, engines_onEngine, runtime]
  | 2 => simp [copiedWhole, perform, engines_onEngine, runtime]

theorem copiedWhole_position (node : StorageNode κ ν) (whole : Whole) (d : Database) :
    ((node.performAll bounds (copiedWhole whole)).engines d).position =
      some (whole.history, (whole.next d).getD 1) := by
  match d with
  | 0 => simp [copiedWhole, perform, engines_onEngine, runtime]
  | 1 => simp [copiedWhole, perform, engines_onEngine, runtime]
  | 2 => simp [copiedWhole, perform, engines_onEngine, runtime]

/-! ## A copy and a page taken -/

theorem entries_entries (node : StorageNode κ ν) (d e : Database) (page : List (κ × ν)) :
    ((node.perform bounds (.entries d page)).engines e).entries =
      if e = d then (node.engines d).entries.apply (Replay.puts page)
      else (node.engines e).entries := by
  by_cases h : e = d <;> simp [perform, engines_onEngine, h, Engine.apply]

variable (bounds) in
theorem entries_copying (node : StorageNode κ ν) (d : Database) (page : List (κ × ν)) :
    (node.perform bounds (.entries d page)).isCopying = node.isCopying := by
  by_cases h : runtime = d <;> simp [perform, isCopying, engines_onEngine, h, Engine.apply]

theorem copy_entries (node : StorageNode κ ν) (d e : Database) (number : ℕ)
    (changes : List (Change κ ν)) :
    ((node.perform bounds (.copy d number changes)).engines e).entries =
      if e = d then (node.engines d).entries.apply changes else (node.engines e).entries := by
  by_cases h : e = d <;> simp [perform, engines_onEngine, h, Engine.apply]

theorem copy_position (node : StorageNode κ ν) (d e : Database) (number : ℕ)
    (changes : List (Change κ ν)) :
    ((node.perform bounds (.copy d number changes)).engines e).position =
      if e = d then some (node.copies.history, number + 1) else (node.engines e).position := by
  by_cases h : e = d <;> simp [perform, engines_onEngine, h]

theorem copy_copying (node : StorageNode κ ν) (d : Database) (number : ℕ)
    (changes : List (Change κ ν)) :
    (node.perform bounds (.copy d number changes)).isCopying = node.isCopying := by
  by_cases h : runtime = d <;> simp [perform, isCopying, engines_onEngine, h, Engine.apply]

@[simp] theorem copy_history (node : StorageNode κ ν) (d : Database) (number : ℕ)
    (changes : List (Change κ ν)) :
    (node.perform bounds (.copy d number changes)).copies.history = node.copies.history := rfl

theorem copy_next (node : StorageNode κ ν) (d e : Database) (number : ℕ)
    (changes : List (Change κ ν)) :
    (node.perform bounds (.copy d number changes)).copies.next e =
      if e = d then node.copies.next d + 1 else node.copies.next e := by
  by_cases h : e = d <;> simp [perform, Copies.next, Copies.keep, Kept.keep, h]

/-! ## Started again -/

/-- Positions that all say one history are where it goes on from. -/
theorem new_copies {engines : Database → Engine κ ν} {history : ℕ} {next : Database → ℕ}
    (h : ∀ d, (engines d).position = some (history, next d)) (process : ℕ) :
    (new process engines).copies.history = history ∧
      ∀ d, (new process engines).copies.next d = next d := by
  have hall : ∀ d, ((engines d).position.map Prod.fst) = some history := fun d => by
    simp [h d]
  have hnew : (new process engines).copies =
      .restart history fun d => ((engines d).position.map Prod.snd).getD 1 := by
    simp [new, positioned, h 0, hall]
  constructor
  · rw [hnew]
    rfl
  · intro d
    rw [hnew]
    simp [Copies.next, Copies.restart, Kept.fresh, h d]

end StorageNode

end XmipPersist.Standby
