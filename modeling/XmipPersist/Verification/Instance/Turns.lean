import XmipPersist.Verification.Claim.Repeat

/-! # Turns over an Instance, and the keys it is correlated by

A turn is decided over the turn it read: of all that read one, the first moves the Instance past
it. A key belongs to one Instance until a turn of that one lets it go.
-/

namespace XmipPersist

open Lease

variable {digest : Publication → Bytes}

/-! ## What a batch keeps of Instances and keys -/

def instancePlace (identifier : ℕ) : Place := (.processInstance, .id identifier)

def keyPlace (key : ℕ) : Place := (.instanceKey, .id key)

/-- The Instance a read found. -/
def instanceIn : Except PersistError (Option Content) → Option InstanceRecord
  | .ok (some (.processInstance found)) => some found
  | _ => none

/-- The Instance a key that was read belongs to. -/
def ownerIn : Except PersistError (Option Content) → Option ℕ
  | .ok (some (.instanceKey found)) => some found.identifier
  | _ => none

/-- The turn an Instance stands at: none taken where it is not there. -/
def turnsIn (found : Option InstanceRecord) : ℕ := (found.map InstanceRecord.turns).getD 0

namespace Batch

def instanceAt (b : Batch) (identifier : ℕ) : Option InstanceRecord :=
  instanceIn (b.read (instancePlace identifier))

def ownerOf (b : Batch) (key : ℕ) : Option ℕ := ownerIn (b.read (keyPlace key))

variable {b : Batch}

theorem Proper.instance_run (hb : b.Proper) (identifier : ℕ) :
    (readAs InstanceRecord .processInstance (.id identifier)).run b =
      .ok (b.instanceAt identifier, b) := by
  obtain ⟨found, hread, hholds⟩ := hb (instancePlace identifier)
  change (b.read (instancePlace identifier) >>= decoded (α := InstanceRecord)).map (·, b) = _
  rw [instanceAt, hread]
  cases found with
  | none => rfl
  | some content =>
      have hc := hholds content rfl
      cases content <;> first | exact hc.elim | rfl

theorem Proper.owner_run (hb : b.Proper) (key : ℕ) :
    (Turn.owner key).run b = .ok (b.ownerOf key, b) := by
  obtain ⟨found, hread, hholds⟩ := hb (keyPlace key)
  have hfound : (readAs InstanceKey .instanceKey (.id key)).run b =
      .ok ((b.ownerOf key).map (InstanceKey.mk key), b) := by
    change (b.read (keyPlace key) >>= decoded (α := InstanceKey)).map (·, b) = _
    rw [ownerOf, hread]
    cases found with
    | none => rfl
    | some content =>
        have hc := hholds content rfl
        cases content <;> first | exact hc.elim | (obtain rfl : _ = key := hc; rfl)
  unfold Turn.owner
  rw [Decision.run_bind_ok hfound]
  cases b.ownerOf key <;> rfl

theorem instanceAt_put (b : Batch) (record : InstanceRecord) (identifier : ℕ) :
    (b.put .processInstance (.id record.identifier) (some (Form.bytes record))).instanceAt
        identifier =
      if record.identifier = identifier then some record else b.instanceAt identifier := by
  rw [instanceAt, read_put]
  by_cases h : record.identifier = identifier
  · rw [if_pos h, if_pos (by simp [instancePlace, h])]
    rfl
  · rw [if_neg h, if_neg (by simp [instancePlace, h])]
    rfl

theorem ownerOf_put (b : Batch) (at' key : ℕ) (owner : Option ℕ) :
    (b.put .instanceKey (.id at') (owner.map fun o => Form.bytes (InstanceKey.mk at' o))).ownerOf
        key =
      if at' = key then owner else b.ownerOf key := by
  rw [ownerOf, read_put]
  by_cases h : at' = key
  · rw [if_pos h, if_pos (by simp [keyPlace, h])]
    cases owner <;> rfl
  · rw [if_neg h, if_neg (by simp [keyPlace, h])]
    rfl

end Batch

/-! ## What a turn is decided on, and what it writes -/

namespace Turn

variable {b b' : Batch}

theorem stands_run (hb : b.Proper) (writes : List InstanceWrite) :
    (stands writes).run b = .ok (writes.all fun write =>
      turnsIn (b.instanceAt write.record.identifier) = write.over', b) := by
  induction writes with
  | nil => rfl
  | cons write writes ih =>
      unfold stands
      rw [Decision.run_bind_ok (hb.instance_run _), List.all_cons]
      change (if turnsIn (b.instanceAt write.record.identifier) ≠ write.over' then pure false
        else stands writes : Deciding Bool).run b = _
      by_cases hover : turnsIn (b.instanceAt write.record.identifier) = write.over'
      · rw [if_neg (not_not.mpr hover), ih]
        simp [hover]
      · rw [if_pos hover]
        simp only [hover, decide_false, Bool.false_and]
        rfl

theorem free_run (hb : b.Proper) (keys : List InstanceKey) :
    (free keys).run b = .ok (keys.all fun key =>
      (b.ownerOf key.key).all (· = key.identifier), b) := by
  induction keys with
  | nil => rfl
  | cons key keys ih =>
      unfold free
      rw [Decision.run_bind_ok (hb.owner_run _), List.all_cons]
      cases howner : b.ownerOf key.key with
      | none =>
          simp only [Option.any_none, Bool.false_eq_true, if_false, Option.all_none,
            Bool.true_and]
          exact ih
      | some owner =>
          by_cases hsame : owner = key.identifier
          · simp only [Option.any_some, hsame, ne_eq, not_true_eq_false, decide_false,
              Bool.false_eq_true, if_false, Option.all_some, decide_true, Bool.true_and]
            exact ih
          · simp only [Option.any_some, hsame, ne_eq, not_false_eq_true, decide_true, if_true,
              Option.all_some, decide_false, Bool.false_and]
            rfl

/-- Whether a turn's Instances stand where it read them, and its keys are free or their own. -/
def Current (turn : Turn) (b : Batch) : Prop :=
  (∀ write ∈ turn.instances,
    turnsIn (b.instanceAt write.record.identifier) = write.over') ∧
  ∀ key ∈ turn.keys, ∀ owner ∈ b.ownerOf key.key, owner = key.identifier

theorem current_run (hb : b.Proper) (turn : Turn) :
    ∃ yes, (current turn.instances turn.keys).run b = .ok (yes, b) ∧
      (yes = true ↔ turn.Current b) := by
  unfold current
  rw [Decision.run_bind_ok (stands_run hb turn.instances)]
  have hkeys : (turn.keys.all fun key => (b.ownerOf key.key).all (· = key.identifier)) = true ↔
      ∀ key ∈ turn.keys, ∀ owner ∈ b.ownerOf key.key, owner = key.identifier := by
    simp only [List.all_eq_true, Option.all_eq_true, decide_eq_true_eq, Option.mem_def]
  by_cases hstands : ∀ write ∈ turn.instances,
      turnsIn (b.instanceAt write.record.identifier) = write.over'
  · rw [if_pos (by simpa using hstands)]
    refine ⟨_, free_run hb turn.keys, ?_⟩
    rw [hkeys]
    exact ⟨fun h => ⟨hstands, h⟩, fun h => h.2⟩
  · rw [if_neg (by simpa using hstands)]
    refine ⟨false, rfl, ?_⟩
    simp only [Bool.false_eq_true, false_iff]
    exact fun h => hstands h.1

/-- A turn that was done was decided over the turns and keys it read, and its hand-on is done
before it writes its own. -/
theorem decide_done {turn : Turn} {now : ℤ} (hb : b.Proper)
    (h : (turn.decide now).run b = .ok (true, b')) :
    turn.Current b ∧ ∃ b₁, (turn.handOn.decide now).run b = .ok (true, b₁) ∧
      (write turn.instances turn.keys turn.unkeyed).run b₁ = .ok ((), b') := by
  rcases decide_ok hb h with ⟨-, hno⟩ | ⟨b₁, hhand, hwrite, -⟩
  · cases hno
  · refine ⟨?_, b₁, hhand, hwrite⟩
    obtain ⟨yes, hcurrent, hiff⟩ := current_run hb turn
    unfold decide at h
    rw [Decision.run_bind_ok hcurrent] at h
    cases yes with
    | true => exact hiff.mp rfl
    | false =>
        rw [if_neg (by simp)] at h
        cases h

theorem instances_ok {writes : List InstanceWrite}
    (h : (writes.forM fun write => putRecord .processInstance write.record.identifier
      write.record : Deciding PUnit).run b = .ok ((), b'))
    (hnodup : (writes.map fun write => write.record.identifier).Nodup) (identifier : ℕ) :
    b'.instanceAt identifier =
      ((writes.find? fun write => write.record.identifier = identifier).map
        InstanceWrite.record).or (b.instanceAt identifier) := by
  induction writes generalizing b with
  | nil =>
      obtain rfl : b = b' := by cases h; rfl
      rfl
  | cons write writes ih =>
      obtain ⟨hnot, hrest⟩ := List.nodup_cons.mp hnodup
      have hnext := ih (put_bind_ok.mp h) hrest
      rw [hnext, Batch.instanceAt_put, List.find?_cons]
      by_cases hid : write.record.identifier = identifier
      · have hnone : (writes.find? fun w => w.record.identifier = identifier) = none := by
          rw [List.find?_eq_none]
          intro w hw heq
          have hwid : w.record.identifier = identifier := by simpa using heq
          exact hnot (List.mem_map.mpr ⟨w, hw, hwid.trans hid.symm⟩)
        simp [hid, hnone]
      · simp [hid]

theorem keys_ok {keys : List InstanceKey}
    (h : (keys.forM fun key => putRecord .instanceKey key.key key : Deciding PUnit).run b =
      .ok ((), b')) (key : ℕ) :
    (b'.ownerOf key = b.ownerOf key ∧ ∀ set ∈ keys, set.key ≠ key) ∨
      ∃ set ∈ keys, set.key = key ∧ b'.ownerOf key = some set.identifier := by
  induction keys generalizing b with
  | nil =>
      obtain rfl : b = b' := by cases h; rfl
      exact .inl ⟨rfl, by simp⟩
  | cons first keys ih =>
      rcases ih (put_bind_ok.mp h) with ⟨hsame, hnone⟩ | ⟨set, hset, hkey, howner⟩
      · have hput := Batch.ownerOf_put b first.key key (some first.identifier)
        simp only [Option.map_some] at hput
        rw [hput] at hsame
        by_cases hk : first.key = key
        · rw [if_pos hk] at hsame
          exact .inr ⟨first, by simp, hk, hsame⟩
        · rw [if_neg hk] at hsame
          refine .inl ⟨hsame, fun set hset => ?_⟩
          rcases List.mem_cons.mp hset with rfl | hset
          · exact hk
          · exact hnone set hset
      · exact .inr ⟨set, by simp [hset], hkey, howner⟩

/-- One key let go where it belongs to the Instance it is named with. -/
theorem gone_ok (hb : b.Proper) {gone : InstanceKey}
    (h : (do
      let owner ← owner gone.key
      if owner = some gone.identifier then put .instanceKey (.id gone.key) none
      else pure () : Deciding Unit).run b = .ok ((), b')) :
    (b.ownerOf gone.key = some gone.identifier ∧
        b' = b.put .instanceKey (.id gone.key) none) ∨
      (b.ownerOf gone.key ≠ some gone.identifier ∧ b' = b) := by
  rw [Decision.run_bind_ok (hb.owner_run gone.key)] at h
  by_cases howner : b.ownerOf gone.key = some gone.identifier
  · rw [if_pos howner] at h
    exact .inl ⟨howner, put_ok.mp h⟩
  · rw [if_neg howner] at h
    cases h
    exact .inr ⟨howner, rfl⟩

theorem unkeyed_ok {unkeyed : List InstanceKey} (hb : b.Proper)
    (h : (unkeyed.forM fun gone => do
      let owner ← owner gone.key
      if owner = some gone.identifier then put .instanceKey (.id gone.key) none
      else pure () : Deciding PUnit).run b = .ok ((), b')) (key : ℕ) :
    b'.ownerOf key = b.ownerOf key ∨
      ∃ gone ∈ unkeyed, gone.key = key ∧ b.ownerOf key = some gone.identifier ∧
        b'.ownerOf key = none := by
  induction unkeyed generalizing b with
  | nil =>
      obtain rfl : b = b' := by cases h; rfl
      exact .inl rfl
  | cons gone unkeyed ih =>
      obtain ⟨_, b₁, hfirst, hrest⟩ := Decision.bind_ok_iff.mp h
      have hadds : Adds [.instanceKey] b b₁ := by
        rcases gone_ok hb hfirst with ⟨-, rfl⟩ | ⟨-, rfl⟩
        · exact ⟨rfl, le_rfl, fun _ => rfl, [_], rfl, by simp [Change.Proper, Kind.passes]⟩
        · exact Adds.refl _ _
      have hnext := ih (hadds.proper hb) hrest
      rcases gone_ok hb hfirst with ⟨howner, rfl⟩ | ⟨-, rfl⟩
      · have hput := Batch.ownerOf_put b gone.key key none
        simp only [Option.map_none] at hput
        rw [hput] at hnext
        by_cases hk : gone.key = key
        · subst hk
          rw [if_pos rfl] at hnext
          rcases hnext with hnone | ⟨other, hother, -, -, hnone⟩
          · exact .inr ⟨gone, by simp, rfl, howner, hnone⟩
          · exact .inr ⟨gone, by simp, rfl, howner, hnone⟩
        · rw [if_neg hk] at hnext
          rcases hnext with hsame | ⟨other, hother, hkey, hwas, hnone⟩
          · exact .inl hsame
          · exact .inr ⟨other, by simp [hother], hkey, hwas, hnone⟩
      · rcases hnext with hsame | ⟨other, hother, hkey, hwas, hnone⟩
        · exact .inl hsame
        · exact .inr ⟨other, by simp [hother], hkey, hwas, hnone⟩

end Turn

/-! ## Turns over a run -/

namespace Turn

/-- The write of a turn to an Instance, where it names it. -/
def writeTo (turn : Turn) (identifier : ℕ) : Option InstanceWrite :=
  turn.instances.find? fun write => write.record.identifier = identifier

/-- A turn as a Work Process makes it: each Instance it names once, one turn on from the turn it
read. -/
structure OneOn (turn : Turn) : Prop where
  once : (turn.instances.map fun write => write.record.identifier).Nodup
  turns : ∀ write ∈ turn.instances, write.record.turns = write.over' + 1

instance (turn : Turn) : Decidable turn.OneOn :=
  decidable_of_iff ((turn.instances.map fun write => write.record.identifier).Nodup ∧
    ∀ write ∈ turn.instances, write.record.turns = write.over' + 1)
    ⟨fun h => ⟨h.1, h.2⟩, fun h => ⟨h.once, h.turns⟩⟩

theorem writeTo_mem {turn : Turn} {identifier : ℕ} {write : InstanceWrite}
    (h : turn.writeTo identifier = some write) :
    write ∈ turn.instances ∧ write.record.identifier = identifier := by
  have hfound := List.find?_some h
  exact ⟨List.mem_of_find?_eq_some h, by simpa using hfound⟩

/-- What a turn that was done leaves of an Instance and of a key. -/
theorem done_ok {turn : Turn} {now : ℤ} {b b' : Batch} (hb : b.Proper)
    (honce : (turn.instances.map fun write => write.record.identifier).Nodup)
    (h : (turn.decide now).run b = .ok (true, b')) :
    (∀ identifier, b'.instanceAt identifier =
      ((turn.writeTo identifier).map InstanceWrite.record).or (b.instanceAt identifier)) ∧
    ∀ key, b'.ownerOf key = b.ownerOf key ∨
      (∃ set ∈ turn.keys, set.key = key ∧ b.ownerOf key = none ∧
        b'.ownerOf key = some set.identifier) ∨
      ∃ gone ∈ turn.unkeyed, gone.key = key ∧ b.ownerOf key = some gone.identifier ∧
        b'.ownerOf key = none := by
  obtain ⟨⟨-, hfree⟩, b₁, hhand, hwrite⟩ := decide_done hb h
  obtain ⟨_, b₂, hinstances, hrest⟩ := Decision.bind_ok_iff.mp hwrite
  obtain ⟨_, b₃, hkeys, hgone⟩ := Decision.bind_ok_iff.mp hrest
  have hadds₁ := HandOn.decide_writes turn.handOn now b _ b₁ hhand
  have hadds₂ := instances_writes turn.instances b₁ _ b₂ hinstances
  have hadds₃ := keys_writes turn.keys b₂ _ b₃ hkeys
  have hadds₄ := unkeyed_writes turn.unkeyed b₃ _ b' hgone
  have hhand₁ : Kind.processInstance ∉ Kind.claim :: HandOn.writeKinds := by decide
  have hhand₂ : Kind.instanceKey ∉ Kind.claim :: HandOn.writeKinds := by decide
  have hproper₃ : b₃.Proper := hadds₃.proper (hadds₂.proper (hadds₁.proper hb))
  constructor
  · intro identifier
    have hsame₁ : b₁.instanceAt identifier = b.instanceAt identifier := by
      rw [Batch.instanceAt, hadds₁.read_of_kind hhand₁]
      rfl
    have hsame₄ : b'.instanceAt identifier = b₂.instanceAt identifier := by
      rw [Batch.instanceAt, hadds₄.read_of_kind (by simp [instancePlace]),
        hadds₃.read_of_kind (by simp [instancePlace])]
      rfl
    rw [hsame₄, instances_ok hinstances honce identifier, hsame₁]
    rfl
  · intro key
    have hsame₂ : b₂.ownerOf key = b.ownerOf key := by
      rw [Batch.ownerOf, hadds₂.read_of_kind (by simp [keyPlace]),
        hadds₁.read_of_kind hhand₂]
      rfl
    -- A key set is free or its own, so it moves from none where it moves at all.
    have hset : ∀ set ∈ turn.keys, set.key = key →
        b.ownerOf key = none ∨ b.ownerOf key = some set.identifier := by
      rintro set hmem rfl
      cases howner : b.ownerOf set.key with
      | none => exact .inl rfl
      | some owner => exact .inr (congrArg some (hfree set hmem owner howner))
    rcases unkeyed_ok hproper₃ hgone key with hsame | ⟨gone, hmem, hkey, hwas, hnone⟩
    · rcases keys_ok hkeys key with ⟨hkept, -⟩ | ⟨set, hmem, hkey, howner⟩
      · exact .inl (hsame.trans (hkept.trans hsame₂))
      · rcases hset set hmem hkey with hnone | hown
        · exact .inr (.inl ⟨set, hmem, hkey, hnone, hsame.trans howner⟩)
        · exact .inl (hsame.trans (howner.trans hown.symm))
    · rcases keys_ok hkeys key with ⟨hkept, -⟩ | ⟨set, hmem', hkey', howner⟩
      · exact .inr (.inr ⟨gone, hmem, hkey, by rw [← hsame₂, ← hkept, hwas], hnone⟩)
      · rcases hset set hmem' hkey' with hfirst | hown
        · exact .inl (hnone.trans hfirst.symm)
        · refine .inr (.inr ⟨gone, hmem, hkey, ?_, hnone⟩)
          rw [hown, ← howner, hwas]

end Turn

namespace Ruling

/-- The turn a ruling is, where it was done. -/
def turned (r : Ruling) : Option Turn :=
  match r.op, r.done with
  | .turn turn, .yes true => some turn
  | _, _ => none

/-- Whether a ruling is a turn done over an Instance's turn `turns`. -/
def isOver (identifier turns : ℕ) (r : Ruling) : Bool :=
  r.turned.any fun turn => turn.instances.any fun write =>
    write.record.identifier = identifier ∧ write.over' = turns

theorem turned_some {r : Ruling} {turn : Turn} (h : r.turned = some turn) :
    r.op = .turn turn ∧ r.done = .yes true := by
  obtain ⟨m, op, done, b, stage⟩ := r
  unfold turned at h
  split at h
  · next hop hdone =>
      cases h
      exact ⟨hop, hdone⟩
  · cases h

end Ruling

/-- The turn an operation is. -/
def Op.turns : Op → List Turn
  | .turn asked => [asked]
  | _ => []

/-- Only a turn writes Instances and keys. -/
theorem Op.instances_notMem_kinds {op : Op} (hmade : op.Made) (h : ∀ turn, op ≠ .turn turn) :
    Kind.processInstance ∉ op.kinds ∧ Kind.instanceKey ∉ op.kinds := by
  cases op with
  | turn turn => exact absurd rfl (h turn)
  | put kind key value => rcases hmade with ⟨_, rfl, _⟩ | ⟨_, rfl, _⟩ <;> simp [Op.kinds]
  | _ =>
      simp only [Op.kinds]
      decide

/-- What a ruling may do to an Instance: a turn over where it stands moves it, and nothing else
does. -/
def InstanceStep (identifier : ℕ) (r : Ruling) (before after : Option InstanceRecord) : Prop :=
  match r.turned.bind (Turn.writeTo · identifier) with
  | some write => turnsIn before = write.over' ∧ after = some write.record
  | none => after = before

/-- What a ruling may do to a key's owner: from none to the Instance a turn sets it for, or from
the Instance a turn lets it go for to none. -/
def OwnerStep (key : ℕ) (r : Ruling) (before after : Option ℕ) : Prop :=
  after = before ∨
    (∃ turn, r.turned = some turn ∧ ∃ set ∈ turn.keys, set.key = key ∧ before = none ∧
      after = some set.identifier) ∨
    ∃ turn, r.turned = some turn ∧ ∃ gone ∈ turn.unkeyed, gone.key = key ∧
      before = some gone.identifier ∧ after = none

/-- What a run of rulings makes of something kept, each moving it by a step of `S`. -/
inductive Moved {α : Type} (S : Ruling → α → α → Prop) : α → List Ruling → α → Prop
  | nil (a : α) : Moved S a [] a
  | cons {r : Ruling} {rs : List Ruling} {a b c : α} (step : S r a b) (rest : Moved S b rs c) :
      Moved S a (r :: rs) c

theorem Follows.moved {α : Type} {S : Ruling → α → α → Prop} {p : Place}
    {x y : Except PersistError (Option Content)} {rs : List Ruling}
    (f : Except PersistError (Option Content) → α) (h : Follows p x rs y)
    (hstep : ∀ r ∈ rs, S r (f (r.before.read p)) (f (r.stage.read p))) :
    Moved S (f x) rs (f y) := by
  induction h with
  | nil _ => exact .nil _
  | @cons r rs found h ih =>
      exact .cons (hstep r (by simp)) (ih fun s hs => hstep s (by simp [hs]))

namespace Ruling.Holds

variable {r : Ruling}

/-- A done turn of a ruling is what its decision came to. -/
theorem turn_ran (h : r.Holds digest) {turn : Turn} (ht : r.turned = some turn) :
    (turn.decide r.moment.now).run r.before.staged = .ok (true, r.stage) := by
  obtain ⟨m, op, done, b, stage⟩ := r
  obtain ⟨hop, hdone⟩ := turned_some ht
  subst hop hdone
  obtain ⟨yes, b', hdecide, hlast⟩ := Decision.bind_ok_iff.mp h.ran
  cases hlast
  exact hdecide

/-- A ruling that is no done turn leaves Instances and keys as they were. -/
theorem untouched (h : r.Holds digest) (hb : r.before.Proper) (ht : r.turned = none) {p : Place}
    (hp : p.1 = .processInstance ∨ p.1 = .instanceKey) :
    r.stage.read p = r.before.read p := by
  obtain ⟨m, op, done, b, stage⟩ := r
  cases hop : op with
  | turn turn =>
      subst hop
      obtain ⟨yes, b', hdecide, hlast⟩ := Decision.bind_ok_iff.mp h.ran
      cases hlast
      cases yes with
      | true => simp [turned] at ht
      | false =>
          rcases Turn.decide_ok (b := b.staged) hb hdecide with ⟨rfl, -⟩ | ⟨_, -, -, hno⟩
          · rfl
          · cases hno
  | _ =>
      have hkinds := Op.instances_notMem_kinds h.made (by simp [hop])
      have hadds := h.adds
      refine (hadds.read_of_kind ?_).trans (congrFun (Batch.read_staged b) p)
      rcases hp with hp | hp
      · rw [hp]
        exact hkinds.1
      · rw [hp]
        exact hkinds.2

theorem instance_step (h : r.Holds digest) (hb : r.before.Proper)
    (honce : ∀ turn, r.op = .turn turn → turn.OneOn) (identifier : ℕ) :
    InstanceStep identifier r (r.before.instanceAt identifier)
      (r.stage.instanceAt identifier) := by
  unfold InstanceStep
  cases ht : r.turned with
  | none =>
      simp only [Option.bind_none]
      rw [Batch.instanceAt, h.untouched hb ht (.inl rfl)]
      rfl
  | some turn =>
      have hturn := honce turn (turned_some ht).1
      have hran := h.turn_ran ht
      have hbefore : r.before.staged.Proper := hb
      have hstage := (Turn.done_ok hbefore hturn.once hran).1 identifier
      have hcurrent := (Turn.decide_done hbefore hran).1.1
      cases hw : turn.writeTo identifier with
      | none =>
          simp only [Option.bind_some, hw]
          rw [hw] at hstage
          exact hstage
      | some write =>
          obtain ⟨hmem, hid⟩ := Turn.writeTo_mem hw
          simp only [Option.bind_some, hw]
          have hover := hcurrent write hmem
          rw [hid] at hover
          rw [hw] at hstage
          exact ⟨hover, hstage⟩

theorem owner_step (h : r.Holds digest) (hb : r.before.Proper)
    (honce : ∀ turn, r.op = .turn turn → turn.OneOn) (key : ℕ) :
    OwnerStep key r (r.before.ownerOf key) (r.stage.ownerOf key) := by
  cases ht : r.turned with
  | none =>
      refine .inl ?_
      rw [Batch.ownerOf, h.untouched hb ht (.inr rfl)]
      rfl
  | some turn =>
      have hturn := honce turn (turned_some ht).1
      have hbefore : r.before.staged.Proper := hb
      rcases (Turn.done_ok hbefore hturn.once (h.turn_ran ht)).2 key with
        hsame | ⟨set, hset⟩ | ⟨gone, hgone⟩
      · exact .inl hsame
      · exact .inr (.inl ⟨turn, ht, set, hset⟩)
      · exact .inr (.inr ⟨turn, ht, gone, hgone⟩)

/-- A turn that was refused changed no record. -/
theorem turn_refused (h : r.Holds digest) (hb : r.before.Proper) {turn : Turn}
    (hop : r.op = .turn turn) (hno : r.done ≠ .yes true) : r.stage = r.before.staged := by
  obtain ⟨m, op, done, b, stage⟩ := r
  subst hop
  obtain ⟨yes, b', hdecide, hlast⟩ := Decision.bind_ok_iff.mp h.ran
  cases hlast
  rcases Turn.decide_ok (b := b.staged) hb hdecide with ⟨rfl, -⟩ | ⟨_, -, -, rfl⟩
  · rfl
  · exact absurd rfl hno

end Ruling.Holds

/-- Over each turn of an Instance at most one turn is done: a turn done leaves it past the turn
it read, and nothing takes it back. -/
theorem Moved.once {identifier : ℕ} {before after : Option InstanceRecord} {rs : List Ruling}
    (h : Moved (InstanceStep identifier) before rs after)
    (hone : ∀ r ∈ rs, ∀ turn, r.op = .turn turn → turn.OneOn) (turns : ℕ) :
    rs.countP (Ruling.isOver identifier turns) ≤ 1 ∧
      (turns < turnsIn before → rs.countP (Ruling.isOver identifier turns) = 0) := by
  -- A done turn names the Instance by the one write it has of it.
  have hover : ∀ r ∈ rs, r.isOver identifier turns = true →
      ∃ write, r.turned.bind (Turn.writeTo · identifier) = some write ∧
        write.over' = turns ∧ write.record.turns = turns + 1 := by
    intro r hr his
    simp only [Ruling.isOver, Option.any_eq_true, List.any_eq_true, decide_eq_true_eq] at his
    obtain ⟨turn, hturn, write, hmem, hid, hturns⟩ := his
    have honeOn := hone r hr turn (Ruling.turned_some hturn).1
    refine ⟨write, ?_, hturns, by rw [honeOn.turns write hmem, hturns]⟩
    rw [hturn, Option.bind_some, Turn.writeTo, List.find?_eq_some_iff_append]
    obtain ⟨front, back, hsplit⟩ := List.append_of_mem hmem
    refine ⟨by simpa using hid, front, back, hsplit, fun other hother => ?_⟩
    have hnodup := honeOn.once
    rw [hsplit, List.map_append, List.map_cons, List.nodup_append] at hnodup
    have hne := hnodup.2.2 other.record.identifier (List.mem_map_of_mem hother)
      write.record.identifier (by simp)
    simpa [hid] using hne
  induction h with
  | nil a => simp
  | @cons r rs a b c step rest ih =>
      have hrest := ih (fun s hs => hone s (by simp [hs])) fun s hs => hover s (by simp [hs])
      cases his : r.isOver identifier turns with
      | true =>
          obtain ⟨write, hwrite, hturns, hnext⟩ := hover r (by simp) his
          simp only [InstanceStep, hwrite] at step
          obtain ⟨hstood, rfl⟩ := step
          have hpast : turns < turnsIn (some write.record) := by simp [turnsIn, hnext]
          rw [List.countP_cons_of_pos his, hrest.2 hpast]
          refine ⟨le_rfl, fun hlt => ?_⟩
          omega
      | false =>
          rw [List.countP_cons_of_neg (by simp [his])]
          refine ⟨hrest.1, fun hlt => hrest.2 ?_⟩
          unfold InstanceStep at step
          cases hw : r.turned.bind (Turn.writeTo · identifier) with
          | none =>
              simp only [hw] at step
              rwa [step]
          | some write =>
              simp only [hw] at step
              obtain ⟨hstood, rfl⟩ := step
              obtain ⟨turn, hturn, hto⟩ := Option.bind_eq_some_iff.mp hw
              have hone' := (hone r (by simp) turn (Ruling.turned_some hturn).1).turns write
                (Turn.writeTo_mem hto).1
              simp only [turnsIn, Option.map_some, Option.getD_some]
              omega

/-- What the turns of a run come to: at most one is done over each turn of an Instance, and
nothing else moves what is stored of it; a key's owner moves from none to an Instance and back
to none; and a turn that was refused changed no record. Each operation finds of an Instance and of
a key what the one before it left, from nothing to what the store holds at the end. -/
structure TurnsInOrder (digest : Publication → Bytes) (steps : List Step) : Prop where
  once : ∀ identifier turns,
    (Writer.fresh.ruled digest steps).countP (Ruling.isOver identifier turns) ≤ 1
  found : ∀ p : Place, p.1 = .processInstance ∨ p.1 = .instanceKey →
    Follows p (.ok none) (Writer.fresh.ruled digest steps)
      ((Writer.fresh.run digest steps).store.get p)
  instances : ∀ identifier, ∀ r ∈ Writer.fresh.ruled digest steps,
    InstanceStep identifier r (r.before.instanceAt identifier) (r.stage.instanceAt identifier)
  owners : ∀ key, ∀ r ∈ Writer.fresh.ruled digest steps,
    OwnerStep key r (r.before.ownerOf key) (r.stage.ownerOf key)
  refused : ∀ r ∈ Writer.fresh.ruled digest steps, ∀ turn, r.op = .turn turn →
    r.done ≠ .yes true → r.stage = r.before.staged

theorem turns_in_order (steps : List Step) (hmade : ∀ s ∈ steps, s.Made)
    (hone : ∀ r ∈ Writer.fresh.ruled digest steps, ∀ turn ∈ r.op.turns, turn.OneOn) :
    TurnsInOrder digest steps := by
  have hproper : Writer.fresh.store.Proper := Store.empty_proper
  have hheld : ∀ r ∈ Writer.fresh.ruled digest steps, r.Holds digest :=
    Writer.ruled_hold hmade
  have hbefore : ∀ r ∈ Writer.fresh.ruled digest steps, r.before.Proper :=
    Writer.ruled_proper hmade hproper
  have honeOn : ∀ r ∈ Writer.fresh.ruled digest steps, ∀ turn, r.op = .turn turn →
      turn.OneOn := by
    intro r hr turn hop
    exact hone r hr turn (by simp [hop, Op.turns])
  have hfound : ∀ p : Place, p.1 = .processInstance ∨ p.1 = .instanceKey →
      Follows p (.ok none) (Writer.fresh.ruled digest steps)
        ((Writer.fresh.run digest steps).store.get p) := by
    intro p hp
    refine Writer.run_follows hmade hproper ?_
    rcases hp with hp | hp <;> simp [hp, Kind.ruled, Kind.plain, Searched.of]
  have hinstances : ∀ identifier, ∀ r ∈ Writer.fresh.ruled digest steps,
      InstanceStep identifier r (r.before.instanceAt identifier)
        (r.stage.instanceAt identifier) :=
    fun identifier r hr => (hheld r hr).instance_step (hbefore r hr) (honeOn r hr) identifier
  refine ⟨fun identifier turns => ?_, hfound, hinstances,
    fun key r hr => (hheld r hr).owner_step (hbefore r hr) (honeOn r hr) key,
    fun r hr turn hop hno => (hheld r hr).turn_refused (hbefore r hr) hop hno⟩
  have hmoved := (hfound (instancePlace identifier) (.inl rfl)).moved instanceIn
    (hinstances identifier)
  exact (hmoved.once honeOn turns).1

/-- A turn of Journey `journey`'s Message: Instance `identifier` started by key 50. -/
def firstArrival (journey token identifier : ℕ) : Turn where
  handOn := { claim := ⟨journey, "first", token, 0, 12884901889⟩, result := { journey } }
  instances := [⟨{ identifier, turns := 1 }, 0⟩]
  keys := [⟨50, identifier⟩]

/-- Two first arrivals of one key, each starting an Instance by it. -/
def firstArrivals : List Step :=
  let at' (now : ℤ) (op : Op) : Step := .group ⟨now, 3, .asWritten, none⟩ [op]
  [at' 0 (.claim ⟨1, "first", 7, 0, 0⟩ 10),
    at' 1 (.claim ⟨2, "first", 8, 0, 0⟩ 10),
    at' 2 (.turn (firstArrival 1 7 41)),
    at' 3 (.turn (firstArrival 2 8 42))]

theorem turns_in_order_first_arrivals : TurnsInOrder (fun _ => []) firstArrivals :=
  turns_in_order firstArrivals (by simp [firstArrivals, Step.Made, Op.Made]) (by decide)

/-! ## A turn asked again -/

namespace Turn

/-- A turn that finds nothing left to do when it is asked again: it names no Instance and sets
no key, no key it lets go of belongs to the Instance it names, and its claim was not kept, or
was handed on since. -/
structure Settled (turn : Turn) (b : Batch) : Prop where
  instances : turn.instances = []
  keys : turn.keys = []
  unkeyed : ∀ gone ∈ turn.unkeyed, b.ownerOf gone.key ≠ some gone.identifier
  claim : turn.handOn.keptForNanos = none ∨
    ∃ stored, b.claimOn turn.handOn.claim.journey = some stored ∧
      stored.standing = .handedOn ∧ stored.claim.is turn.handOn.claim

variable {b b' : Batch}

theorem puts_length {β : Type} {kind : β → Kind} {key : β → Key} {value : β → Option Content}
    {xs : List β}
    (h : (xs.forM fun x => put (kind x) (key x) (value x) : Deciding PUnit).run b =
      .ok ((), b')) : b'.changes.length = b.changes.length + xs.length := by
  induction xs generalizing b with
  | nil =>
      obtain rfl : b = b' := by cases h; rfl
      rfl
  | cons x xs ih =>
      have hrest := ih (put_bind_ok.mp h)
      simp only [Batch.put_changes, List.length_append, List.length_cons,
        List.length_nil] at hrest ⊢
      omega

theorem unkeyed_length {unkeyed : List InstanceKey} (hb : b.Proper)
    (h : (unkeyed.forM fun gone => do
      let owner ← owner gone.key
      if owner = some gone.identifier then put .instanceKey (.id gone.key) none
      else pure () : Deciding PUnit).run b = .ok ((), b')) :
    b.changes.length ≤ b'.changes.length ∧ (b'.changes.length = b.changes.length →
      b' = b ∧ ∀ gone ∈ unkeyed, b.ownerOf gone.key ≠ some gone.identifier) := by
  induction unkeyed generalizing b with
  | nil =>
      obtain rfl : b = b' := by cases h; rfl
      simp
  | cons gone unkeyed ih =>
      obtain ⟨_, b₁, hfirst, hrest⟩ := Decision.bind_ok_iff.mp h
      rcases gone_ok hb hfirst with ⟨howner, rfl⟩ | ⟨howner, rfl⟩
      · have hadds : Adds [.instanceKey] b (b.put .instanceKey (.id gone.key) none) :=
          ⟨rfl, le_rfl, fun _ => rfl, [_], rfl, by simp [Change.Proper, Kind.passes]⟩
        have hlater := (ih (hadds.proper hb) hrest).1
        simp only [Batch.put_changes, List.length_append, List.length_singleton] at hlater
        exact ⟨by omega, fun hsame => by omega⟩
      · have hlater := ih hb hrest
        refine ⟨hlater.1, fun hsame => ⟨(hlater.2 hsame).1, fun other hother => ?_⟩⟩
        rcases List.mem_cons.mp hother with rfl | hother
        · exact howner
        · exact (hlater.2 hsame).2 other hother

/-- A turn's own writes come to nothing exactly where it names no Instance, sets no key and lets
go of none that belongs to the Instance it names. -/
theorem write_length {writes : List InstanceWrite} {keys unkeyed : List InstanceKey}
    (hb : b.Proper) (h : (write writes keys unkeyed).run b = .ok ((), b')) :
    b.changes.length ≤ b'.changes.length ∧ (b'.changes.length = b.changes.length →
      b' = b ∧ writes = [] ∧ keys = [] ∧
        ∀ gone ∈ unkeyed, b.ownerOf gone.key ≠ some gone.identifier) := by
  obtain ⟨_, b₁, hwrites, hrest⟩ := Decision.bind_ok_iff.mp h
  obtain ⟨_, b₂, hkeys, hgone⟩ := Decision.bind_ok_iff.mp hrest
  have hproper₁ := (instances_writes writes b _ b₁ hwrites).proper hb
  have hproper₂ := (keys_writes keys b₁ _ b₂ hkeys).proper hproper₁
  have hlength₁ := puts_length hwrites
  have hlength₂ := puts_length hkeys
  have hlength₃ := unkeyed_length hproper₂ hgone
  refine ⟨by omega, fun hsame => ?_⟩
  obtain rfl : writes = [] := List.length_eq_zero_iff.mp (by omega)
  obtain rfl : keys = [] := List.length_eq_zero_iff.mp (by omega)
  cases hwrites
  cases hkeys
  obtain ⟨rfl, hnone⟩ := hlength₃.2 hsame
  exact ⟨rfl, rfl, rfl, hnone⟩

theorem unkeyed_run {unkeyed : List InstanceKey} (hb : b.Proper)
    (h : ∀ gone ∈ unkeyed, b.ownerOf gone.key ≠ some gone.identifier) :
    (write [] [] unkeyed).run b = .ok ((), b) := by
  have hgone : (unkeyed.forM fun gone => do
      let owner ← owner gone.key
      if owner = some gone.identifier then put .instanceKey (.id gone.key) none
      else pure () : Deciding PUnit).run b = .ok ((), b) := by
    induction unkeyed with
    | nil => rfl
    | cons gone unkeyed ih =>
        have hfirst : (do
            let owner ← owner gone.key
            if owner = some gone.identifier then put .instanceKey (.id gone.key) none
            else pure () : Deciding Unit).run b = .ok ((), b) := by
          rw [Decision.run_bind_ok (hb.owner_run gone.key), if_neg (h gone (by simp))]
          rfl
        exact (Decision.run_bind_ok hfirst).trans
          (ih fun other hother => h other (by simp [hother]))
  exact hgone

/-- A turn asked again is answered `true` and leaves its stage as it was exactly where it finds
nothing left to do and its claim was handed on. -/
theorem decide_again {turn : Turn} {now : ℤ} (hb : b.Proper) :
    (turn.decide now).run b = .ok (true, b) ↔
      turn.instances = [] ∧ turn.keys = [] ∧
        (∀ gone ∈ turn.unkeyed, b.ownerOf gone.key ≠ some gone.identifier) ∧
        ∃ stored, b.claimOn turn.handOn.claim.journey = some stored ∧
          stored.standing = .handedOn ∧ stored.claim.is turn.handOn.claim := by
  constructor
  · intro h
    obtain ⟨-, b₁, hhand, hwrite⟩ := decide_done hb h
    have hproper₁ := (HandOn.decide_writes turn.handOn now b _ b₁ hhand).proper hb
    have hlength := write_length hproper₁ hwrite
    rcases HandOn.decide_ok hb hhand with ⟨rfl, hended⟩ | ⟨stored, b₀, -, -, -, -, hw, hcloses⟩
    · obtain ⟨-, hinstances, hkeys, hunkeyed⟩ := hlength.2 rfl
      exact ⟨hinstances, hkeys, hunkeyed, hended rfl⟩
    · -- A hand-on that is done anew ends its claim, so the stage is not as it was.
      exfalso
      obtain ⟨added, he, -⟩ := (HandOn.writes_writes turn.handOn now b _ b₀ hw).changes
      obtain ⟨after, hrun, -⟩ := HandOn.closes_run turn.handOn stored.claim now b₀
      rw [hrun] at hcloses
      cases hcloses
      have hle := hlength.1
      simp only [Batch.put_changes, he, List.length_append, List.length_singleton] at hle
      omega
  · rintro ⟨hinstances, hkeys, hunkeyed, stored, hs, hended, his⟩
    obtain ⟨yes, hcurrent, hiff⟩ := current_run hb turn
    have hyes : yes = true := hiff.mpr ⟨by simp [hinstances], by simp [hkeys]⟩
    have hhand := HandOn.decide_of_handedOn hb hs hended his now
    have hwrite := unkeyed_run hb hunkeyed
    unfold decide
    rw [Decision.run_bind_ok hcurrent, if_pos hyes, Decision.run_bind_ok hhand, if_pos rfl,
      hinstances, hkeys, Decision.run_bind_ok hwrite]
    rfl

end Turn

/-- A turn asked again after it was done, whatever was done in between as long as nothing took
its Journey's claim, is `true` and writes nothing exactly where it finds nothing left to do. -/
theorem turn_again {steps : List Step} (hmade : ∀ s ∈ steps, s.Made) {m : Moment}
    {pre : List Op} (hpre : ∀ op ∈ pre, op.Made) {turn : Turn} {before after : List Ruling}
    {r : Ruling} (hrun : Writer.fresh.heard digest steps m pre = before ++ r :: after)
    (hdone : r.turned = some turn)
    (hfree : ∀ e ∈ claimHistory turn.handOn.claim.journey after, takes (e.1.act e.2) = false) :
    let b := (Writer.fresh.run digest steps).deciding digest m pre
    (Still digest m b (.turn turn) (.ok (.yes true)) ∧ ∀ post,
      Inert digest (Writer.fresh.run digest steps) m pre (.turn turn) (.ok (.yes true)) post) ↔
      turn.Settled b := by
  intro b
  have hproper : Writer.fresh.store.Proper := Store.empty_proper
  have hheard : ∀ r ∈ Writer.fresh.heard digest steps m pre, r.Holds digest :=
    Writer.heard_hold hmade hpre
  have hheard' : ∀ r ∈ Writer.fresh.heard digest steps m pre, r.before.Proper :=
    Writer.heard_proper hmade hpre hproper
  have hruled : (claimPlace turn.handOn.claim.journey).1.ruled := by
    simp [claimPlace, Kind.ruled, Kind.plain, Searched.of]
  have hfollows : Follows (claimPlace turn.handOn.claim.journey) _
      (Writer.fresh.heard digest steps m pre) _ :=
    Writer.heard_follows hmade hpre hproper hruled
  rw [hrun] at hheard hheard' hfollows
  obtain ⟨-, hafter⟩ := hfollows.split
  have hb : b.staged.Proper := Writer.deciding_proper hmade hpre hproper
  have hstill : Still digest m b (.turn turn) (.ok (.yes true)) ↔
      (turn.decide m.now).run b.staged = .ok (true, b.staged) := by
    change ((turn.decide m.now) >>= fun yes => pure (Done.yes yes)).run b.staged = _ ↔ _
    rw [Decision.bind_ok_iff]
    constructor
    · rintro ⟨yes, b', hdecide, hlast⟩
      cases hlast
      exact hdecide
    · exact fun hdecide => ⟨true, b.staged, hdecide, rfl⟩
  have hagain := hstill.trans (Turn.decide_again hb)
  constructor
  · rintro ⟨hs, -⟩
    obtain ⟨hinstances, hkeys, hunkeyed, hclaim⟩ := hagain.mp hs
    exact ⟨hinstances, hkeys, hunkeyed, .inr hclaim⟩
  · intro hsettled
    -- A turn that kept no claim left it handed on, and nothing since then moved it.
    have hclaim : ∃ stored, b.claimOn turn.handOn.claim.journey = some stored ∧
        stored.standing = .handedOn ∧ stored.claim.is turn.handOn.claim := by
      rcases hsettled.claim with hkept | hclaim
      · have hr : r.Holds digest := hheard r (by simp)
        have hbefore : r.before.staged.Proper := hheard' r (by simp)
        obtain ⟨-, b₁, hhand, hwrite⟩ := Turn.decide_done hbefore (hr.turn_ran hdone)
        obtain ⟨stored, hs, hended, his⟩ := HandOn.done_handedOn hbefore hhand hkept
        have hleft : r.stage.claimOn turn.handOn.claim.journey = some stored := by
          rw [(Turn.write_writes _ _ _ b₁ _ _ hwrite).claimOn (by decide), hs]
        have hclaimed := hafter.claimed fun s hs =>
          ⟨hheard s (by simp [hs]), hheard' s (by simp [hs])⟩
        have hsame := hclaimed.ended hleft (by simp [hended]) hfree
        exact ⟨stored, hsame.trans hleft, hended, his⟩
      · exact hclaim
    have hs := hagain.mpr ⟨hsettled.instances, hsettled.keys, hsettled.unkeyed, hclaim⟩
    exact ⟨hs, fun post => inert_of_still post hs⟩

/-- A turn of Journey 1's Message that starts no Instance and sets `keys` and lets go of
`unkeyed`. -/
def correlating (journey token : ℕ) (keys unkeyed : List InstanceKey) : Turn where
  handOn := { claim := ⟨journey, "first", token, 0, 12884901889⟩, result := { journey } }
  keys := keys
  unkeyed := unkeyed

/-- Two Journeys claimed, and a turn of the first's Message done. -/
def turnThen (turn : Turn) (rest : List Op) : List Step :=
  let at' (now : ℤ) (op : Op) : Step := .group ⟨now, 3, .asWritten, none⟩ [op]
  [at' 0 (.claim ⟨1, "first", 7, 0, 0⟩ 10),
    at' 1 (.claim ⟨2, "first", 8, 0, 0⟩ 10),
    at' 2 (.turn turn),
    .group ⟨3, 3, .asWritten, none⟩ rest]

/-- A turn of the second's Message sets key 50 for Instance 41, and one of the first's lets it
go. -/
def setThenLetGo : List Step :=
  turnThen (correlating 2 8 [⟨50, 41⟩] []) [.turn (correlating 1 7 [] [⟨50, 41⟩])]

/-- The key it let go of is nobody's when that turn is asked again. -/
theorem turn_again_settled :
    let b := (Writer.fresh.run (fun _ => []) setThenLetGo).deciding (fun _ => [])
      ⟨4, 3, .asWritten, none⟩ []
    (correlating 1 7 [] [⟨50, 41⟩]).Settled b ∧
      ((Still (fun _ => []) ⟨4, 3, .asWritten, none⟩ b (.turn (correlating 1 7 [] [⟨50, 41⟩]))
          (.ok (.yes true)) ∧ ∀ post,
        Inert (fun _ => []) (Writer.fresh.run (fun _ => []) setThenLetGo)
          ⟨4, 3, .asWritten, none⟩ [] (.turn (correlating 1 7 [] [⟨50, 41⟩]))
          (.ok (.yes true)) post) ↔
        (correlating 1 7 [] [⟨50, 41⟩]).Settled b) :=
  let heard := Writer.fresh.heard (fun _ => []) setThenLetGo ⟨4, 3, .asWritten, none⟩ []
  ⟨⟨rfl, rfl, by decide, .inl rfl⟩,
    turn_again (by simp [setThenLetGo, turnThen, Step.Made, Op.Made]) (by simp)
      ((List.take_append_drop 3 heard).symm.trans
        (congrArg _ (List.drop_eq_getElem_cons (by decide))))
      (by decide) (by decide)⟩

/-- A turn that names an Instance is refused when it is asked again, and one that names none
sets its key again after another turn let it go. -/
theorem turn_again_not_settled :
    let started := firstArrival 1 7 41
    let keyed := correlating 1 7 [⟨50, 41⟩] []
    let w := Writer.fresh.run (fun _ => []) (turnThen started [])
    let w' := Writer.fresh.run (fun _ => [])
      (turnThen keyed [.turn (correlating 2 8 [] [⟨50, 41⟩])])
    let m : Moment := ⟨4, 3, .asWritten, none⟩
    ((Writer.fresh.ruled (fun _ => []) (turnThen started [])).map Ruling.done)[2]? =
        some (.yes true) ∧
      (w.committed (fun _ => []) m [.turn started]).answers = [.ok (.yes false)] ∧
      ((Writer.fresh.ruled (fun _ => [])
          (turnThen keyed [.turn (correlating 2 8 [] [⟨50, 41⟩])])).map Ruling.done) =
        [.claim (some ⟨1, "first", 7, 10, 12884901889⟩),
          .claim (some ⟨2, "first", 8, 11, 12884901889⟩), .yes true, .yes true] ∧
      w'.store.records (keyPlace 50) = none ∧
      (w'.committed (fun _ => []) m [.turn keyed]).writer.store.records (keyPlace 50) =
        some (.instanceKey ⟨50, 41⟩) ∧
      ¬Still (fun _ => []) m (w.deciding (fun _ => []) m []) (.turn started)
        (.ok (.yes true)) := by
  intro started keyed w w' m
  refine ⟨by decide, by decide, by decide, by decide, by decide, ?_⟩
  intro h
  have hdone : ((Op.decide (fun _ => []) m (.turn started)).run
      (w.deciding (fun _ => []) m []).staged).map Prod.fst = .ok (.yes true) :=
    congrArg (Except.map Prod.fst) h
  revert hdone
  decide

end XmipPersist
