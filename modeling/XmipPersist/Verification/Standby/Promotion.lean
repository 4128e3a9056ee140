import XmipPersist.Model.Cluster
import XmipPersist.Verification.Standby.Epoch
import XmipPersist.Verification.Standby.Steps

/-! # What a promotion's epoch is later than

An epoch is later than that of every promotion known where it was decided: to the Storage node
promoted, to the primaries it met and to those that answered it. Nothing else tells epochs
apart, so two Storage nodes parted from each other are promoted in the same one.
-/

namespace XmipPersist.Standby

open StorageNode

variable {κ ν : Type} [LinearOrder κ] {bounds : Bounds κ ν}

/-! ## Epochs and roles over steps -/

/-- Whether a step takes up a role. -/
def Effect.holds : Effect κ ν → Bool
  | .hold _ _ => true
  | _ => false

/-- The epoch a frame says its primary is in. -/
def Shipped.said : Shipped κ ν → Option ℕ
  | .beat epoch => some epoch
  | .whole _ epoch _ => some epoch
  | _ => none

namespace StorageNode

theorem epoch_le_perform (node : StorageNode κ ν) (effect : Effect κ ν) :
    node.epoch ≤ (node.perform bounds effect).epoch := by
  cases effect with
  | hold role epoch => exact le_max_left _ _
  | hear epoch => exact le_max_left _ _
  | _ => exact le_rfl

variable (bounds) in
theorem epoch_le_performAll (node : StorageNode κ ν) (effects : List (Effect κ ν)) :
    node.epoch ≤ (node.performAll bounds effects).epoch := by
  induction effects generalizing node with
  | nil => exact le_rfl
  | cons effect effects ih => exact (epoch_le_perform node effect).trans (ih _)

theorem performAll_role (node : StorageNode κ ν) {effects : List (Effect κ ν)}
    (h : ∀ x ∈ effects, x.holds = false) :
    (node.performAll bounds effects).role = node.role := by
  induction effects generalizing node with
  | nil => rfl
  | cons effect effects ih =>
      have hrest := ih (node.perform bounds effect) fun x hx => h x (by simp [hx])
      have hhead := h effect (by simp)
      rw [performAll_cons, hrest]
      cases effect with
      | hold role epoch => cases hhead
      | _ => rfl

theorem performAll_epoch (node : StorageNode κ ν) {effects : List (Effect κ ν)}
    (h : ∀ x ∈ effects, x.plain = true) :
    (node.performAll bounds effects).epoch = node.epoch := by
  induction effects generalizing node with
  | nil => rfl
  | cons effect effects ih =>
      have hrest := ih (node.perform bounds effect) fun x hx => h x (by simp [hx])
      have hhead := h effect (by simp)
      rw [performAll_cons, hrest]
      cases effect with
      | hold role epoch => cases hhead
      | hear epoch => cases hhead
      | _ => rfl

theorem takeUp_epoch (node other : StorageNode κ ν) (role : Role) (epoch : ℕ) :
    (node.performAll bounds (other.takeUp role epoch)).epoch = max node.epoch epoch := by
  simp only [takeUp]
  split <;> rfl

theorem takeUp_role (node other : StorageNode κ ν) (role : Role) (epoch : ℕ) :
    (node.performAll bounds (other.takeUp role epoch)).role = role := by
  simp only [takeUp]
  split <;> rfl

variable (bounds) in
theorem heard_epoch (node other : StorageNode κ ν) (epoch : ℕ) :
    (node.performAll bounds (other.heard epoch)).epoch = max node.epoch epoch := by
  simp only [heard]
  split <;> rfl

theorem heard_holds (node : StorageNode κ ν) (epoch : ℕ) :
    ∀ x ∈ node.heard epoch, x.holds = false := by
  intro x hx
  simp only [heard, List.mem_cons] at hx
  rcases hx with rfl | hx
  · rfl
  · split at hx
    · obtain rfl := List.mem_singleton.mp hx
      rfl
    · cases hx

/-- A frame takes up no role. -/
theorem taking_holds (node : StorageNode κ ν) (whole : Option Whole) (frame : Shipped κ ν) :
    ∀ x ∈ (node.taking whole frame).1, x.holds = false := by
  cases frame with
  | beat epoch => exact heard_holds node epoch
  | entries d page => simp [taking, Effect.holds]
  | declined reason => simp [taking]
  | copy d number changes =>
      simp only [taking]
      split
      · intro x hx
        rcases List.mem_cons.mp hx with rfl | hx
        · rfl
        · exact heard_holds node 0 x hx
      · simp
  | whole history epoch keys =>
      simp only [taking]
      split
      · intro x hx
        rcases List.mem_append.mp hx with hx | hx
        · rcases List.mem_cons.mp hx with rfl | hx
          · rfl
          · obtain rfl := List.mem_singleton.mp hx
            rfl
        · rcases List.mem_append.mp hx with hx | hx
          · obtain ⟨d, _, hx⟩ := List.mem_flatMap.mp hx
            rcases List.mem_cons.mp hx with rfl | hx
            · rfl
            · obtain rfl := List.mem_singleton.mp hx
              rfl
          · exact heard_holds node epoch x hx
      · simp [Effect.holds]
  | copied d next =>
      simp only [taking]
      split
      · simp
      · split
        · simp [copiedWhole, Effect.holds]
        · simp

/-- A frame that says an epoch leaves none lower. -/
theorem taking_said (node : StorageNode κ ν) (whole : Option Whole) {frame : Shipped κ ν}
    {epoch : ℕ} (hsaid : frame.said = some epoch) {w : Option Whole}
    (hok : (node.taking whole frame).2 = .ok w) :
    epoch ≤ (node.performAll bounds (node.taking whole frame).1).epoch := by
  cases frame with
  | beat epoch' =>
      obtain rfl := Option.some.inj hsaid
      have hheard := heard_epoch bounds node node epoch'
      exact (le_max_right _ _).trans hheard.ge
  | whole history epoch' keys =>
      obtain rfl := Option.some.inj hsaid
      simp only [taking] at hok ⊢
      split
      · next k₀ k₁ k₂ =>
          rw [performAll_append, performAll_append, heard_epoch]
          exact le_max_right _ _
      · next hkeys =>
          split at hok
          · next k₀ k₁ k₂ => exact absurd rfl (hkeys k₀ k₁ k₂)
          · cases hok
  | entries d page => cases hsaid
  | declined reason => cases hsaid
  | copy d number changes => cases hsaid
  | copied d next => cases hsaid

theorem opening_holds (node : StorageNode κ ν) (fresh : ℕ) (keys : Database → ℕ)
    (upgrades : List (Database × List (Change κ ν))) :
    ∀ x ∈ node.opening fresh keys upgrades, x.holds = false := by
  intro x hx
  have hplain := opening_plain node fresh keys upgrades x hx
  cases x with
  | hold role epoch => cases hplain
  | _ => rfl

end StorageNode

/-- None of those that answered is in a later epoch than the latest. -/
theorem Answered.le_latest {answered : List Answered} {a : Answered} (h : a ∈ answered) :
    a.standing.epoch ≤ Answered.latest answered := by
  have hfold : ∀ (xs : List Answered) (epoch : ℕ),
      epoch ≤ xs.foldl (fun epoch a => max epoch a.standing.epoch) epoch ∧
        ∀ a ∈ xs, a.standing.epoch ≤
          xs.foldl (fun epoch a => max epoch a.standing.epoch) epoch := by
    intro xs
    induction xs with
    | nil => exact fun epoch => ⟨le_rfl, by simp⟩
    | cons x xs ih =>
        intro epoch
        have ⟨hle, hall⟩ := ih (max epoch x.standing.epoch)
        refine ⟨(le_max_left _ _).trans hle, fun a ha => ?_⟩
        rcases List.mem_cons.mp ha with rfl | ha
        · exact (le_max_right _ _).trans hle
        · exact hall a ha
  exact (hfold answered 0).2 a h

/-- A Storage node is promoted in the epoch after the latest it holds or was answered. -/
theorem StorageNode.finds_promote {node : StorageNode κ ν} {answered : List Answered}
    {silent : Bool} {epoch : ℕ} (h : node.finds answered silent = .promote epoch) :
    epoch = max (Answered.latest answered) node.epoch + 1 := by
  simp only [finds] at h
  split at h
  · cases h
  · split at h
    · exact (Found.promote.inj h).symm
    · cases h

/-! ## What a primary's frames say -/

/-- The frames a step of the shipping sends say no epoch but its own, which it keeps. -/
theorem ships_said {primary : StorageNode κ ν} {shipping shipping' : Shipping κ} {idle : Bool}
    {sent : List (Shipped κ ν)}
    (h : primary.ships bounds shipping idle = .ok (shipping', sent)) :
    shipping'.epoch = shipping.epoch ∧
      ∀ frame ∈ sent, ∀ epoch, frame.said = some epoch → epoch = shipping.epoch := by
  obtain ⟨epoch, phase, next⟩ := shipping
  cases phase with
  | begins d =>
      obtain ⟨rfl, rfl⟩ := Prod.mk.inj (Except.ok.inj h)
      exact ⟨rfl, fun _ h => by cases h⟩
  | scans d passed =>
      simp only [ships] at h
      split at h <;>
        · obtain ⟨rfl, rfl⟩ := Prod.mk.inj (Except.ok.inj h)
          refine ⟨rfl, fun frame hframe e he => ?_⟩
          obtain rfl := List.mem_singleton.mp hframe
          cases he
  | turns =>
      simp only [ships] at h
      split at h
      · cases h
      · obtain ⟨rfl, rfl⟩ := Prod.mk.inj (Except.ok.inj h)
        exact ⟨rfl, fun _ h => by cases h⟩
  | hands d handed =>
      simp only [ships] at h
      split at h
      · cases h
      · obtain ⟨rfl, rfl⟩ := Prod.mk.inj (Except.ok.inj h)
        refine ⟨rfl, fun frame hframe e he => ?_⟩
        rcases List.mem_append.mp hframe with hframe | hframe
        · obtain ⟨copy, _, rfl⟩ := List.mem_map.mp hframe
          cases he
        · split at hframe
          · obtain rfl := List.mem_singleton.mp hframe
            exact (Option.some.inj he).symm
          · cases hframe

/-- A primary that takes up a request says the epoch it holds. -/
theorem accepts_said {primary : StorageNode κ ν} {asked : Follow} {shipping : Shipping κ}
    {sent : List (Shipped κ ν)} (h : primary.accepts asked = .ok (shipping, sent)) :
    shipping.epoch = primary.epoch ∧
      ∀ frame ∈ sent, ∀ epoch, frame.said = some epoch → epoch = primary.epoch := by
  simp only [accepts] at h
  split at h
  · cases h
  · split at h
    · cases h
    · split at h
      · obtain ⟨rfl, rfl⟩ := Prod.mk.inj (Except.ok.inj h)
        exact ⟨rfl, fun _ h => by cases h⟩
      · split at h
        · obtain ⟨rfl, rfl⟩ := Prod.mk.inj (Except.ok.inj h)
          refine ⟨rfl, fun frame hframe e he => ?_⟩
          obtain rfl := List.mem_singleton.mp hframe
          exact (Option.some.inj he).symm
        · cases h

/-- Promotions in epochs no later than any that a connection says. -/
def Connection.Says (c : Connection κ ν) (known : List Promotion) : Prop :=
  ∀ p ∈ known, (∀ sent ∈ c.frames, ∀ epoch, sent.frame.said = some epoch → p.epoch ≤ epoch) ∧
    ∀ s, c.shipping = some s → p.epoch ≤ s.epoch

theorem Connection.Says.opened {primary : StorageNode κ ν} {known : List Promotion}
    (h : ∀ p ∈ known, p.epoch ≤ primary.epoch) (asked : Follow) :
    (Connection.opened primary asked).Says known := by
  intro p hp
  have hle := h p hp
  simp only [Connection.opened]
  split
  · next shipping frames hok =>
      have ⟨hepoch, hsaid⟩ := accepts_said hok
      constructor
      · intro sent hsent epoch he
        obtain ⟨frame, hframe, rfl⟩ := List.mem_map.mp hsent
        rw [hsaid frame hframe epoch he]
        exact hle
      · intro s hs
        obtain rfl := Option.some.inj hs
        rw [hepoch]
        exact hle
  · constructor
    · intro sent hsent epoch he
      obtain rfl := List.mem_singleton.mp hsent
      cases he
    · intro s hs
      cases hs

variable (bounds) in
theorem Connection.Says.ship {c : Connection κ ν} {known : List Promotion} (h : c.Says known)
    (primary : StorageNode κ ν) (idle : Bool) : (c.ship bounds primary idle).Says known := by
  intro p hp
  have ⟨hframes, hshipping⟩ := h p hp
  simp only [Connection.ship]
  split
  · exact h p hp
  · next shipping hsome =>
      split
      · next next' sent hok =>
          have ⟨hepoch, hsaid⟩ := ships_said hok
          have hle := hshipping shipping hsome
          constructor
          · intro s hs epoch he
            rcases List.mem_append.mp hs with hs | hs
            · exact hframes s hs epoch he
            · obtain ⟨frame, hframe, rfl⟩ := List.mem_map.mp hs
              rw [hsaid frame hframe epoch he]
              exact hle
          · intro s hs
            obtain rfl := Option.some.inj hs
            rw [hepoch]
            exact hle
      · constructor
        · intro s hs epoch he
          rcases List.mem_append.mp hs with hs | hs
          · exact hframes s hs epoch he
          · obtain rfl := List.mem_singleton.mp hs
            cases he
        · intro s hs
          cases hs

/-! ## What every run keeps -/

/-- A Storage node that knows of no promotion later than the epoch it holds, was told of none
later than what told it, follows none while it is the primary, and knows of the promotion that
made it one. -/
structure Member.Sound (m : Member κ ν) (promotions : List (Promotion × List Promotion))
    (place : ℕ) : Prop where
  known : ∀ p ∈ m.known, p.epoch ≤ m.node.epoch
  told : ∀ t ∈ m.told, ∀ p ∈ t.known, p.epoch ≤ t.answered.standing.epoch
  following : ∀ f, m.following = some f → m.node.role ≠ .primary ∧
    ∀ c, f.connection = some c → c.Says f.known
  primary : m.node.role = .primary → ⟨place, m.node.epoch⟩ ∈ m.known ∧
    ∃ known, (⟨place, m.node.epoch⟩, known) ∈ promotions

namespace Member

variable {m : Member κ ν} {promotions : List (Promotion × List Promotion)} {place : ℕ}

theorem Sound.mono (h : m.Sound promotions place) {promotions' : List (Promotion × List Promotion)}
    (hsub : promotions ⊆ promotions') : m.Sound promotions' place where
  known := h.known
  told := h.told
  following := h.following
  primary hp := by
    have ⟨hknown, known, hmem⟩ := h.primary hp
    exact ⟨hknown, known, hsub hmem⟩

theorem Sound.unshipped (h : m.Sound promotions place) (gone : ℕ) :
    (m.unshipped gone).Sound promotions place where
  known := h.known
  told := h.told
  following f hf := by
    obtain ⟨f₀, hf₀, rfl⟩ := Option.map_eq_some_iff.mp hf
    have ⟨hrole, hsent⟩ := h.following f₀ hf₀
    refine ⟨hrole, fun c hc => ?_⟩
    by_cases hgone : f₀.primary = gone
    · simp only [hgone, if_true] at hc ⊢
      obtain ⟨c₀, hc₀, rfl⟩ := Option.map_eq_some_iff.mp hc
      intro p hp
      exact ⟨(hsent c₀ hc₀ p hp).1, fun s hs => by cases hs⟩
    · simp only [hgone, if_false] at hc ⊢
      exact hsent c hc
  primary := h.primary

/-- Started again, it knows of the promotions of the epochs it kept. -/
theorem Sound.start (process : ℕ) : (m.start process).Sound promotions place where
  known p hp := of_decide_eq_true (List.mem_filter.mp hp).2
  told t ht := by cases ht
  following f hf := by cases hf
  primary hp := by cases hp

/-- A round settled with the node left as `node`. -/
theorem Sound.settled (h : m.Sound promotions place) (hnone : m.following = none)
    {node : StorageNode κ ν} (hepoch : m.node.epoch ≤ node.epoch)
    (hprimary : node.role = .primary → m.node.role = .primary ∧ node.epoch = m.node.epoch) :
    (m.settled node).Sound promotions place where
  known p hp := (h.known p hp).trans hepoch
  told t ht := by cases ht
  following f hf := by
    have hsome : m.following = some f := hf
    rw [hnone] at hsome
    cases hsome
  primary hp := by
    have ⟨hrole, heq⟩ := hprimary hp
    have hbefore := h.primary hrole
    rw [← heq] at hbefore
    exact hbefore

/-- Its following ended, with the node left as `node` meanwhile. -/
theorem Sound.unfollowed (h : m.Sound promotions place) {node : StorageNode κ ν}
    (hepoch : m.node.epoch ≤ node.epoch) (hrole : node.role ≠ .primary) :
    (m.unfollowed bounds node).Sound promotions place := by
  simp only [Member.unfollowed]
  refine ⟨fun p hp => ?_, h.told, fun f hf => (by cases hf), fun hp => ?_⟩
  · have hle := (h.known p hp).trans hepoch
    dsimp only
    split
    · exact hle
    · exact hle.trans (epoch_le_performAll bounds _ _)
  · dsimp only at hp
    split at hp
    · exact absurd hp hrole
    · rw [takeUp_role] at hp
      cases hp

theorem Sound.take (h : m.Sound promotions place) {f : Followed κ ν} {c : Connection κ ν}
    (hf : m.following = some f) (hc : f.connection = some c) (fails : Option ℕ) :
    (m.take bounds f c fails).Sound promotions place := by
  obtain ⟨hrole, hsent⟩ := h.following f hf
  have hsent := hsent c hc
  simp only [Member.take]
  split
  · exact h
  · next sent frames steps hframes =>
      have hholds := taking_holds m.node c.whole sent.frame
      refine h.unfollowed (epoch_le_performAll bounds _ _) ?_
      rw [performAll_role _ fun x hx => hholds x (List.mem_of_mem_take hx)]
      exact hrole
  · next sent frames hframes =>
      have hholds := taking_holds m.node c.whole sent.frame
      have hrole' : (m.node.performAll bounds (m.node.taking c.whole sent.frame).1).role ≠
          .primary := by
        rw [performAll_role _ hholds]
        exact hrole
      have hepoch := epoch_le_performAll bounds m.node
        (m.node.taking c.whole sent.frame).1
      cases hok : (m.node.taking c.whole sent.frame).2 with
      | error stopped =>
          simp only [Receiver.take, hok]
          exact h.unfollowed hepoch hrole'
      | ok whole =>
          simp only [Receiver.take, hok, if_true]
          refine ⟨fun p hp => ?_, h.told, fun f' hf' => ?_, fun hp => absurd hp hrole'⟩
          · dsimp only at hp ⊢
            split at hp
            · next hsaid =>
                rcases List.mem_append.mp hp with hp | hp
                · obtain ⟨epoch, he⟩ : ∃ epoch, sent.frame.said = some epoch := by
                    cases hframe : sent.frame <;>
                      simp_all [saysEpoch, Shipped.said]
                  have hle := (hsent p hp).1 sent (by simp [hframes]) epoch he
                  exact hle.trans (taking_said m.node c.whole he hok)
                · exact (h.known p hp).trans hepoch
            · exact (h.known p hp).trans hepoch
          · obtain rfl := Option.some.inj hf'
            refine ⟨hrole', fun c' hc' => ?_⟩
            obtain rfl := Option.some.inj hc'
            intro p hp
            obtain ⟨hbefore, hshipping⟩ := hsent p hp
            exact ⟨fun s hs => hbefore s (by simp [hframes, hs]), hshipping⟩

/-- What a round told a node promoted in an epoch later than any of it. -/
theorem Sound.informed (h : m.Sound promotions place) :
    ∀ p ∈ m.informed,
      p.epoch < max (Answered.latest (m.told.map Told.answered)) m.node.epoch + 1 := by
  intro p hp
  rcases List.mem_append.mp hp with hp | hp
  · obtain ⟨t, ht, hp⟩ := List.mem_flatMap.mp hp
    have hle := h.told t ht p hp
    have hmem : t.answered ∈ m.told.map Told.answered := List.mem_map_of_mem ht
    have hlatest := Answered.le_latest hmem
    omega
  · have hle := h.known p hp
    omega

end Member

namespace Cluster

/-- Every Storage node sound, and each promotion in an epoch later than those of the promotions
known where it was decided. -/
structure Sound (c : Cluster κ ν) : Prop where
  member : ∀ place, (c.members place).Sound c.promotions place
  later : ∀ x ∈ c.promotions, ∀ p ∈ x.2, p.epoch < x.1.epoch

variable {c : Cluster κ ν}

theorem Sound.set (h : c.Sound) {place : ℕ} {m : Member κ ν}
    (hm : m.Sound c.promotions place) : (c.set place m).Sound where
  member i := by
    simp only [Cluster.set, Function.update]
    split
    · next heq =>
        subst heq
        exact hm
    · exact h.member i
  later := h.later

theorem Sound.told (h : c.Sound) (place : ℕ) {t : Told} (ht : c.told place = some t) :
    ∀ p ∈ t.known, p.epoch ≤ t.answered.standing.epoch := by
  simp only [Cluster.told] at ht
  split at ht
  · obtain rfl := Option.some.inj ht
    exact (h.member place).known
  · cases ht

theorem Sound.follow (h : c.Sound) (place : ℕ) (primary : Answered) {node : StorageNode κ ν}
    (hepoch : node.epoch = max (c.members place).node.epoch primary.standing.epoch)
    (hrole : node.role ≠ .primary) :
    Member.Sound { (c.members place).settled node with
      following := some ⟨primary.place, none, []⟩
      known := ((c.members place).told.filter fun t => t.answered = primary).flatMap Told.known
        ++ (c.members place).known } c.promotions place where
  known p hp := by
    dsimp only [Member.settled]
    rcases List.mem_append.mp hp with hp | hp
    · obtain ⟨t, ht, hp⟩ := List.mem_flatMap.mp hp
      have ⟨htold, heq⟩ := List.mem_filter.mp ht
      have hle := (h.member place).told t htold p hp
      rw [of_decide_eq_true heq] at hle
      omega
    · have hle := (h.member place).known p hp
      omega
  told t ht := by cases ht
  following f hf := by
    obtain rfl := Option.some.inj hf
    exact ⟨hrole, fun c hc => by cases hc⟩
  primary hp := absurd hp hrole

theorem Sound.promoted (h : c.Sound) {place : ℕ} (hnone : (c.members place).following = none)
    {node : StorageNode κ ν}
    (hepoch : node.epoch = max (Answered.latest ((c.members place).told.map Told.answered))
      (c.members place).node.epoch + 1) :
    Cluster.Sound { c.set place { (c.members place).settled node with
        known := ⟨place, node.epoch⟩ :: (c.members place).informed } with
      promotions := c.promotions ++ [(⟨place, node.epoch⟩, (c.members place).informed)] } where
  member i := by
    have hsub : c.promotions ⊆
        c.promotions ++ [(⟨place, node.epoch⟩, (c.members place).informed)] :=
      List.subset_append_left _ _
    simp only [Cluster.set, Function.update]
    split
    · next heq =>
        subst heq
        refine ⟨fun p hp => ?_, fun t ht => (by cases ht), fun f hf => ?_, fun _ => ?_⟩
        · dsimp only [Member.settled] at hp ⊢
          rcases List.mem_cons.mp hp with rfl | hp
          · exact le_rfl
          · have hlt := (h.member i).informed p hp
            omega
        · have hsome : (c.members i).following = some f := hf
          rw [hnone] at hsome
          cases hsome
        · exact ⟨List.mem_cons_self, (c.members i).informed, by simp [Member.settled]⟩
    · exact (h.member i).mono hsub
  later x hx := by
    rcases List.mem_append.mp hx with hx | hx
    · exact h.later x hx
    · obtain rfl := List.mem_singleton.mp hx
      intro p hp
      have hlt := (h.member place).informed p hp
      dsimp only
      omega

theorem Sound.settle (h : c.Sound) {place : ℕ} (hnone : (c.members place).following = none)
    (silent : Bool) (opening : Opening κ ν) :
    (c.settle bounds place silent opening).Sound := by
  have hm := h.member place
  simp only [Cluster.settle]
  split
  · next hprimary =>
      split
      · refine h.set (hm.settled hnone (epoch_le_performAll bounds _ _) fun hp => ?_)
        rw [takeUp_role] at hp
        cases hp
      · exact h.set (hm.settled hnone le_rfl fun hp => ⟨hp, rfl⟩)
  · next hprimary =>
      split
      · exact h.set (hm.settled hnone le_rfl fun hp => ⟨hp, rfl⟩)
      · next primary _ =>
          refine h.set (h.follow place primary (takeUp_epoch _ _ _ _) ?_)
          rw [takeUp_role]
          exact fun h => by cases h
      · next epoch hfinds =>
          have hlater := finds_promote hfinds
          have hopening := opening_holds (c.members place).node opening.fresh opening.keys
            opening.upgrades
          split
          · exact h.set (hm.settled hnone le_rfl fun hp => ⟨hp, rfl⟩)
          · refine h.set (hm.settled hnone (epoch_le_performAll bounds _ _) fun hp => ?_)
            rw [performAll_role _ fun x hx => hopening x (List.mem_of_mem_take hx)] at hp
            exact absurd hp hprimary
          · have hplain := opening_plain (c.members place).node opening.fresh opening.keys
              opening.upgrades
            have hepoch : ((c.members place).node.performAll bounds
                ((c.members place).node.opening opening.fresh opening.keys opening.upgrades ++
                  (c.members place).node.takeUp .primary epoch)).epoch = epoch := by
              rw [performAll_append, takeUp_epoch, performAll_epoch _ hplain]
              omega
            have hpromoted := h.promoted hnone (hepoch.trans hlater)
            rw [hepoch] at hpromoted
            exact hpromoted

/-- Whatever happens, the cluster stays sound. -/
theorem Sound.after (h : c.Sound) (event : ClusterEvent κ ν) : (c.after bounds event).Sound := by
  cases event with
  | start place =>
      simp only [Cluster.after]
      split
      · have hstart : ((c.members place).start c.processes).Sound c.promotions place :=
          .start c.processes
        have hset := h.set hstart
        exact ⟨hset.member, hset.later⟩
      · exact h
  | kill place =>
      refine ⟨fun i => ?_, h.later⟩
      have hm := (h.member i).unshipped place
      dsimp only [Cluster.after]
      split
      · exact ⟨hm.known, hm.told, hm.following, hm.primary⟩
      · exact hm
  | stop place =>
      have hm := h.member place
      exact h.set ⟨hm.known, hm.told, hm.following, hm.primary⟩
  | ask place answers =>
      simp only [Cluster.after]
      split
      · have hm := h.member place
        refine h.set ⟨hm.known, fun t ht => ?_, hm.following, hm.primary⟩
        rcases List.mem_append.mp ht with ht | ht
        · exact hm.told t ht
        · cases answers with
          | true => exact h.told _ (Option.mem_toList.mp ht)
          | false => cases ht
      · exact h
  | settle place silent opening =>
      simp only [Cluster.after]
      split
      · next hsettles => exact h.settle (Option.isNone_iff_eq_none.mp hsettles.2.1) silent opening
      · exact h
  | accept place =>
      have hm := h.member place
      simp only [Cluster.after]
      split
      · next primary known _ hfollowing =>
          have ⟨hrole, _⟩ := hm.following _ hfollowing
          split
          · refine h.set
              ⟨hm.known, hm.told, fun f hf => ⟨hrole, fun connection hc => ?_⟩, hm.primary⟩
            obtain rfl := Option.some.inj hf
            obtain rfl := Option.some.inj hc
            exact .opened (h.member primary).known _
          · exact h
      · exact h
  | ship place idle =>
      have hm := h.member place
      simp only [Cluster.after]
      split
      · next primary connection known hfollowing =>
          have ⟨hrole, hsent⟩ := hm.following _ hfollowing
          have hship := (hsent connection rfl).ship bounds (c.members primary).node idle
          refine h.set
            ⟨hm.known, hm.told, fun f hf => ⟨hrole, fun connection' hc => ?_⟩, hm.primary⟩
          obtain rfl := Option.some.inj hf
          obtain rfl := Option.some.inj hc
          exact hship
      · exact h
  | take place fails =>
      simp only [Cluster.after]
      split
      · next primary connection known _ hfollowing =>
          exact h.set ((h.member place).take hfollowing rfl fails)
      · exact h
  | cut place =>
      have hm := h.member place
      simp only [Cluster.after]
      split
      · next hcut =>
          obtain ⟨f, hf⟩ := Option.isSome_iff_exists.mp hcut.2
          exact h.set (hm.unfollowed le_rfl (hm.following f hf).1)
      · exact h
  | write place database changes =>
      have hm := h.member place
      simp only [Cluster.after]
      split
      · exact h.set ⟨hm.known, hm.told, hm.following, hm.primary⟩
      · exact h

theorem Sound.opened (listed : ℕ) (engines : ℕ → Database → Engine κ ν) :
    (Cluster.opened listed engines).Sound where
  member place :=
    ⟨fun p hp => (by cases hp), fun t ht => (by cases ht), fun f hf => (by cases hf),
      fun hp => by cases hp⟩
  later x hx := by cases hx

theorem Sound.run (h : c.Sound) (events : List (ClusterEvent κ ν)) :
    (c.run bounds events).Sound := by
  induction events generalizing c with
  | nil => exact h
  | cons event events ih => exact ih (h.after event)


/-- Primaries told apart by their epochs as far as they knew of one another: each is one by a
promotion it knows of, in an epoch later than that of every promotion known where it was decided,
so that of two in one epoch neither was promoted knowing of the other. -/
structure ToldApart (c : Cluster κ ν) : Prop where
  later : ∀ x ∈ c.promotions, ∀ p ∈ x.2, p.epoch < x.1.epoch
  knows : ∀ i, (c.members i).node.role = .primary →
    ⟨i, (c.members i).node.epoch⟩ ∈ (c.members i).known
  unknown : ∀ i j, i ≠ j → (c.members i).node.role = .primary →
    (c.members j).node.role = .primary → (c.members i).node.epoch = (c.members j).node.epoch →
    ∃ known₁ known₂, (⟨i, (c.members i).node.epoch⟩, known₁) ∈ c.promotions ∧
      (⟨j, (c.members j).node.epoch⟩, known₂) ∈ c.promotions ∧
      ⟨j, (c.members j).node.epoch⟩ ∉ known₁ ∧ ⟨i, (c.members i).node.epoch⟩ ∉ known₂

/-- Over every run of a cluster, its primaries are told apart as far as they knew of one
another. -/
theorem promotions_told_apart (bounds : Bounds κ ν) (listed : ℕ)
    (engines : ℕ → Database → Engine κ ν) (events : List (ClusterEvent κ ν)) :
    ((Cluster.opened listed engines).run bounds events).ToldApart := by
  have h : ((Cluster.opened listed engines).run bounds events).Sound :=
    (Sound.opened listed engines).run events
  refine ⟨h.later, fun i hi => ((h.member i).primary hi).1, fun i j _ hi hj heq => ?_⟩
  have ⟨_, known₁, h₁⟩ := (h.member i).primary hi
  have ⟨_, known₂, h₂⟩ := (h.member j).primary hj
  refine ⟨known₁, known₂, h₁, h₂, fun hknown => ?_, fun hknown => ?_⟩
  · have hlt := h.later _ h₁ _ hknown
    dsimp only at hlt
    omega
  · have hlt := h.later _ h₂ _ hknown
    dsimp only at hlt
    omega

/-- Two Storage nodes started and parted from each other: each answers itself alone, the second
once it heard no primary for the silence allowed. -/
def parted : Cluster ℕ ℕ :=
  let opening : Opening ℕ ℕ := ⟨7, fun _ => 0, [], none⟩
  (Cluster.opened 2 fun _ _ => .empty).run ⟨fun _ => 1, 64⟩
    [.start 0, .start 1, .ask 0 true, .ask 0 false, .ask 1 false, .ask 1 true,
      .settle 0 false opening, .settle 1 true opening]

theorem parted_same_epoch :
    ¬∀ i j, i ≠ j →
      (parted.members i).node.role = .primary → (parted.members j).node.role = .primary →
      (parted.members i).node.epoch ≠ (parted.members j).node.epoch := by
  intro h
  exact h 0 1 (by decide) (by decide) (by decide) (by decide)

end Cluster

end XmipPersist.Standby
