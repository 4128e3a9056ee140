import XmipPersist.Library.Steps
import XmipPersist.Model.Lending
import XmipPersist.Verification.Standby.Processes

/-! # What the databases of a standby take

A Storage node that stepped down takes its primary's frames, and no write of an operation, where
none was still lent its databases as it did.
-/

namespace XmipPersist.Standby

open StorageNode

variable {κ ν : Type} [LinearOrder κ] {bounds : Bounds κ ν}

/-! ## Steps that write nothing -/

namespace Effect

/-- Whether a step writes as a primary does. -/
def writes : Effect κ ν → Bool
  | .write _ _ => true
  | _ => false

/-- Whether a step touches nothing but what a Storage node holds and the store's own keys. -/
def still : Effect κ ν → Bool
  | .hold _ _ => true
  | .hear _ => true
  | .keepEpoch _ => true
  | .restart _ _ => true
  | .giveUp _ => true
  | .opens _ _ => true
  | _ => false

end Effect

/-- The same entries, and no write kept that was not. -/
structure Untouched (before after : StorageNode κ ν) : Prop where
  entries : ∀ d, (after.engines d).entries = (before.engines d).entries
  writes : ∀ d, (after.copies.kept d).writes ⊆ (before.copies.kept d).writes

namespace Untouched

theorem refl (node : StorageNode κ ν) : Untouched node node :=
  ⟨fun _ => rfl, fun _ => List.Subset.refl _⟩

theorem trans {a b c : StorageNode κ ν} (hab : Untouched a b) (hbc : Untouched b c) :
    Untouched a c :=
  ⟨fun d => (hbc.entries d).trans (hab.entries d),
    fun d => List.Subset.trans (hbc.writes d) (hab.writes d)⟩

theorem onEngine (node : StorageNode κ ν) (database : Database) (f : Engine κ ν → Engine κ ν)
    (h : ∀ engine, (f engine).entries = engine.entries) :
    Untouched node (node.onEngine database f) := by
  refine ⟨fun d => ?_, fun d => List.Subset.refl _⟩
  by_cases hd : d = database
  · subst hd
    simp [engines_onEngine, h]
  · simp [engines_onEngine, hd]

theorem perform (node : StorageNode κ ν) {effect : Effect κ ν} (h : effect.still = true) :
    Untouched node (node.perform bounds effect) := by
  cases effect with
  | hold role epoch => exact ⟨fun _ => rfl, fun _ => List.Subset.refl _⟩
  | hear epoch => exact ⟨fun _ => rfl, fun _ => List.Subset.refl _⟩
  | keepEpoch epoch =>
      exact onEngine node runtime (fun engine => { engine with epoch := some epoch }) fun _ => rfl
  | restart history next => exact ⟨fun _ => rfl, fun _ => List.nil_subset _⟩
  | giveUp database =>
      exact onEngine node database (fun engine => { engine with position := none }) fun _ => rfl
  | opens database dataKey =>
      exact onEngine node database
        (fun engine => { engine with dataKey := engine.dataKey <|> dataKey }) fun _ => rfl
  | _ => cases h

theorem performAll (node : StorageNode κ ν) {effects : List (Effect κ ν)}
    (h : ∀ x ∈ effects, x.still = true) : Untouched node (node.performAll bounds effects) := by
  induction effects generalizing node with
  | nil => exact refl node
  | cons effect effects ih =>
      have hrest := ih (node.perform bounds effect) fun x hx => h x (by simp [hx])
      exact (perform node (h effect (by simp))).trans hrest

end Untouched

theorem takeUp_still (node : StorageNode κ ν) (role : Role) (epoch : ℕ) :
    ∀ x ∈ node.takeUp role epoch, x.still = true := by
  intro x hx
  simp only [takeUp, List.mem_cons] at hx
  rcases hx with rfl | hx
  · rfl
  · split at hx
    · obtain rfl := List.mem_singleton.mp hx
      rfl
    · cases hx

/-- A promotion before it is the primary writes to no database but to bring it to this build's
schema version. -/
theorem opening_still (node : StorageNode κ ν) (fresh : ℕ) (keys : Database → ℕ)
    (upgrades : List (Database × List (Change κ ν))) :
    ∀ x ∈ node.opening fresh keys upgrades, x.writes = false → x.still = true := by
  intro x hx hwrites
  simp only [opening, List.mem_append] at hx
  rcases hx with hx | hx | hx | hx
  · split at hx
    · obtain rfl := List.mem_singleton.mp hx
      rfl
    · cases hx
  · obtain ⟨database, -, rfl⟩ := List.mem_map.mp hx
    rfl
  · obtain ⟨database, -, rfl⟩ := List.mem_map.mp hx
    rfl
  · obtain ⟨write, -, rfl⟩ := List.mem_map.mp hx
    cases hwrites

/-! ## What happens among the Storage nodes -/

theorem Member.unfollowed_untouched (m : Member κ ν) (node : StorageNode κ ν) :
    Untouched node (m.unfollowed bounds node).node := by
  simp only [Member.unfollowed]
  split
  · exact .refl node
  · exact .performAll node (takeUp_still node .finding 0)

def Found.isPromotion : Found → Bool
  | .promote _ => true
  | _ => false

namespace Cluster

variable {c : Cluster κ ν}

/-- A Storage node left by steps of one frame that its primary sent, and by nothing else that
writes. -/
def TakesFrame (bounds : Bounds κ ν) (m m' : Member κ ν) : Prop :=
  ∃ followed connection sent frames steps,
    m.following = some followed ∧ followed.connection = some connection ∧
      connection.frames = sent :: frames ∧
        Untouched (m.node.performAll bounds
          ((m.node.taking connection.whole sent.frame).1.take steps)) m'.node

/-- What a Storage node that is no primary takes: nothing, or a frame that its primary sent. -/
def Copies (bounds : Bounds κ ν) (c c' : Cluster κ ν) : Prop :=
  ∀ place, (c.members place).node.role ≠ .primary → (c'.members place).node.role ≠ .primary →
    Untouched (c.members place).node (c'.members place).node ∨
      TakesFrame bounds (c.members place) (c'.members place)

theorem Copies.refl (c : Cluster κ ν) : Copies bounds c c := fun _ _ _ => .inl (.refl _)

theorem Copies.set {place : ℕ} {m : Member κ ν}
    (h : (c.members place).node.role ≠ .primary → m.node.role ≠ .primary →
      Untouched (c.members place).node m.node ∨ TakesFrame bounds (c.members place) m) :
    Copies bounds c (c.set place m) := by
  intro other hrole hrole'
  by_cases hother : other = place
  · subst hother
    simp only [Cluster.set, Function.update_self] at hrole' ⊢
    exact h hrole hrole'
  · simp only [Cluster.set, Function.update_of_ne hother]
    exact .inl (.refl _)

/-- A Storage node about to settle what it is, having asked all. -/
def Settles (c : Cluster κ ν) (place : ℕ) : Prop :=
  let m := c.members place
  m.up = true ∧ m.following.isNone ∧ m.asked = c.listed

/-- What the ones that answered a Storage node's round told it. -/
def answered (c : Cluster κ ν) (place : ℕ) : List Answered :=
  (c.members place).told.map Told.answered

/-- A promotion that fails does so before it wrote. -/
def FailsFirst (c : Cluster κ ν) (place : ℕ) (silent : Bool) (opening : Opening κ ν) : Prop :=
  let node := (c.members place).node
  ∀ fails ∈ opening.fails, node.role ≠ .primary →
    (node.finds (c.answered place) silent).isPromotion = true → node.isCopying = false →
      ∀ x ∈ (node.opening opening.fresh opening.keys opening.upgrades).take fails,
        x.writes = false

theorem Copies.settle {place : ℕ} {silent : Bool} {opening : Opening κ ν}
    (hfails : c.FailsFirst place silent opening) :
    Copies bounds c (c.settle bounds place silent opening) := by
  simp only [Cluster.settle]
  split
  · next hprimary =>
      split
      · exact .set fun hrole => absurd hprimary hrole
      · exact .set fun hrole => absurd hprimary hrole
  · next hrole =>
      split
      · exact .set fun _ _ => .inl (.refl _)
      · exact .set fun _ _ => .inl (.performAll _ (takeUp_still _ _ _))
      · next epoch hfinds =>
          split
          · exact .set fun _ _ => .inl (.refl _)
          · next fails hcopying hsome =>
              refine .set fun _ _ => .inl (.performAll _ fun x hx => ?_)
              have hpromotion : ((c.members place).node.finds (c.answered place)
                  silent).isPromotion = true := by
                rw [answered, hfinds]
                rfl
              have hwrites := hfails fails hsome hrole hpromotion hcopying x hx
              exact opening_still _ _ _ _ x (List.mem_of_mem_take hx) hwrites
          · refine .set fun _ hrole => absurd ?_ hrole
            simp only [Member.settled, performAll_append]
            exact takeUp_role _ _ _ _

/-- What a Storage node takes of the connection to its primary. -/
theorem TakesFrame.take (m : Member κ ν) {followed : Followed κ ν} {connection : Connection κ ν}
    (hfollowing : m.following = some followed) (hconnection : followed.connection = some connection)
    (fails : Option ℕ) :
    Untouched m.node (m.take bounds followed connection fails).node ∨
      TakesFrame bounds m (m.take bounds followed connection fails) := by
  simp only [Member.take]
  split
  · exact .inl (.refl _)
  · next sent frames steps hframes =>
      exact .inr ⟨followed, connection, sent, frames, steps, hfollowing, hconnection, hframes,
        Member.unfollowed_untouched m _⟩
  · next sent frames hframes =>
      have hall : (m.node.taking connection.whole sent.frame).1.take
          (m.node.taking connection.whole sent.frame).1.length =
            (m.node.taking connection.whole sent.frame).1 := List.take_length
      refine .inr ⟨followed, connection, sent, frames,
        (m.node.taking connection.whole sent.frame).1.length, hfollowing, hconnection, hframes, ?_⟩
      rw [hall]
      cases hok : (m.node.taking connection.whole sent.frame).2 with
      | ok whole =>
          simp only [Receiver.take, hok, if_true]
          exact .refl _
      | error stopped =>
          simp only [Receiver.take, hok]
          exact Member.unfollowed_untouched m _

variable (bounds) in
theorem Copies.after (c : Cluster κ ν) {event : ClusterEvent κ ν}
    (hwrite : ∀ place database changes, event ≠ .write place database changes)
    (hfails : ∀ place silent opening, event = .settle place silent opening →
      c.Settles place → c.FailsFirst place silent opening) :
    Copies bounds c (c.after bounds event) := by
  cases event with
  | start place =>
      simp only [Cluster.after]
      split
      · refine Copies.set fun _ _ => .inl ⟨fun _ => rfl, fun d => ?_⟩
        simp only [Member.start, StorageNode.new, positioned]
        split
        · exact List.nil_subset _
        · split <;> exact List.nil_subset _
      · exact .refl c
  | kill place =>
      intro other _ _
      simp only [Cluster.after]
      split <;> exact .inl (.refl _)
  | stop place => exact .set fun _ _ => .inl ⟨fun _ => rfl, fun _ => List.Subset.refl _⟩
  | ask place answers =>
      simp only [Cluster.after]
      split
      · exact .set fun _ _ => .inl (.refl _)
      · exact .refl c
  | settle place silent opening =>
      simp only [Cluster.after]
      split
      · next hsettles => exact .settle (hfails place silent opening rfl hsettles)
      · exact .refl c
  | accept place =>
      simp only [Cluster.after]
      split
      · split
        · exact .set fun _ _ => .inl (.refl _)
        · exact .refl c
      · exact .refl c
  | ship place idle =>
      simp only [Cluster.after]
      split
      · exact .set fun _ _ => .inl (.refl _)
      · exact .refl c
  | take place fails =>
      simp only [Cluster.after]
      split
      · next primary connection known _ hfollowing =>
          exact .set fun _ _ => TakesFrame.take (c.members place) hfollowing rfl fails
      · exact .refl c
  | cut place =>
      simp only [Cluster.after]
      split
      · exact .set fun _ _ => .inl (Member.unfollowed_untouched _ _)
      · exact .refl c
  | write place database changes => exact absurd rfl (hwrite place database changes)

/-- Whether a Storage node about to settle steps down. -/
def StepsDown (c : Cluster κ ν) (place : ℕ) : Prop :=
  (c.members place).node.role = .primary ∧
    (c.members place).node.stepsDown (c.answered place) = true

/-- Primaries stay so, where they do not step down, as long as their processes run. -/
def Primaries (c c' : Cluster κ ν) (down : ℕ → Prop) : Prop :=
  ∀ place, (c.members place).node.role = .primary → ¬down place →
    (c'.members place).node.role = .primary ∨
      (c'.members place).node.process = c.processes

theorem Primaries.refl (c : Cluster κ ν) (down : ℕ → Prop) : Primaries c c down :=
  fun _ hrole _ => .inl hrole

theorem Primaries.set {place : ℕ} {m : Member κ ν} {down : ℕ → Prop}
    (h : (c.members place).node.role = .primary → ¬down place → m.node.role = .primary) :
    Primaries c (c.set place m) down := by
  intro other hrole hdown
  by_cases hother : other = place
  · subst hother
    exact .inl (by simpa [Cluster.set] using h hrole hdown)
  · exact .inl (by simpa [Cluster.set, hother] using hrole)

variable (bounds) in
theorem Primaries.settle (c : Cluster κ ν) (place : ℕ) (silent : Bool) (opening : Opening κ ν) :
    Primaries c (c.settle bounds place silent opening) fun other =>
      other = place ∧ c.StepsDown place := by
  simp only [Cluster.settle]
  split
  · next hprimary =>
      split
      · next hdown => exact .set fun _ hnot => absurd ⟨rfl, hprimary, hdown⟩ hnot
      · exact .set fun hrole _ => hrole
  · next hrole =>
      split
      · exact .set fun hprimary _ => absurd hprimary hrole
      · exact .set fun hprimary _ => absurd hprimary hrole
      · split
        · exact .set fun hprimary _ => absurd hprimary hrole
        · exact .set fun hprimary _ => absurd hprimary hrole
        · exact .set fun hprimary _ => absurd hprimary hrole

/-- Whether one at `place` steps down by what happens. -/
def DownAt (c : Cluster κ ν) (event : ClusterEvent κ ν) (place : ℕ) : Prop :=
  ∃ silent opening, event = .settle place silent opening ∧ c.Settles place ∧ c.StepsDown place

variable (bounds) in
theorem Primaries.after (h : c.Sound) (event : ClusterEvent κ ν) :
    Primaries c (c.after bounds event) (c.DownAt event) := by
  cases event with
  | start place =>
      intro other hrole _
      simp only [Cluster.after]
      split
      · by_cases hother : other = place
        · subst hother
          exact .inr (by simp [Cluster.set, Member.start, StorageNode.new])
        · exact .inl (by simpa [Cluster.set, hother] using hrole)
      · exact .inl hrole
  | kill place =>
      intro other hrole _
      simp only [Cluster.after]
      split <;> exact .inl hrole
  | stop place => exact .set fun hrole _ => hrole
  | ask place answers =>
      simp only [Cluster.after]
      split
      · exact .set fun hrole _ => hrole
      · exact .refl c _
  | settle place silent opening =>
      simp only [Cluster.after]
      split
      · next hsettles =>
          intro other hrole hnot
          refine Primaries.settle bounds c place silent opening other hrole fun hdown => hnot ?_
          obtain ⟨rfl, hdown⟩ := hdown
          exact ⟨silent, opening, rfl, hsettles, hdown⟩
      · exact .refl c _
  | accept place =>
      simp only [Cluster.after]
      split
      · split
        · exact .set fun hrole _ => hrole
        · exact .refl c _
      · exact .refl c _
  | ship place idle =>
      simp only [Cluster.after]
      split
      · exact .set fun hrole _ => hrole
      · exact .refl c _
  -- a primary follows none
  | take place fails =>
      simp only [Cluster.after]
      split
      · next primary connection known _ hfollowing =>
          exact .set fun hrole _ => absurd hrole ((h.member place).following _ hfollowing).1
      · exact .refl c _
  | cut place =>
      simp only [Cluster.after]
      split
      · next hcut =>
          obtain ⟨followed, hfollowing⟩ := Option.isSome_iff_exists.mp hcut.2
          exact .set fun hrole _ => absurd hrole ((h.member place).following _ hfollowing).1
      · exact .refl c _
  | write place database changes =>
      simp only [Cluster.after]
      split
      · exact .set fun hrole _ => hrole
      · exact .refl c _

end Cluster

/-! ## Lent or not -/

namespace Lending

variable {s : Lending κ ν}

/-- What happens to a Storage node that is no primary, before and after: nothing is written to its
databases and none of its writes numbered, but of a frame its primary sent. -/
def OnlyCopied (bounds : Bounds κ ν) (s : Lending κ ν) (event : LendingEvent κ ν) : Prop :=
  Cluster.Copies bounds s.cluster (s.after bounds event).cluster

/-- A Storage node that steps down has nothing lent, and a promotion that fails does so before it
wrote. -/
def Meets (s : Lending κ ν) : LendingEvent κ ν → Prop
  | .cluster (.settle place silent opening) => s.cluster.Settles place →
      (s.cluster.StepsDown place →
        ∀ loan ∈ s.loans, loan.place = place → loan.live s.cluster = false) ∧
      s.cluster.FailsFirst place silent opening
  | _ => True

instance (c : Cluster κ ν) (place : ℕ) : Decidable (c.Settles place) :=
  inferInstanceAs (Decidable (_ ∧ _ ∧ _))

instance (c : Cluster κ ν) (place : ℕ) : Decidable (c.StepsDown place) :=
  inferInstanceAs (Decidable (_ ∧ _))

instance (c : Cluster κ ν) (place : ℕ) (silent : Bool) (opening : Opening κ ν) :
    Decidable (c.FailsFirst place silent opening) :=
  inferInstanceAs (Decidable (∀ fails ∈ opening.fails, _))

instance (s : Lending κ ν) : DecidablePred s.Meets
  | .cluster (.settle _ _ _) => inferInstanceAs (Decidable (_ → _ ∧ _))
  | .cluster (.start _) => .isTrue trivial
  | .cluster (.kill _) => .isTrue trivial
  | .cluster (.stop _) => .isTrue trivial
  | .cluster (.ask _ _) => .isTrue trivial
  | .cluster (.accept _) => .isTrue trivial
  | .cluster (.ship _ _) => .isTrue trivial
  | .cluster (.take _ _) => .isTrue trivial
  | .cluster (.cut _) => .isTrue trivial
  | .cluster (.write _ _ _) => .isTrue trivial
  | .lend _ _ => .isTrue trivial
  | .write _ _ _ => .isTrue trivial
  | .giveBack _ => .isTrue trivial

/-- The databases of a process that is the primary are lent, and of none other that runs. -/
structure Sound (s : Lending κ ν) : Prop where
  cluster : s.cluster.Sound
  process : ∀ place, (s.cluster.members place).node.process < s.cluster.processes
  loans : ∀ loan ∈ s.loans, loan.process < s.cluster.processes ∧
    ((s.cluster.members loan.place).node.process = loan.process →
      (s.cluster.members loan.place).node.role = .primary)

/-- Among the Storage nodes, one that has databases lent stays the primary. -/
theorem Sound.goes (h : s.Sound) {event : ClusterEvent κ ν}
    (hdown : ∀ loan ∈ s.loans, s.cluster.DownAt event loan.place →
      (s.cluster.members loan.place).node.process ≠ loan.process) :
    Sound { s with cluster := s.cluster.after bounds event } := by
  have hgoes := Cluster.Goes.after bounds s.cluster event
  have hprimaries := Cluster.Primaries.after bounds h.cluster event
  refine ⟨h.cluster.after event, hgoes.processes h.process, fun loan hloan => ?_⟩
  obtain ⟨hstarted, hprimary⟩ := h.loans loan hloan
  refine ⟨lt_of_lt_of_le hstarted hgoes.1, fun hprocess => ?_⟩
  rcases hgoes.2 loan.place with hsame | hnew
  · have hbefore := hsame.process.symm.trans hprocess
    rcases hprimaries loan.place (hprimary hbefore) fun hat => hdown loan hloan hat hbefore with
      hrole | hnew
    · exact hrole
    · have hprocess' : (s.cluster.members loan.place).node.process < s.cluster.processes :=
        h.process loan.place
      rw [hsame.process] at hnew
      omega
  · have hnew' := hnew.1
    rw [hprocess] at hnew'
    omega

theorem Sound.after (h : s.Sound) (event : LendingEvent κ ν) (hmeets : s.Meets event) :
    (s.after bounds event).Sound := by
  cases event with
  | cluster event =>
      have hdown : ∀ loan ∈ s.loans, s.cluster.DownAt event loan.place →
          (s.cluster.members loan.place).node.process ≠ loan.process := by
        rintro loan hloan ⟨silent, opening, rfl, hsettles, hsteps⟩ hprocess
        have hdead := (hmeets hsettles).1 hsteps loan hloan rfl
        have hup : (s.cluster.members loan.place).up = true := hsettles.1
        simp [Loan.live, hup, hprocess] at hdead
      cases event with
      | write place database changes => exact h
      | _ => exact h.goes hdown
  | lend place pinned =>
      refine ⟨h.cluster, h.process, fun loan hloan => ?_⟩
      rcases List.mem_append.mp hloan with hloan | hloan
      · exact h.loans loan hloan
      · simp only [lent, Option.mem_toList, Option.ite_none_right_eq_some,
          Option.some.injEq] at hloan
        obtain ⟨⟨-, hprimary⟩, rfl⟩ := hloan
        simp only [StorageNode.standing, decide_eq_true_eq] at hprimary
        exact ⟨h.process place, fun _ => hprimary.1⟩
  | write loan database changes =>
      simp only [Lending.after]
      split
      · refine h.goes ?_
        rintro loan' - ⟨silent, opening, hevent, -⟩
        cases hevent
      · exact h
  | giveBack loan =>
      exact ⟨h.cluster, h.process, fun loan' hloan => h.loans loan' (List.mem_of_mem_erase hloan)⟩

/-- What the primary's databases take is no other's. -/
theorem Sound.onlyCopied (h : s.Sound) (event : LendingEvent κ ν) (hmeets : s.Meets event) :
    s.OnlyCopied bounds event := by
  cases event with
  | cluster event =>
      have hcopies : (∀ place database changes, event ≠ .write place database changes) →
          Cluster.Copies bounds s.cluster (s.cluster.after bounds event) := by
        intro hwrite
        refine .after bounds s.cluster hwrite ?_
        rintro place silent opening rfl hsettles
        exact (hmeets hsettles).2
      cases event with
      | write place database changes => exact .refl _
      | _ => exact hcopies (by simp)
  | lend place pinned => exact .refl _
  | giveBack loan => exact .refl _
  | write loan database changes =>
      simp only [OnlyCopied, Lending.after]
      split
      · next hlent =>
          -- the databases written are a primary's
          obtain ⟨hloan, hlive⟩ := hlent
          simp only [Loan.live, Bool.and_eq_true, decide_eq_true_eq] at hlive
          have hprimary := (h.loans loan hloan).2 hlive.2
          simp only [Cluster.after]
          split
          · exact .set fun hrole => absurd hprimary hrole
          · exact .refl _
      · exact .refl _

theorem Sound.opened (listed : ℕ) (engines : ℕ → Database → Engine κ ν) :
    (opened (.opened listed engines)).Sound where
  cluster := .opened listed engines
  process := Cluster.processes_opened listed engines
  loans loan hloan := by cases hloan

/-- Over every run in which a Storage node that steps down has nothing lent, and a promotion that
fails does so before it wrote: while a Storage node is no primary, its databases take nothing but
of the frames its primary sent. -/
theorem only_copied (bounds : Bounds κ ν) (listed : ℕ) (engines : ℕ → Database → Engine κ ν)
    (events : List (LendingEvent κ ν))
    (hmeets : EachStep (after bounds) Meets (opened (.opened listed engines)) events) :
    EachStep (after bounds) (OnlyCopied bounds) (opened (.opened listed engines)) events := by
  have hcopied : ∀ (s : Lending κ ν) (event : LendingEvent κ ν), s.Sound → s.Meets event →
      s.OnlyCopied bounds event := fun s event h hevent => h.onlyCopied event hevent
  exact hmeets.mono_of_invariant (Sound.opened listed engines) hcopied
    fun s event h hevent => h.after event hevent

/-- Of two Storage nodes the first is promoted and lends its databases to an operation that writes;
the second meets it, and is promoted while the two are parted. -/
def promotedApart (loan : Loan) : List (LendingEvent ℕ ℕ) :=
  let opening : Opening ℕ ℕ := ⟨7, fun _ => 0, [], none⟩
  let first : List (ClusterEvent ℕ ℕ) :=
    [.start 0, .start 1, .ask 0 true, .ask 0 false, .settle 0 false opening]
  let second : List (ClusterEvent ℕ ℕ) :=
    [.ask 1 true, .ask 1 true, .settle 1 false opening, .cut 1, .ask 1 false, .ask 1 true,
      .settle 1 true opening]
  first.map .cluster ++ .lend loan.place loan.pinned :: .write loan 0 [(1, some 5)] ::
    second.map .cluster

/-- The first, finding the second, steps down. -/
def steppingDown : List (LendingEvent ℕ ℕ) :=
  let opening : Opening ℕ ℕ := ⟨7, fun _ => 0, [], none⟩
  ([.ask 0 true, .ask 0 true, .settle 0 false opening] : List (ClusterEvent ℕ ℕ)).map .cluster

/-- It follows the second, and is copied whole. -/
def followingSecond : List (LendingEvent ℕ ℕ) :=
  let opening : Opening ℕ ℕ := ⟨7, fun _ => 0, [], none⟩
  ([.ask 0 true, .ask 0 true, .settle 0 false opening, .accept 0, .take 0 none] :
    List (ClusterEvent ℕ ℕ)).map .cluster

def sizedLoans : Bounds ℕ ℕ := ⟨fun _ => 1, 64⟩

theorem only_copied_second :
    (((opened (.opened 2 fun _ _ => .empty)).run sizedLoans (promotedApart ⟨0, 1, false⟩ ++
        .giveBack ⟨0, 1, false⟩ :: (steppingDown ++ followingSecond))).cluster.members 0).node.role =
          .standby 1 ∧
      EachStep (after sizedLoans) (OnlyCopied sizedLoans) (opened (.opened 2 fun _ _ => .empty))
        (promotedApart ⟨0, 1, false⟩ ++
          .giveBack ⟨0, 1, false⟩ :: (steppingDown ++ followingSecond)) := by
  have hmeets : EachStep (after sizedLoans) Meets (opened (.opened 2 fun _ _ => .empty))
      (promotedApart ⟨0, 1, false⟩ ++
        .giveBack ⟨0, 1, false⟩ :: (steppingDown ++ followingSecond)) := by
    decide +kernel
  exact ⟨by decide +kernel, only_copied sizedLoans 2 (fun _ _ => .empty) _ hmeets⟩

/-- The first steps down with its operation still under way, or a statement pinned to it. -/
def steppedDown (pinned : Bool) : List (LendingEvent ℕ ℕ) :=
  promotedApart ⟨0, 1, pinned⟩ ++ steppingDown

theorem steppedDown_writes (pinned : Bool) :
    ¬EachStep (after sizedLoans) (OnlyCopied sizedLoans) (opened (.opened 2 fun _ _ => .empty))
      (steppedDown pinned ++ [.write ⟨0, 1, pinned⟩ 0 [(2, some 6)]]) := by
  intro h
  have hlast := h.of_append.2.head 0
  have hrole : (((steppedDown pinned).foldl (after sizedLoans)
      (opened (.opened 2 fun _ _ => .empty))).cluster.members 0).node.role ≠ .primary := by
    cases pinned <;> decide +kernel
  have hrole' : ((((steppedDown pinned).foldl (after sizedLoans)
      (opened (.opened 2 fun _ _ => .empty))).after sizedLoans
        (.write ⟨0, 1, pinned⟩ 0 [(2, some 6)])).cluster.members 0).node.role ≠ .primary := by
    cases pinned <;> decide +kernel
  rcases hlast hrole hrole' with huntouched | ⟨followed, connection, sent, frames, steps, hnone, -⟩
  · have hsame := congrArg (fun entries => entries.get 2) (huntouched.entries 0)
    revert hsame
    cases pinned <;> decide +kernel
  · revert hnone
    cases pinned <;> exact fun hnone => by cases hnone

/-- What it writes then is in the databases of a Storage node that is no primary. -/
theorem written_after_stepping_down :
    ¬EachStep (after sizedLoans) (OnlyCopied sizedLoans) (opened (.opened 2 fun _ _ => .empty))
        (steppedDown false ++ [.write ⟨0, 1, false⟩ 0 [(2, some 6)]]) ∧
      ¬EachStep (after sizedLoans) (OnlyCopied sizedLoans) (opened (.opened 2 fun _ _ => .empty))
        (steppedDown true ++ [.write ⟨0, 1, true⟩ 0 [(2, some 6)]]) :=
  ⟨steppedDown_writes false, steppedDown_writes true⟩

end Lending

end XmipPersist.Standby
