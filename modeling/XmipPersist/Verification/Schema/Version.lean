import XmipPersist.Library.Steps
import XmipPersist.Model.Version

/-! # The version a database holds, over the builds that open it

The rows of a database no build older than its first has opened follow one another, so the version
searched for is the highest there is. A build older than the first finds no row at its version or
below, and takes the database for one just made.
-/

namespace XmipPersist.Schema

variable {database : Database} {rows : Rows} {first held : ℕ} {opens : Build × ℕ}

/-! ## What an open is to do -/

/-- The highest version a database recorded, where it recorded one. -/
def Rows.Holds (rows : Rows) : Option ℕ → Prop
  | none => ∀ version, rows version = none
  | some held => (rows held).isSome ∧ ∀ version, (rows version).isSome → version ≤ held

/-- A build's open of a database: it finds the highest version recorded. Below it, it is refused
and writes nothing; else it leaves the database at its own version, with the rows it had. -/
structure Rows.Opens (database : Database) (rows : Rows) (opens : Build × ℕ) : Prop where
  found : ∀ held, rows.Holds held → found rows.recorded opens.1.version = .ok held
  refused : ∀ held, rows.Holds (some held) → opens.1.version < held →
    (∃ words, reached rows database opens.1.version opens.2 = .error (.refused (.schema words))) ∧
      opened database rows opens = rows
  reached : ∀ held, rows.Holds held → (∀ version ∈ held, version ≤ opens.1.version) →
    ∃ rows', reached rows database opens.1.version opens.2 = .ok (opens.1.version, rows') ∧
      rows'.Holds (some opens.1.version) ∧
      ∀ version, (rows version).isSome → rows' version = rows version

/-! ## Versions recorded one after another -/

/-- The versions recorded are those from `first` to `held`. -/
structure Rows.Spans (rows : Rows) (first held : ℕ) : Prop where
  one_le : 1 ≤ first
  le : first ≤ held
  le_max : held ≤ u32Max
  recorded : ∀ version, (rows version).isSome ↔ first ≤ version ∧ version ≤ held

namespace Rows.Spans

theorem holds (h : rows.Spans first held) : rows.Holds (some held) :=
  ⟨(h.recorded held).mpr ⟨h.le, le_rfl⟩, fun version hv => ((h.recorded version).mp hv).2⟩

theorem holds_iff (h : rows.Spans first held) {found : Option ℕ} :
    rows.Holds found ↔ found = some held := by
  constructor
  · intro hfound
    cases found with
    | none =>
        have hsome := (h.recorded held).mpr ⟨h.le, le_rfl⟩
        rw [hfound held] at hsome
        cases hsome
    | some other =>
        have hother := ((h.recorded other).mp hfound.1).2
        have hheld := hfound.2 held h.holds.1
        rw [le_antisymm hother hheld]
  · rintro rfl
    exact h.holds

theorem recorded_eq (h : rows.Spans first held) (version : ℕ) :
    rows.recorded version = .ok (decide (first ≤ version ∧ version ≤ held)) := by
  rw [Rows.recorded]
  congr 1
  rw [Bool.eq_iff_iff, decide_eq_true_iff]
  exact h.recorded version

theorem upward (h : rows.Spans first held) (left version : ℕ) (hfirst : first ≤ version)
    (hheld : version ≤ held) (hleft : held ≤ version + left) :
    Schema.upward rows.recorded left version = .ok held := by
  induction left generalizing version with
  | zero =>
      obtain rfl : version = held := by omega
      rfl
  | succ left ih =>
      rw [Schema.upward, h.recorded_eq]
      by_cases hnext : version + 1 ≤ held
      · have hdec : decide (first ≤ version + 1 ∧ version + 1 ≤ held) = true := by
          rw [decide_eq_true_iff]
          omega
        rw [hdec]
        exact ih (version + 1) (by omega) hnext (by omega)
      · have hdec : decide (first ≤ version + 1 ∧ version + 1 ≤ held) = false := by
          rw [decide_eq_false_iff_not]
          omega
        obtain rfl : version = held := by omega
        rw [hdec]
        rfl

theorem downward (h : rows.Spans first held) (version : ℕ)
    (hnone : ¬(first ≤ version ∧ version ≤ held)) :
    Schema.downward rows.recorded version =
      .ok (if held < version then some held else none) := by
  have hle := h.le
  have hone := h.one_le
  induction version with
  | zero => simp [Schema.downward]
  | succ version ih =>
      cases version with
      | zero =>
          have hlt : ¬held < 1 := by omega
          simp [Schema.downward, hlt]
      | succ version =>
          rw [Schema.downward, h.recorded_eq]
          · by_cases hat : version + 1 ≤ held ∧ first ≤ version + 1
            · have hdec : decide (first ≤ version + 1 ∧ version + 1 ≤ held) = true := by
                rw [decide_eq_true_iff]
                omega
              obtain rfl : held = version + 1 := by omega
              rw [hdec]
              simp
              rfl
            · have hdec : decide (first ≤ version + 1 ∧ version + 1 ≤ held) = false := by
                rw [decide_eq_false_iff_not]
                omega
              rw [hdec]
              have hiff : held < version + 1 + 1 ↔ held < version + 1 := by omega
              rw [if_congr hiff rfl rfl]
              exact ih (by omega)
          · omega

/-- A build finds the version held, or, where it is older than the first, none. -/
theorem found (h : rows.Spans first held) (built : ℕ) (hmax : built ≤ u32Max) :
    Schema.found rows.recorded built = .ok (if first ≤ built then some held else none) := by
  have hle := h.le
  have hheld := h.le_max
  rw [Schema.found, h.recorded_eq]
  by_cases hat : first ≤ built ∧ built ≤ held
  · rw [decide_eq_true hat, if_pos hat.1]
    have hup := h.upward (u32Max - built) built hat.1 hat.2 (by omega)
    change (some <$> Schema.upward rows.recorded (u32Max - built) built) = _
    rw [hup]
    rfl
  · rw [decide_eq_false hat]
    change Schema.downward rows.recorded built = _
    have hiff : held < built ↔ first ≤ built := by omega
    rw [h.downward built hat, if_congr hiff rfl rfl]

/-! ## An open -/

variable (database) in
theorem refuses (h : rows.Spans first held) (hfirst : first ≤ opens.1.version)
    (hlt : opens.1.version < held) : ∃ words,
    Schema.reached rows database opens.1.version opens.2 = .error (.refused (.schema words)) := by
  obtain ⟨words, hwords⟩ : ∃ words, Schema.steps database (some held) opens.1.version =
      .error (.refused (.schema words)) := ⟨_, if_pos hlt⟩
  refine ⟨words, ?_⟩
  rw [Schema.reached, h.found _ opens.1.le_max, if_pos hfirst]
  change (Schema.steps database (some held) opens.1.version >>= _) = _
  rw [hwords]
  rfl

theorem reaches (h : rows.Spans first held) (hfirst : first ≤ opens.1.version)
    (hge : held ≤ opens.1.version) (hmax : held ≠ u32Max) :
    Schema.reached rows database opens.1.version opens.2 = .ok (opens.1.version,
      rows.write (held + 1, opens.1.version - held) opens.2) := by
  rw [Schema.reached, h.found _ opens.1.le_max, if_pos hfirst]
  change (Schema.steps database (some held) opens.1.version >>= _) = _
  rw [Schema.steps, if_neg (by omega), if_neg hmax]
  rfl

theorem overflows (h : rows.Spans first held) (hfirst : first ≤ opens.1.version)
    (hge : held ≤ opens.1.version) (hmax : held = u32Max) :
    Schema.reached rows database opens.1.version opens.2 = .error .overflowed := by
  rw [Schema.reached, h.found _ opens.1.le_max, if_pos hfirst]
  change (Schema.steps database (some held) opens.1.version >>= _) = _
  rw [Schema.steps, if_neg (by omega), if_pos hmax]
  rfl

/-- The rows after those of the versions up to a build's are written. -/
theorem write (h : rows.Spans first held) (hge : held ≤ opens.1.version) :
    (rows.write (held + 1, opens.1.version - held) opens.2).Spans first opens.1.version := by
  refine ⟨h.one_le, h.le.trans hge, opens.1.le_max, fun version => ?_⟩
  have hle := h.le
  have hrecorded := h.recorded version
  simp only [Rows.write]
  split
  · simp only [Option.isSome_some, true_iff]
    omega
  · rw [hrecorded]
    omega

/-- An open does what it is to do just where its build is not older than the first, and the last
version there is is not opened again. -/
theorem opens_iff (h : rows.Spans first held) :
    rows.Opens database opens ↔
      first ≤ opens.1.version ∧ ¬(held = u32Max ∧ opens.1.version = u32Max) := by
  have hheld := h.le_max
  constructor
  · intro hopens
    have hfirst : first ≤ opens.1.version := by
      have hfound := hopens.found _ h.holds
      rw [h.found _ opens.1.le_max] at hfound
      by_contra hlt
      rw [if_neg hlt] at hfound
      cases hfound
    refine ⟨hfirst, ?_⟩
    rintro ⟨hmax, hbuilt⟩
    have hge : held ≤ opens.1.version := by omega
    obtain ⟨rows', hreached, -⟩ := hopens.reached _ h.holds (by simpa using hge)
    rw [h.overflows hfirst hge hmax] at hreached
    cases hreached
  · rintro ⟨hfirst, hlast⟩
    refine ⟨fun found hfound => ?_, fun found hfound hlt => ?_, fun found hfound hge => ?_⟩
    · rw [h.holds_iff.mp hfound, h.found _ opens.1.le_max, if_pos hfirst]
    · obtain rfl := Option.some.inj (h.holds_iff.mp hfound)
      obtain ⟨words, hwords⟩ := h.refuses database hfirst hlt
      refine ⟨⟨words, hwords⟩, ?_⟩
      rw [Schema.opened, hwords]
    · obtain rfl := h.holds_iff.mp hfound
      have hge : held ≤ opens.1.version := by simpa using hge
      have hmax := opens.1.le_max
      refine ⟨_, h.reaches hfirst hge (by omega), (h.write hge).holds, fun version hv => ?_⟩
      have hle := ((h.recorded version).mp hv).2
      simp only [Rows.write]
      rw [if_neg (by omega)]

/-- After it the versions still follow one another. -/
theorem opened (h : rows.Spans first held) (hfirst : first ≤ opens.1.version)
    (hlast : ¬(held = u32Max ∧ opens.1.version = u32Max)) :
    (Schema.opened database rows opens).Spans first (max held opens.1.version) := by
  have hheld := h.le_max
  have hmax := opens.1.le_max
  rw [Schema.opened]
  by_cases hlt : opens.1.version < held
  · obtain ⟨words, hwords⟩ := h.refuses database hfirst hlt
    rw [hwords, max_eq_left hlt.le]
    exact h
  · have hge : held ≤ opens.1.version := by omega
    rw [h.reaches hfirst hge (by omega), max_eq_right hge]
    exact h.write hge

end Rows.Spans

/-! ## A database just made, and the builds that open it -/

/-- A database just made finds no version. -/
theorem found_made (built : ℕ) : found (Rows.recorded fun _ => none) built = .ok none := by
  have hdown : ∀ version, downward (Rows.recorded fun _ => none) version = .ok none := by
    intro version
    induction version with
    | zero => rfl
    | succ version ih =>
        cases version with
        | zero => rfl
        | succ version => exact ih
  exact hdown built

theorem opens_made (database : Database) (opens : Build × ℕ) :
    Rows.Opens database (fun _ => none) opens := by
  have hheld : ∀ {held}, Rows.Holds (fun _ => none) (some held) → False := by
    intro held hholds
    cases hholds.1
  refine ⟨fun held hholds => ?_, fun held hholds => (hheld hholds).elim, fun held hholds _ => ?_⟩
  · cases held with
    | none => exact found_made _
    | some held => exact (hheld hholds).elim
  · refine ⟨Rows.write (fun _ => none) (opens.1.version, 1) opens.2, ?_, ?_, ?_⟩
    · rw [reached, found_made]
      rfl
    · refine ⟨by simp [Rows.write], fun version hv => ?_⟩
      simp only [Rows.write] at hv
      split at hv
      · omega
      · cases hv
    · intro version hv
      cases hv

theorem made_spans (database : Database) (opens : Build × ℕ) :
    (opened database (fun _ => none) opens).Spans opens.1.version opens.1.version := by
  refine ⟨opens.1.one_le, le_rfl, opens.1.le_max, fun version => ?_⟩
  have hreached : reached (fun _ => none) database opens.1.version opens.2 =
      .ok (opens.1.version, Rows.write (fun _ => none) (opens.1.version, 1) opens.2) := by
    rw [reached, found_made]
    rfl
  simp only [opened, hreached, Rows.write]
  split
  · simp only [Option.isSome_some, true_iff]
    omega
  · simp only [Option.isSome_none, Bool.false_eq_true, false_iff]
    omega

/-- Builds that open a database that holds the versions from `first` to `held`. -/
theorem Rows.Spans.eachStep_iff {rows : Rows} (h : rows.Spans first held)
    (builds : List (Build × ℕ)) :
    EachStep (Schema.opened database) (Rows.Opens database) rows builds ↔
      (∀ opens ∈ builds, first ≤ opens.1.version) ∧
        (held = u32Max → ∀ opens ∈ builds, opens.1.version ≠ u32Max) ∧
        builds.Pairwise fun opens later =>
          ¬(opens.1.version = u32Max ∧ later.1.version = u32Max) := by
  induction builds generalizing rows held with
  | nil => simp [EachStep]
  | cons opens builds ih =>
      rw [EachStep, h.opens_iff]
      constructor
      · rintro ⟨⟨hfirst, hlast⟩, hrest⟩
        obtain ⟨hle, hmax, hpairs⟩ := (ih (h.opened hfirst hlast)).mp hrest
        refine ⟨?_, fun hheld => ?_, List.pairwise_cons.mpr ⟨fun later hlater => ?_, hpairs⟩⟩
        · exact List.forall_mem_cons.mpr ⟨hfirst, hle⟩
        · refine List.forall_mem_cons.mpr ⟨fun hbuilt => hlast ⟨hheld, hbuilt⟩, hmax ?_⟩
          have hbuilt := opens.1.le_max
          omega
        · rintro ⟨hbuilt, hlater'⟩
          have hheld := h.le_max
          exact hmax (by omega) later hlater hlater'
      · rintro ⟨hle, hmax, hpairs⟩
        obtain ⟨hfirst, hle⟩ := List.forall_mem_cons.mp hle
        obtain ⟨hlater, hpairs⟩ := List.pairwise_cons.mp hpairs
        have hlast : ¬(held = u32Max ∧ opens.1.version = u32Max) :=
          fun ⟨hheld, hbuilt⟩ => hmax hheld opens List.mem_cons_self hbuilt
        refine ⟨⟨hfirst, hlast⟩, (ih (h.opened hfirst hlast)).mpr ⟨hle, ?_, hpairs⟩⟩
        intro hheld later hmem hbuilt
        by_cases hsame : held = u32Max
        · exact hmax hsame later (List.mem_cons_of_mem _ hmem) hbuilt
        · exact hlater later hmem ⟨by omega, hbuilt⟩

/-- Every open of a database by builds of any versions does what it is to do just where no build is
older than the first, and the last version there is opens it once at most. -/
theorem version_held (database : Database) (builds : List (Build × ℕ)) :
    EachStep (opened database) (Rows.Opens database) (fun _ => none) builds ↔
      (∀ first ∈ builds.head?, ∀ opens ∈ builds, first.1.version ≤ opens.1.version) ∧
        builds.Pairwise fun opens later =>
          ¬(opens.1.version = u32Max ∧ later.1.version = u32Max) := by
  cases builds with
  | nil => simp [EachStep]
  | cons opens builds =>
      rw [EachStep, (made_spans database opens).eachStep_iff builds, List.pairwise_cons]
      simp only [List.head?_cons, Option.mem_some, forall_eq', List.mem_cons, forall_eq_or_imp]
      constructor
      · rintro ⟨-, hle, hmax, hpairs⟩
        exact ⟨⟨le_rfl, hle⟩, fun later hlater => fun ⟨hbuilt, hlast⟩ =>
          hmax hbuilt later hlater hlast, hpairs⟩
      · rintro ⟨⟨-, hle⟩, hmax, hpairs⟩
        exact ⟨opens_made database opens, hle, fun hbuilt later hlater hlast =>
          hmax later hlater ⟨hbuilt, hlast⟩, hpairs⟩

/-- The builds of versions 3 and 1. -/
def third : Build × ℕ := (⟨3, by decide, by decide⟩, 7)
def oldest : Build × ℕ := (⟨1, by decide, by decide⟩, 8)

/-- A database made at version 3 is opened by a build of version 1 as one just made. -/
theorem version_older :
    reached (opened .runtime (fun _ => none) third) .runtime 1 8 =
        .ok (1, (opened .runtime (fun _ => none) third).write (1, 1) 8) ∧
      (opened .runtime (fun _ => none) third).Holds (some 3) ∧
      ¬EachStep (opened .runtime) (Rows.Opens .runtime) (fun _ => none) [third, oldest] := by
  have hspans : (opened .runtime (fun _ => none) third).Spans 3 3 := made_spans .runtime third
  refine ⟨rfl, hspans.holds, ?_⟩
  rintro ⟨-, hopens, -⟩
  have hfirst : 3 ≤ 1 := (hspans.opens_iff.mp hopens).1
  omega

end XmipPersist.Schema
