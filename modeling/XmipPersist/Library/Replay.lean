import XmipPersist.Library.OrderedMap

/-! # A copy taken of a map while it is written

A map changes by one write after another, each leaving a key it names with a value of its own.
It is read page by page while writes go on, and every write made from some point before the
reading began is then made again to the copy. Where the last write to a key came after that
point the copy has it from there; where none did the key stood still while it was read.
-/

namespace XmipPersist

namespace Replay

variable {κ ν : Type} [LinearOrder κ]

/-- The changes one write makes at once. -/
abbrev Write (κ ν : Type) := List (κ × Option ν)

/-- What the first `n` writes of `log` leave of `first`. -/
def effect (first : OrderedMap κ ν) (log : List (Write κ ν)) (n : ℕ) : OrderedMap κ ν :=
  (log.take n).foldl OrderedMap.apply first

/-- Whether a write from the `a`-th on, before the `b`-th, names `k`. -/
def Touched (log : List (Write κ ν)) (a b : ℕ) (k : κ) : Prop :=
  ∃ i write, log[i]? = some write ∧ a ≤ i ∧ i < b ∧ k ∈ write.map Prod.fst

variable {first : OrderedMap κ ν} {log : List (Write κ ν)} {write : Write κ ν} {a b n p : ℕ}
  {k : κ}

theorem effect_succ (h : log[n]? = some write) :
    effect first log (n + 1) = (effect first log n).apply write := by
  simp [effect, List.take_add_one, h]

theorem effect_of_length_le (h : log.length ≤ n) :
    effect first log n = effect first log log.length := by
  simp [effect, List.take_of_length_le h]

theorem effect_append {more : List (Write κ ν)} (h : n ≤ log.length) :
    effect first (log ++ more) n = effect first log n := by
  simp [effect, List.take_append_of_le_length h]

omit [LinearOrder κ] in
theorem Touched.mono {a' b' : ℕ} (h : Touched log a b k) (ha : a' ≤ a) (hb : b ≤ b') :
    Touched log a' b' k := by
  obtain ⟨i, write, hi, hai, hib, hk⟩ := h
  exact ⟨i, write, hi, by omega, by omega, hk⟩

/-- A key no write names between two points has the same value at both. -/
theorem get_effect_of_untouched (hab : a ≤ b) (h : ¬Touched log a b k) :
    (effect first log b).get k = (effect first log a).get k := by
  induction b, hab using Nat.le_induction with
  | base => rfl
  | succ b hab ih =>
      have hb : ¬Touched log a b k := fun ht => h (ht.mono le_rfl (by omega))
      rw [← ih hb]
      cases hw : log[b]? with
      | none =>
          have hlen := List.getElem?_eq_none_iff.mp hw
          rw [effect_of_length_le (by omega), effect_of_length_le hlen]
      | some write =>
          rw [effect_succ hw]
          have hk : k ∉ write.map Prod.fst := fun hk => h ⟨b, write, hw, hab, by omega, hk⟩
          exact OrderedMap.get_apply_of_notMem _ hk

/-- A key no write between two points names is the same at each point between them. -/
theorem get_effect_between {t : ℕ} (hat : a ≤ t) (htb : t ≤ b) (h : ¬Touched log a b k) :
    (effect first log t).get k = (effect first log b).get k := by
  have hbefore : ¬Touched log a t k := fun ht => h (ht.mono le_rfl htb)
  rw [get_effect_of_untouched hat hbefore, get_effect_of_untouched (hat.trans htb) h]

/-! ## Writes made again -/

/-- `m` has each key as the writes up to some point leave it, a point at the `p`-th or, up to the
`n`-th, after it. -/
def CaughtUp (first : OrderedMap κ ν) (log : List (Write κ ν)) (p n : ℕ)
    (m : OrderedMap κ ν) : Prop :=
  ∀ k, ∃ t, p ≤ t ∧ t ≤ max p n ∧ m.get k = (effect first log t).get k

variable {m : OrderedMap κ ν}

/-- Nothing is left out once the writes made again reach the `n`-th. -/
theorem CaughtUp.eq (h : CaughtUp first log p n m) (hn : n ≤ p) : m = effect first log p := by
  apply OrderedMap.ext
  intro k
  obtain ⟨t, hpt, htn, ht⟩ := h k
  have hp : t = p := by omega
  rw [ht, hp]

/-- A key no write from some point on names is there as that point left it. -/
theorem CaughtUp.get_of_untouched (h : CaughtUp first log p n m) {q : ℕ} (hq : q ≤ p)
    (hp : p ≤ log.length) (hn : n ≤ log.length) (hk : ¬Touched log q log.length k) :
    m.get k = (effect first log log.length).get k := by
  obtain ⟨t, hpt, htn, ht⟩ := h k
  rw [ht]
  exact get_effect_between (by omega) (by omega) hk

/-- The next write made again. -/
theorem CaughtUp.next (h : CaughtUp first log p n m) (hw : log[p]? = some write) :
    CaughtUp first log (p + 1) n (m.apply write) := by
  intro k
  obtain ⟨t, hpt, htn, ht⟩ := h k
  by_cases hmem : k ∈ write.map Prod.fst
  · refine ⟨p + 1, le_rfl, le_max_left _ _, ?_⟩
    rw [effect_succ hw]
    exact OrderedMap.get_apply_of_mem _ _ hmem
  · rw [OrderedMap.get_apply_of_notMem _ hmem, ht]
    rcases Nat.eq_or_lt_of_le hpt with rfl | hlt
    · refine ⟨p + 1, le_rfl, le_max_left _ _, ?_⟩
      rw [effect_succ hw, OrderedMap.get_apply_of_notMem _ hmem]
    · exact ⟨t, hlt, by omega, rfl⟩

/-- A write to the map leaves what its copy has of the writes before. -/
theorem CaughtUp.append (h : CaughtUp first log p n m) (hp : p ≤ log.length)
    (hn : n ≤ log.length) : CaughtUp first (log ++ [write]) p n m := by
  intro k
  obtain ⟨t, hpt, htn, ht⟩ := h k
  exact ⟨t, hpt, htn, by rw [effect_append (by omega), ht]⟩

/-! ## Reading page by page -/

/-- `m` has each key read so far as it was at some point since, the reading begun at the `a`-th
write and now past the key `passed`; and nothing past it. -/
def Scanned (first : OrderedMap κ ν) (log : List (Write κ ν)) (a : ℕ) (passed : Option κ)
    (m : OrderedMap κ ν) : Prop :=
  ∀ k, if ∃ p ∈ passed, k ≤ p
    then ∃ t, a ≤ t ∧ t ≤ log.length ∧ m.get k = (effect first log t).get k
    else m.get k = none

theorem Scanned.start : Scanned first log a none OrderedMap.empty := by
  intro k
  simp

theorem Scanned.append {passed : Option κ} (h : Scanned first log a passed m) :
    Scanned first (log ++ [write]) a passed m := by
  intro k
  have hk := h k
  split
  · next hpassed =>
      rw [if_pos hpassed] at hk
      obtain ⟨t, hat, htn, ht⟩ := hk
      refine ⟨t, hat, ?_, by rw [effect_append htn, ht]⟩
      rw [List.length_append]
      omega
  · next hpassed => rwa [if_neg hpassed] at hk

/-- An entry put where it was read. -/
abbrev puts (page : List (κ × ν)) : Write κ ν := page.map fun e => (e.1, some e.2)

omit [LinearOrder κ] in
theorem map_fst_puts (page : List (κ × ν)) : (puts page).map Prod.fst = page.map Prod.fst := by
  simp [puts]

/-- A page read of the map as it stands. -/
theorem Scanned.page {passed : Option κ} {most : ℕ} {l : κ} (h : Scanned first log a passed m)
    (ha : a ≤ log.length)
    (hl : OrderedMap.lastOf ((effect first log log.length).page passed most) = some l) :
    Scanned first log a (some l)
      (m.apply (puts ((effect first log log.length).page passed most))) := by
  intro k
  have hm := h k
  by_cases hmem : k ∈ ((effect first log log.length).page passed most).map Prod.fst
  · obtain ⟨⟨k', v⟩, he, hke⟩ := List.mem_map.mp hmem
    have hkk : k' = k := hke
    subst hkk
    have hle : k' ≤ l := OrderedMap.le_of_mem_page hl he
    have hnodup := OrderedMap.page_nodup (effect first log log.length) passed most
    rw [← map_fst_puts] at hnodup
    rw [if_pos ⟨l, rfl, hle⟩, OrderedMap.get_apply_of_unique m hnodup (v := some v)
      (List.mem_map.mpr ⟨(k', v), he, rfl⟩)]
    exact ⟨log.length, ha, le_rfl, (OrderedMap.mem_page he).1.symm⟩
  · rw [OrderedMap.get_apply_of_notMem m (by rwa [map_fst_puts])]
    by_cases hpassed : ∃ p ∈ passed, k ≤ p
    · rw [if_pos hpassed] at hm
      obtain ⟨p, hp, hkp⟩ := hpassed
      have hkl : k ≤ l := hkp.trans (OrderedMap.lt_of_lastOf hl p hp).le
      rwa [if_pos ⟨l, rfl, hkl⟩]
    · rw [if_neg hpassed] at hm
      split
      · next hkl =>
          obtain ⟨l', hl', hkl⟩ := hkl
          obtain rfl := Option.mem_some_iff.mp hl'
          have hafter : ∀ p ∈ passed, p < k := fun p hp => by
            by_contra hlt
            exact hpassed ⟨p, hp, not_lt.mp hlt⟩
          refine ⟨log.length, ha, le_rfl, ?_⟩
          rw [hm]
          cases hv : (effect first log log.length).get k with
          | none => rfl
          | some v =>
              have := OrderedMap.mem_page_of_le hl hafter hkl hv
              exact absurd (List.mem_map_of_mem (f := Prod.fst) this) hmem
      · exact hm

/-- Read to the end, the copy lacks nothing but what the writes made since its start bring. -/
theorem Scanned.caughtUp {passed : Option κ} {most : ℕ} (h : Scanned first log a passed m)
    (ha : a ≤ log.length) (hmost : 0 < most)
    (hpage : (effect first log log.length).page passed most = []) :
    CaughtUp first log a log.length m := by
  intro k
  have hk := h k
  by_cases hpassed : ∃ p ∈ passed, k ≤ p
  · rw [if_pos hpassed] at hk
    obtain ⟨t, hat, htn, ht⟩ := hk
    exact ⟨t, hat, by omega, ht⟩
  · rw [if_neg hpassed] at hk
    have hafter : ∀ p ∈ passed, p < k := fun p hp => by
      by_contra hlt
      exact hpassed ⟨p, hp, not_lt.mp hlt⟩
    exact ⟨log.length, ha, by omega,
      hk.trans (OrderedMap.get_of_page_nil hmost hpage hafter).symm⟩

end Replay

end XmipPersist
