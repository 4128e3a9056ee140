import XmipPersist.Library.OrderedMap

/-! # Records and the entries an index keeps of them

Every record at its place has entries of its own, and an index is exact where it keeps those of
the records there are and no others. Where no two places share a key, it stays exact as a record
is replaced, once the entries of the one are taken out and then those of the other are set.
-/

namespace XmipPersist

variable {π ρ κ ν : Type} [DecidableEq π] [LinearOrder κ]

namespace Indexed

/-- The changes that take entries out. -/
def gone (entries : List (κ × ν)) : List (κ × Option ν) := entries.map fun e => (e.1, none)

/-- The changes that set them. -/
def set (entries : List (κ × ν)) : List (κ × Option ν) := entries.map fun e => (e.1, some e.2)

variable (entries : π → ρ → List (κ × ν)) (keys : Set κ)

/-- Of `keys`, the index keeps the entries of the records there are. -/
def Exact (records : π → Option ρ) (m : OrderedMap κ ν) : Prop :=
  ∀ k ∈ keys, ∀ v, m.get k = some v ↔ ∃ p r, records p = some r ∧ (k, v) ∈ entries p r

/-- No two places share one of `keys`, and no record keeps one of them twice. -/
structure Apart (records : π → Option ρ) : Prop where
  place : ∀ k ∈ keys, ∀ p q r r' v v', records p = some r → records q = some r' →
    (k, v) ∈ entries p r → (k, v') ∈ entries q r' → p = q
  value : ∀ k ∈ keys, ∀ p r v v', records p = some r → (k, v) ∈ entries p r →
    (k, v') ∈ entries p r → v = v'

variable {entries keys} {records records' : π → Option ρ} {m : OrderedMap κ ν}

omit [DecidableEq π] in
theorem exact_empty : Exact entries keys (fun _ => none) .empty := by
  intro k _ v
  simp

/-- The entries of a place's record. -/
def at' (entries : π → ρ → List (κ × ν)) (p : π) : Option ρ → List (κ × ν)
  | some r => entries p r
  | none => []

omit [DecidableEq π] [LinearOrder κ] in
theorem mem_at {p : π} {r : Option ρ} {e : κ × ν} :
    e ∈ at' entries p r ↔ ∃ a, r = some a ∧ e ∈ entries p a := by
  cases r <;> simp [at']

omit [DecidableEq π] in
/-- A key set after entries are taken out. -/
theorem get_set (m : OrderedMap κ ν) (old : List (κ × ν)) {new : List (κ × ν)} {k : κ} {v : ν}
    (hv : (k, v) ∈ new) (h : ∀ v', (k, v') ∈ new → v' = v) :
    (m.apply (gone old ++ set new)).get k = some v := by
  rw [OrderedMap.apply_append]
  apply OrderedMap.get_apply_of_same
  · exact List.mem_map.mpr ⟨(k, some v), List.mem_map.mpr ⟨(k, v), hv, rfl⟩, rfl⟩
  · intro c hc hk
    obtain ⟨⟨k', v'⟩, he, rfl⟩ := List.mem_map.mp hc
    obtain rfl : k' = k := hk
    rw [h v' he]

omit [DecidableEq π] in
/-- A key that nothing sets again. -/
theorem get_unset (m : OrderedMap κ ν) (old : List (κ × ν)) {new : List (κ × ν)} {k : κ}
    (h : ∀ v, (k, v) ∉ new) :
    (m.apply (gone old ++ set new)).get k = if k ∈ old.map Prod.fst then none else m.get k := by
  have hset : k ∉ (set new).map Prod.fst := by
    intro hk
    obtain ⟨c, hc, rfl⟩ := List.mem_map.mp hk
    obtain ⟨e, he, rfl⟩ := List.mem_map.mp hc
    exact h e.2 he
  have hgone : (gone old).map Prod.fst = old.map Prod.fst := by simp [gone]
  rw [OrderedMap.apply_append, OrderedMap.get_apply_of_notMem _ hset]
  split
  · next hk =>
      apply OrderedMap.get_apply_of_same
      · rwa [hgone]
      · intro c hc _
        obtain ⟨e, -, rfl⟩ := List.mem_map.mp hc
        rfl
  · next hk => exact OrderedMap.get_apply_of_notMem _ (by rwa [hgone])

/-- A record replaced, or put where there was none, or taken out. -/
theorem Exact.replace {p : π} {new : Option ρ} (h : Exact entries keys records m)
    (hapart : Apart entries keys records)
    (hapart' : Apart entries keys (Function.update records p new)) :
    Exact entries keys (Function.update records p new)
      (m.apply (gone (at' entries p (records p)) ++ set (at' entries p new))) := by
  intro k hk v
  -- another place holds what it held
  have hother : ∀ q r, q ≠ p → (Function.update records p new q = some r ↔ records q = some r) :=
    fun q r hq => by rw [Function.update_of_ne hq]
  by_cases hnew : ∃ v', (k, v') ∈ at' entries p new
  · obtain ⟨v', hv'⟩ := hnew
    obtain ⟨r, rfl, hr⟩ := mem_at.mp hv'
    have hself : Function.update records p (some r) p = some r := Function.update_self ..
    rw [get_set m _ hv' fun w hw => hapart'.value k hk p r w v' hself hw hr]
    constructor
    · intro he
      exact ⟨p, r, hself, Option.some.inj he ▸ hr⟩
    · rintro ⟨q, r', hq, hv⟩
      obtain rfl := hapart'.place k hk p q r r' v' v hself hq hr hv
      obtain rfl := Option.some.inj (hself.symm.trans hq)
      rw [hapart'.value k hk _ _ v' v hself hr hv]
  · have hnone : ∀ v', (k, v') ∉ at' entries p new := fun v' hv' => hnew ⟨v', hv'⟩
    -- so an entry under `k` is another place's
    have hplace : ∀ q r, Function.update records p new q = some r → (k, v) ∈ entries q r →
        q ≠ p := by
      rintro q r hq hv rfl
      rw [Function.update_self] at hq
      exact hnone v (mem_at.mpr ⟨r, hq, hv⟩)
    rw [get_unset m _ hnone]
    split
    · next hold =>
        obtain ⟨⟨k', v'⟩, he, rfl⟩ := List.mem_map.mp hold
        obtain ⟨r, hr, hv'⟩ := mem_at.mp he
        simp only [reduceCtorEq, false_iff]
        rintro ⟨q, r', hq, hv⟩
        have hne := hplace q r' hq hv
        exact hne (hapart.place _ hk q p r' r v v' ((hother q r' hne).mp hq) hr hv hv')
    · next hold =>
        rw [h k hk v]
        constructor
        · rintro ⟨q, r, hq, hv⟩
          have hne : q ≠ p := by
            rintro rfl
            exact hold (List.mem_map.mpr ⟨(k, v), mem_at.mpr ⟨r, hq, hv⟩, rfl⟩)
          exact ⟨q, r, (hother q r hne).mpr hq, hv⟩
        · rintro ⟨q, r, hq, hv⟩
          exact ⟨q, r, (hother q r (hplace q r hq hv)).mp hq, hv⟩

end Indexed

end XmipPersist
