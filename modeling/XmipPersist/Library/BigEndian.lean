import Mathlib

/-! # Keys as bytes, in their order

Numbers written big-endian in so many bytes sort as they count, and keys that open with the
same bytes sort by what follows them.
-/

namespace XmipPersist

/-! ## Keys that open alike -/

section Keys

variable {α : Type*} [LinearOrder α] {xs ys as bs pre key : List α}

theorem append_lt_append_iff (h : xs.length = ys.length) :
    xs ++ as < ys ++ bs ↔ xs < ys ∨ xs = ys ∧ as < bs := by
  induction xs generalizing ys with
  | nil =>
      obtain rfl := List.length_eq_zero_iff.mp h.symm
      simp
  | cons x xs ih =>
      cases ys with
      | nil => cases h
      | cons y ys =>
          have hrest := ih (Nat.succ.inj h)
          simp only [List.cons_append, List.cons_lt_cons_iff, hrest, List.cons.injEq]
          tauto

theorem append_le_append_iff (h : xs.length = ys.length) :
    xs ++ as ≤ ys ++ bs ↔ xs < ys ∨ xs = ys ∧ as ≤ bs := by
  rw [← not_lt, append_lt_append_iff h.symm]
  have htri := lt_trichotomy xs ys
  constructor
  · intro hn
    rcases htri with hlt | rfl | hgt
    · exact .inl hlt
    · exact .inr ⟨rfl, not_lt.mp fun hlt => hn (.inr ⟨rfl, hlt⟩)⟩
    · exact absurd (.inl hgt) hn
  · rintro (hlt | ⟨rfl, hle⟩) (hgt | ⟨heq, hgt⟩)
    · exact lt_asymm hlt hgt
    · exact absurd heq.symm hlt.ne
    · exact lt_irrefl _ hgt
    · exact absurd hle (not_le.mpr hgt)

theorem append_left_lt_iff : pre ++ as < pre ++ bs ↔ as < bs := by
  simp [append_lt_append_iff rfl]

theorem append_left_le_iff : pre ++ as ≤ pre ++ bs ↔ as ≤ bs := by
  simp [append_le_append_iff rfl]

/-- A key between two that open alike opens as they do. -/
theorem prefix_of_between (hfirst : pre ++ as ≤ key) (hlast : key ≤ pre ++ bs) : pre <+: key := by
  induction pre generalizing key with
  | nil => exact List.nil_prefix
  | cons x pre ih =>
      cases key with
      | nil => exact absurd hfirst (not_le.mpr (List.nil_lt_cons _ _))
      | cons y key =>
          rw [List.cons_append, ← not_lt, List.cons_lt_cons_iff] at hfirst hlast
          have hxy : x = y := by
            rcases lt_trichotomy x y with hlt | heq | hgt
            · exact absurd (.inl hlt) hlast
            · exact heq
            · exact absurd (.inl hgt) hfirst
          subst hxy
          have hfirst' : pre ++ as ≤ key := not_lt.mp fun hlt => hfirst (.inr ⟨rfl, hlt⟩)
          have hlast' : key ≤ pre ++ bs := not_lt.mp fun hlt => hlast (.inr ⟨rfl, hlt⟩)
          exact List.cons_prefix_cons.mpr ⟨rfl, ih hfirst' hlast'⟩

/-- No key of so many elements, none past `top`, is past as many of it. -/
theorem le_replicate {top : α} {n : ℕ} (h : ∀ x ∈ key, x ≤ top) (hlen : key.length ≤ n) :
    key ≤ List.replicate n top := by
  induction key generalizing n with
  | nil => exact not_lt.mp (List.not_lt_nil _)
  | cons x key ih =>
      cases n with
      | zero => cases hlen
      | succ n =>
          have hrest := ih (fun y hy => h y (by simp [hy])) (Nat.le_of_succ_le_succ hlen)
          rw [List.replicate_succ, ← not_lt, List.cons_lt_cons_iff]
          rintro (hlt | ⟨_, hlt⟩)
          · exact absurd (h x (by simp)) (not_le.mpr hlt)
          · exact absurd hrest (not_le.mpr hlt)

end Keys

/-! ## Numbers -/

/-- The last `width` bytes of a number, the most significant first. -/
def bigEndian : ℕ → ℕ → List ℕ
  | 0, _ => []
  | width + 1, n => n / 256 ^ width % 256 :: bigEndian width n

/-- The number that bytes are, the most significant first. -/
def ofBigEndian (bytes : List ℕ) : ℕ := bytes.foldl (fun n byte => n * 256 + byte) 0

@[simp] theorem length_bigEndian (width n : ℕ) : (bigEndian width n).length = width := by
  induction width with
  | zero => rfl
  | succ width ih => simp [bigEndian, ih]

theorem le_of_mem_bigEndian {width n byte : ℕ} (h : byte ∈ bigEndian width n) : byte ≤ 255 := by
  induction width with
  | zero => cases h
  | succ width ih =>
      rcases List.mem_cons.mp h with rfl | h
      · have := Nat.mod_lt (n / 256 ^ width) (show 0 < 256 by decide)
        omega
      · exact ih h

/-- The bytes of a number are those of what is left of it. -/
theorem bigEndian_mod {width m : ℕ} (n : ℕ) (h : width ≤ m) :
    bigEndian width (n % 256 ^ m) = bigEndian width n := by
  induction width with
  | zero => rfl
  | succ width ih =>
      have hpow : 256 ^ m = 256 ^ width * 256 * 256 ^ (m - width - 1) := by
        rw [← pow_succ, ← pow_add]
        congr 1
        omega
      have hhead : n % 256 ^ m / 256 ^ width % 256 = n / 256 ^ width % 256 := by
        rw [hpow, mul_assoc, Nat.mod_mul_right_div_self, Nat.mod_mul_right_mod]
      rw [bigEndian, bigEndian, hhead, ih (by omega)]

theorem bigEndian_lt_iff {width m n : ℕ} (hm : m < 256 ^ width) (hn : n < 256 ^ width) :
    bigEndian width m < bigEndian width n ↔ m < n := by
  induction width generalizing m n with
  | zero =>
      have h0 : m = n := by omega
      simp [h0]
  | succ width ih =>
      have hpos : 0 < 256 ^ width := Nat.pow_pos (by decide)
      have hrest := ih (Nat.mod_lt m hpos) (Nat.mod_lt n hpos)
      rw [bigEndian_mod m le_rfl, bigEndian_mod n le_rfl] at hrest
      have hm' : m / 256 ^ width < 256 := Nat.div_lt_of_lt_mul (by rwa [pow_succ] at hm)
      have hn' : n / 256 ^ width < 256 := Nat.div_lt_of_lt_mul (by rwa [pow_succ] at hn)
      have hdm := Nat.div_add_mod m (256 ^ width)
      have hdn := Nat.div_add_mod n (256 ^ width)
      rw [bigEndian, bigEndian, List.cons_lt_cons_iff, hrest, Nat.mod_eq_of_lt hm',
        Nat.mod_eq_of_lt hn']
      constructor
      · rintro (hlt | ⟨heq, hlt⟩)
        · exact Nat.lt_of_div_lt_div hlt
        · rw [heq] at hdm
          omega
      · intro hlt
        rcases Nat.lt_or_eq_of_le (Nat.div_le_div_right hlt.le) with h | h
        · exact .inl h
        · refine .inr ⟨h, ?_⟩
          rw [h] at hdm
          omega

theorem bigEndian_inj {width m n : ℕ} (hm : m < 256 ^ width) (hn : n < 256 ^ width) :
    bigEndian width m = bigEndian width n ↔ m = n := by
  refine ⟨fun h => ?_, fun h => by rw [h]⟩
  have hmn := bigEndian_lt_iff hm hn
  have hnm := bigEndian_lt_iff hn hm
  rw [h] at hmn hnm
  simp only [lt_self_iff_false, false_iff] at hmn hnm
  omega

/-- A number is read back from its bytes. -/
theorem ofBigEndian_bigEndian {width n : ℕ} (h : n < 256 ^ width) :
    ofBigEndian (bigEndian width n) = n := by
  have hfold : ∀ width (a : ℕ), (bigEndian width n).foldl (fun n byte => n * 256 + byte) a =
      a * 256 ^ width + n % 256 ^ width := by
    intro width
    induction width with
    | zero => simp [bigEndian, Nat.mod_one]
    | succ width ih =>
        intro a
        have hmod : n % 256 ^ (width + 1) =
            n / 256 ^ width % 256 * 256 ^ width + n % 256 ^ width := by
          rw [pow_succ, Nat.mod_mul, add_comm, mul_comm]
        rw [bigEndian, List.foldl_cons, ih, hmod, pow_succ]
        ring
  rw [ofBigEndian, hfold, zero_mul, zero_add, Nat.mod_eq_of_lt h]

/-! ## Several numbers -/

section Several

variable {width : ℕ} {vs ws : List ℕ} {rest : List ℕ}

/-- So many numbers, one after another, sort as their lists do. -/
theorem flatMap_bigEndian_lt_iff (hlen : vs.length = ws.length) (hv : ∀ v ∈ vs, v < 256 ^ width)
    (hw : ∀ w ∈ ws, w < 256 ^ width) :
    vs.flatMap (bigEndian width) < ws.flatMap (bigEndian width) ↔ vs < ws := by
  induction vs generalizing ws with
  | nil =>
      obtain rfl := List.length_eq_zero_iff.mp hlen.symm
      simp
  | cons v vs ih =>
      cases ws with
      | nil => cases hlen
      | cons w ws =>
          have hrest := ih (Nat.succ.inj hlen) (fun u hu => hv u (by simp [hu]))
            (fun u hu => hw u (by simp [hu]))
          have hv' := hv v (by simp)
          have hw' := hw w (by simp)
          rw [List.flatMap_cons, List.flatMap_cons, append_lt_append_iff (by simp),
            List.cons_lt_cons_iff, hrest, bigEndian_lt_iff hv' hw', bigEndian_inj hv' hw']

theorem flatMap_bigEndian_inj (hlen : vs.length = ws.length) (hv : ∀ v ∈ vs, v < 256 ^ width)
    (hw : ∀ w ∈ ws, w < 256 ^ width) :
    vs.flatMap (bigEndian width) = ws.flatMap (bigEndian width) ↔ vs = ws := by
  refine ⟨fun h => ?_, fun h => by rw [h]⟩
  have hlt := flatMap_bigEndian_lt_iff hlen hv hw
  have hgt := flatMap_bigEndian_lt_iff hlen.symm hw hv
  rw [h] at hlt hgt
  rcases lt_trichotomy vs ws with h' | h' | h'
  · exact absurd (hlt.mpr h') (lt_irrefl _)
  · exact h'
  · exact absurd (hgt.mpr h') (lt_irrefl _)

/-- Fewer numbers are before more of them where they are no later, whatever follows those. -/
theorem flatMap_bigEndian_le_iff (hlen : vs.length ≤ ws.length) (hv : ∀ v ∈ vs, v < 256 ^ width)
    (hw : ∀ w ∈ ws, w < 256 ^ width) :
    vs.flatMap (bigEndian width) ≤ ws.flatMap (bigEndian width) ++ rest ↔ vs ≤ ws := by
  induction vs generalizing ws with
  | nil => simp [← not_lt]
  | cons v vs ih =>
      cases ws with
      | nil => cases hlen
      | cons w ws =>
          have hrest := ih (Nat.le_of_succ_le_succ hlen) (fun u hu => hv u (by simp [hu]))
            (fun u hu => hw u (by simp [hu]))
          have hv' := hv v (by simp)
          have hw' := hw w (by simp)
          rw [List.flatMap_cons, List.flatMap_cons, List.append_assoc,
            append_le_append_iff (by simp), hrest, bigEndian_lt_iff hv' hw',
            bigEndian_inj hv' hw', ← not_lt (b := v :: vs), List.cons_lt_cons_iff]
          constructor
          · rintro (hlt | ⟨rfl, hle⟩) (hgt | ⟨heq, hgt⟩)
            · exact lt_asymm hlt hgt
            · exact absurd heq.symm hlt.ne
            · exact lt_irrefl _ hgt
            · exact absurd hle (not_le.mpr hgt)
          · intro hn
            rcases lt_trichotomy v w with hlt | rfl | hgt
            · exact .inl hlt
            · exact .inr ⟨rfl, not_lt.mp fun hgt => hn (.inr ⟨rfl, hgt⟩)⟩
            · exact absurd (.inl hgt) hn

end Several

end XmipPersist
