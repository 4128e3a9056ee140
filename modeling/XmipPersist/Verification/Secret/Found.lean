import XmipPersist.Model.Secrets
import XmipPersist.Verification.Index.Key

/-! # A secret is found by its own name

Each name's entry opens with the name's length and the name, so that no name is the start of
another's entry, and every entry is within the range of its index.
-/

namespace XmipPersist

/-! ## Entries within their range -/

/-- The bytes of words do not begin with the most a byte holds. -/
theorem first_lt {words : String} {first : UInt8} {rest : Bytes}
    (h : words.toUTF8.data.toList = first :: rest) : first.toNat < 255 := by
  have hlist : words.toByteArray.data.toList = first :: rest := h
  have hpos : 0 < words.toByteArray.size := by
    change 0 < words.toByteArray.data.size
    rw [← Array.length_toList, hlist]
    simp
  have hfirst : words.toByteArray[0].IsUTF8FirstByte :=
    words.isValidUTF8.isUTF8FirstByte_getElem_zero hpos
  have hget : words.toByteArray[0] = first := by
    change words.toByteArray.data[0] = first
    rw [← Array.getElem_toList]
    simp [hlist]
  rw [hget] at hfirst
  by_contra hge
  have htop : first = 255 := by
    apply UInt8.toNat_inj.mp
    have hlt := first.toNat_lt
    change first.toNat = 255
    omega
  subst htop
  revert hfirst
  decide

/-- Words after their length come before the most their bytes could be. -/
theorem counted_append_le (words : String) (xs : List ℕ) :
    counted words.toUTF8.data.toList ++ xs ≤ tops 64 := by
  have htops : tops 64 = bigEndian 4 u32Max ++ tops 60 := by decide
  have hmax : u32Max < 256 ^ 4 := by decide
  rw [counted, List.append_assoc, htops, append_le_append_iff (by simp)]
  rcases Nat.lt_or_ge words.toUTF8.data.toList.length u32Max with hlt | hge
  · exact .inl ((bigEndian_lt_iff (by omega) hmax).mpr (by omega))
  · -- so long that the length is at its most, the words' first byte is not
    refine .inr ⟨by rw [min_eq_right hge], ?_⟩
    obtain ⟨first, rest, hbytes⟩ := List.exists_cons_of_length_pos
      (lt_of_lt_of_le (by decide : 0 < u32Max) hge)
    have hlt := first_lt hbytes
    have hcons : tops 60 = 255 :: tops 59 := rfl
    rw [hbytes, List.map_cons, List.cons_append, hcons]
    exact (List.cons_lt_cons_iff.mpr (.inl hlt)).le

namespace Secret

theorem key_eq (name : String) (id : ℕ) :
    byName.key [.text name] id = 24 :: (counted name.toUTF8.data.toList ++ bigEndian 16 id) := by
  simp [Index.key, byName, encoded]

theorem opens_eq (name : String) :
    byName.opens [.text name] = 24 :: counted name.toUTF8.data.toList := by
  simp [Index.opens, byName, encoded]

/-- No two names share an entry. -/
theorem name_of_key {name name' : String} {xs ys : List ℕ} (hname : (Value.text name).Fits)
    (hname' : (Value.text name').Fits)
    (h : counted name.toUTF8.data.toList ++ xs = counted name'.toUTF8.data.toList ++ ys) :
    name = name' ∧ xs = ys := by
  obtain ⟨hbytes, hrest⟩ := counted_append_inj hname hname' h
  exact ⟨String.toByteArray_inj.mp (ByteArray.ext (Array.toList_inj.mp hbytes)), hrest⟩

/-- An index that keeps of each name the identifier it has, and nothing else. -/
structure Named (s : Store) (ids : String → Option ℕ) : Prop where
  fits : ∀ name id, ids name = some id → (Value.text name).Fits ∧ id < 256 ^ 16
  entry : ∀ key id, key.head? = some 24 →
    (s.entries.get key = some id ↔
      ∃ name, ids name = some id ∧ key = byName.key [.text name] id)

namespace Named

variable {s : Store} {ids : String → Option ℕ}

/-- An entry that opens with a name is that name's. -/
theorem opens (h : Named s ids) {name : String} (hname : (Value.text name).Fits) {key : IndexKey}
    {id : ℕ} (hget : s.entries.get key = some id) (hopens : byName.opens [.text name] <+: key) :
    ids name = some id ∧ key = byName.key [.text name] id := by
  obtain ⟨rest, rfl⟩ := hopens
  rw [opens_eq] at hget ⊢
  obtain ⟨name', hid, hkey⟩ := (h.entry _ id (by simp)).mp hget
  obtain ⟨hname', -⟩ := h.fits name' id hid
  rw [key_eq, List.cons_append, List.cons.injEq] at hkey
  obtain ⟨rfl, rfl⟩ := name_of_key hname hname' hkey.2
  exact ⟨hid, by rw [key_eq, List.cons_append]⟩

/-- A name's entry alone is in the range of its name. -/
theorem between (h : Named s ids) {name : String} (hname : (Value.text name).Fits)
    (e : IndexKey × ℕ) :
    e ∈ s.entries.between (byName.opens [.text name]) (byName.opens [.text name] ++ tops 64) ↔
      ids name = some e.2 ∧ e.1 = byName.key [.text name] e.2 := by
  obtain ⟨key, id⟩ := e
  rw [OrderedMap.mem_between]
  constructor
  · rintro ⟨hget, hfirst, hlast⟩
    rw [← List.append_nil (byName.opens [.text name])] at hfirst
    exact h.opens hname hget (prefix_of_between hfirst hlast)
  · intro hown
    have hid : ids name = some id := hown.1
    obtain rfl : key = byName.key [.text name] id := hown.2
    have hsplit : byName.key [.text name] id = byName.opens [.text name] ++ bigEndian 16 id := by
      rw [key_eq, opens_eq, List.cons_append]
    refine ⟨(h.entry _ id (by rw [key_eq]; rfl)).mpr ⟨name, hid, rfl⟩, ?_, ?_⟩
    · rw [hsplit]
      have hnil : byName.opens [.text name] ++ [] ≤ byName.opens [.text name] ++ bigEndian 16 id :=
        append_left_le_iff.mpr (not_lt.mp (List.not_lt_nil _))
      rwa [List.append_nil] at hnil
    · rw [hsplit, append_left_le_iff]
      exact le_replicate (fun x hx => le_of_mem_bigEndian hx) (by simp)

/-- A name finds the identifier it has. -/
theorem secretId (h : Named s ids) {name : String} (hname : (Value.text name).Fits) :
    secretId name s = ids name := by
  have hrange : Secret.secretId name s = ((s.entries.between (byName.opens [.text name])
      (byName.opens [.text name] ++ tops 64)).map Prod.snd).head? := by
    simp only [Secret.secretId, Index.find, Index.range, OrderedMap.range_eq]
    cases s.entries.between (byName.opens [.text name])
      (byName.opens [.text name] ++ tops 64) <;> simp
  have hbetween := h.between hname
  rw [hrange]
  cases hfound : s.entries.between (byName.opens [.text name])
      (byName.opens [.text name] ++ tops 64) with
  | nil =>
      rw [hfound] at hbetween
      cases hids : ids name with
      | none => rfl
      | some id =>
          have hmem := (hbetween (byName.key [.text name] id, id)).mpr ⟨hids, rfl⟩
          cases hmem
  | cons e found =>
      rw [hfound] at hbetween
      have hfirst := (hbetween e).mp (by simp)
      rw [hfirst.1]
      rfl

/-- The whole of the index finds every name's identifier once. -/
theorem all (h : Named s ids) :
    ∃ names : List String, names.Nodup ∧ (∀ name, name ∈ names ↔ ∃ id, ids name = some id) ∧
      ∀ most, byName.find s [] none most false = (names.take most).filterMap ids := by
  have hopens : byName.opens [] = [24] := rfl
  have hentry : ∀ e ∈ s.entries.between [24] ([24] ++ tops 64), ∃ name,
      ids name = some e.2 ∧ e.1 = byName.key [.text name] e.2 := by
    intro e he
    obtain ⟨hget, hfirst, hlast⟩ := OrderedMap.mem_between.mp he
    have hat : [24] ++ [] ≤ e.1 := by simpa using hfirst
    obtain ⟨rest, hrest⟩ := prefix_of_between hat hlast
    exact (h.entry e.1 e.2 (by rw [← hrest]; rfl)).mp hget
  choose! nameOf hids hkeys using hentry
  refine ⟨(s.entries.between [24] ([24] ++ tops 64)).map nameOf, ?_, fun name => ?_,
    fun most => ?_⟩
  · rw [List.Nodup, List.pairwise_map]
    refine (s.entries.between_ascending [24] ([24] ++ tops 64)).imp_of_mem
      fun {a b} ha hb hlt hsame => ?_
    have hid : a.2 = b.2 := by
      have hids' := hids a ha
      rw [hsame, hids b hb] at hids'
      exact (Option.some.inj hids').symm
    have hkey : a.1 = b.1 := by rw [hkeys a ha, hkeys b hb, hsame, hid]
    exact absurd hlt (by simp [hkey])
  · constructor
    · intro hmem
      obtain ⟨e, he, rfl⟩ := List.mem_map.mp hmem
      exact ⟨e.2, hids e he⟩
    · rintro ⟨id, hid⟩
      have hget : s.entries.get (byName.key [.text name] id) = some id :=
        (h.entry _ id (by rw [key_eq]; rfl)).mpr ⟨name, hid, rfl⟩
      have hmem : (byName.key [.text name] id, id) ∈
          s.entries.between [24] ([24] ++ tops 64) := by
        refine OrderedMap.mem_between.mpr ⟨hget, ?_, ?_⟩
        · have hnil : [24] ++ [] ≤ [24] ++ (counted name.toUTF8.data.toList ++ bigEndian 16 id) :=
            append_left_le_iff.mpr (not_lt.mp (List.not_lt_nil _))
          rw [key_eq]
          exact hnil
        · have hlast := counted_append_le name (bigEndian 16 id)
          have htops : [24] ++ (counted name.toUTF8.data.toList ++ bigEndian 16 id) ≤
              [24] ++ tops 64 := append_left_le_iff.mpr hlast
          rw [key_eq]
          exact htops
      have hother : ∀ other, ids other = some id →
          byName.key [.text name] id = byName.key [.text other] id → name = other := by
        intro other hid' hkey
        rw [key_eq, key_eq, List.cons.injEq] at hkey
        exact (name_of_key (h.fits name id hid).1 (h.fits other id hid').1 hkey.2).1
      have hname := hother _ (hids _ hmem) (hkeys _ hmem)
      rw [hname]
      exact List.mem_map.mpr ⟨_, hmem, rfl⟩
  · have hfind : byName.find s [] none most false =
        ((s.entries.between [24] ([24] ++ tops 64)).take most).map Prod.snd := by
      simp [Index.find, Index.range, OrderedMap.range_eq, hopens]
    rw [hfind, ← List.map_take, List.filterMap_map]
    have hsome : ((s.entries.between [24] ([24] ++ tops 64)).take most).filterMap (ids ∘ nameOf) =
        ((s.entries.between [24] ([24] ++ tops 64)).take most).filterMap (some ∘ Prod.snd) :=
      List.filterMap_congr fun e he => hids e (List.mem_of_mem_take he)
    rw [hsome, List.filterMap_eq_map]

end Named

end Secret

end XmipPersist
