import XmipPersist.Verification.Secret.Row

/-! # The secrets are a map by name

Over a run of writes, the row of each name is the one last written under it, under the identifier
of the first, and its index entry is its own. So a name reads what was last set under it, and a
value opens under its own name and kind.
-/

namespace XmipPersist

open Wire (Secrets SecretRecord SecretEntry)

variable {x : Secrets} {k : Sealing}

/-! ## What was written under a name -/

def firstUnder (name : String) (ws : List (SecretWrite x k)) : Option (SecretWrite x k) :=
  ws.find? fun w => w.name = name

def lastUnder (name : String) (ws : List (SecretWrite x k)) : Option (SecretWrite x k) :=
  ws.reverse.find? fun w => w.name = name

def idUnder (name : String) (ws : List (SecretWrite x k)) : Option ℕ :=
  (firstUnder name ws).map fun first => first.record.id

/-- The secret last written under a name, with the identifier of the first write of it. -/
def secretUnder (name : String) (ws : List (SecretWrite x k)) : Option (SecretRecord x) := do
  let id ← idUnder name ws
  let last ← lastUnder name ws
  pure ⟨id, last.record.secret, nanos last.now, last.record.setBy⟩

section Under

variable {name : String} {ws : List (SecretWrite x k)} {w : SecretWrite x k}

theorem idUnder_eq_none : idUnder name ws = none ↔ ∀ w ∈ ws, w.name ≠ name := by
  simp [idUnder, firstUnder]

theorem idUnder_snoc :
    idUnder name (ws ++ [w]) =
      (idUnder name ws).or (if w.name = name then some w.record.id else none) := by
  rw [idUnder, firstUnder, List.find?_append]
  by_cases hname : w.name = name
  · simp only [List.find?_cons, hname, decide_true, if_true, idUnder, firstUnder]
    cases List.find? (fun w => decide (w.name = name)) ws <;> rfl
  · simp [hname, idUnder, firstUnder]

theorem lastUnder_snoc :
    lastUnder name (ws ++ [w]) = if w.name = name then some w else lastUnder name ws := by
  rw [lastUnder, List.reverse_append]
  by_cases hname : w.name = name <;> simp [lastUnder, hname]

theorem mem_of_idUnder {id : ℕ} (h : idUnder name ws = some id) : ∃ w ∈ ws, w.name = name := by
  obtain ⟨first, hfirst, -⟩ := Option.map_eq_some_iff.mp h
  exact ⟨first, List.mem_of_find?_eq_some hfirst, by simpa using List.find?_some hfirst⟩

theorem idUnder_of_mem (hmem : w ∈ ws) (hname : w.name = name) : ∃ id, idUnder name ws = some id := by
  cases hid : idUnder name ws with
  | none => exact absurd hname (idUnder_eq_none.mp hid w hmem)
  | some id => exact ⟨id, rfl⟩

theorem lastUnder_of_mem (hmem : w ∈ ws) (hname : w.name = name) :
    ∃ last, lastUnder name ws = some last := by
  cases hlast : lastUnder name ws with
  | none =>
      simp only [lastUnder, List.find?_eq_none, List.mem_reverse, decide_eq_true_eq] at hlast
      exact absurd hname (hlast w hmem)
  | some last => exact ⟨last, rfl⟩

theorem mem_of_lastUnder (h : lastUnder name ws = some w) : w ∈ ws ∧ w.name = name := by
  have hmem := List.mem_of_find?_eq_some h
  have hname := List.find?_some h
  exact ⟨List.mem_reverse.mp hmem, by simpa using hname⟩

end Under

/-- A name written for the first time comes with an identifier that no other name has. -/
def SecretWrite.Fresh (before : List (SecretWrite x k)) (w : SecretWrite x k) : Prop :=
  idUnder w.name before = none → ∀ v ∈ before, idUnder v.name before ≠ some w.record.id

instance (before : List (SecretWrite x k)) (w : SecretWrite x k) : Decidable (w.Fresh before) :=
  inferInstanceAs (Decidable (_ → ∀ v ∈ before, _))

def FreshIds : List (SecretWrite x k) → List (SecretWrite x k) → Prop
  | _, [] => True
  | before, w :: ws => w.Fresh before ∧ FreshIds (before ++ [w]) ws

instance FreshIds.decidable : (before ws : List (SecretWrite x k)) → Decidable (FreshIds before ws)
  | _, [] => .isTrue trivial
  | before, w :: ws =>
      have := FreshIds.decidable (before ++ [w]) ws
      inferInstanceAs (Decidable (w.Fresh before ∧ FreshIds (before ++ [w]) ws))

/-- Identifiers all different are fresh. -/
theorem FreshIds.of_nodup {before ws : List (SecretWrite x k)}
    (h : ((before ++ ws).map fun w => w.record.id).Nodup) : FreshIds before ws := by
  induction ws generalizing before with
  | nil => trivial
  | cons w ws ih =>
      refine ⟨fun _ v _ hid => ?_, ih (by simpa using h)⟩
      obtain ⟨first, hfirst, hsame⟩ := Option.map_eq_some_iff.mp hid
      have hmem := List.mem_of_find?_eq_some hfirst
      rw [List.map_append, List.nodup_append] at h
      exact h.2.2 first.record.id (List.mem_map.mpr ⟨first, hmem, rfl⟩) w.record.id (by simp) hsame

/-! ## The table a run of writes leaves -/

/-- Under each name the row last written, with the identifier of the first, and nothing else. -/
structure Table (s : Store) (ws : List (SecretWrite x k)) : Prop where
  named : Secret.Named s fun name => idUnder name ws
  sole : ∀ {name name' id}, idUnder name ws = some id → idUnder name' ws = some id → name = name'
  row : ∀ {name id last}, idUnder name ws = some id → lastUnder name ws = some last →
    ∃ row, RowOf last id row ∧ s.records (.secret, .id id) = some (Form.bytes row.kept)
  bare : ∀ id, (∀ name, idUnder name ws ≠ some id) → s.records (.secret, .id id) = none

/-- No secret is in a store, and no entry of their index. -/
structure NoSecrets (s : Store) : Prop where
  records : ∀ id, s.records (.secret, .id id) = none
  entries : ∀ key, key.head? = some 24 → s.entries.get key = none

namespace Table

theorem start {s : Store} (h : NoSecrets s) : Table s ([] : List (SecretWrite x k)) where
  named :=
    { fits := by
        intro name id hid
        cases hid
      entry := by
        intro key id hkey
        rw [h.entries key hkey]
        simp [idUnder, firstUnder] }
  sole := by
    intro name name' id hid
    cases hid
  row := by
    intro name id last hid
    cases hid
  bare := fun id _ => h.records id

variable {s s' : Store} {ws : List (SecretWrite x k)} {w : SecretWrite x k}

/-- The identifier a write is made under: its name's, or its own where its name has none. -/
def own (ws : List (SecretWrite x k)) (w : SecretWrite x k) : ℕ :=
  (idUnder w.name ws).getD w.record.id

theorem idUnder_own (name : String) :
    idUnder name (ws ++ [w]) = if name = w.name then some (own ws w) else idUnder name ws := by
  rw [idUnder_snoc]
  by_cases hname : name = w.name
  · subst hname
    cases hid : idUnder w.name ws <;> simp [own, hid]
  · simp [hname, Ne.symm hname]

/-- No other name has the identifier a write is made under. -/
theorem own_ne (h : Table s ws) (hfresh : w.Fresh ws) {name : String} (hname : name ≠ w.name) :
    idUnder name ws ≠ some (own ws w) := by
  intro hid
  cases hown : idUnder w.name ws with
  | none =>
      rw [own, hown, Option.getD_none] at hid
      obtain ⟨first, hmem, rfl⟩ := mem_of_idUnder hid
      exact hfresh hown first hmem hid
  | some id =>
      rw [own, hown, Option.getD_some] at hid
      exact hname (h.sole hid hown)

theorem sole_snoc (h : Table s ws) (hfresh : w.Fresh ws) {name name' : String} {id : ℕ}
    (hname : idUnder name (ws ++ [w]) = some id) (hname' : idUnder name' (ws ++ [w]) = some id) :
    name = name' := by
  rw [idUnder_own] at hname hname'
  by_cases hw : name = w.name <;> by_cases hw' : name' = w.name
  · rw [hw, hw']
  · rw [if_pos hw] at hname
    rw [if_neg hw', ← Option.some.inj hname] at hname'
    exact absurd hname' (h.own_ne hfresh hw')
  · rw [if_pos hw'] at hname'
    rw [if_neg hw, ← Option.some.inj hname'] at hname
    exact absurd hname (h.own_ne hfresh hw)
  · rw [if_neg hw] at hname
    rw [if_neg hw'] at hname'
    exact h.sole hname hname'

/-- Under the identifier a write is made under there is a row of its own name, or none. -/
theorem replaces (h : Table s ws) (hfresh : w.Fresh ws) :
    ∃ before : Option (SealedSecret x),
      s.records (.secret, .id (own ws w)) = before.map (fun old => Form.bytes old.kept) ∧
        ∀ old ∈ before, old.name = x.name w.record.secret ∧ old.id = own ws w := by
  cases hown : idUnder w.name ws with
  | none =>
      refine ⟨none, h.bare _ fun name => ?_, by simp⟩
      by_cases hname : name = w.name
      · rw [hname, hown]
        simp
      · exact h.own_ne hfresh hname
  | some id =>
      obtain ⟨v, hmem, hv⟩ := mem_of_idUnder hown
      obtain ⟨last, hlast⟩ := lastUnder_of_mem hmem hv
      obtain ⟨row, hrow, hrecord⟩ := h.row hown hlast
      have hid : own ws w = id := by simp [own, hown]
      refine ⟨some row, by rw [hid, hrecord]; rfl, ?_⟩
      intro old hold
      obtain rfl := Option.mem_some.mp hold
      refine ⟨?_, by rw [hrow.id, hid]⟩
      rw [hrow.name]
      exact asStr_inj (mem_of_lastUnder hlast).2

theorem idUnder_kept {name : String} {id : ℕ} (h : idUnder name ws = some id) :
    idUnder name (ws ++ [w]) = some id := by
  rw [idUnder_snoc, h, Option.some_or]

theorem fits_snoc (h : Table s ws) (htexts : Texts x) (hid : w.record.id < 256 ^ 16)
    {name : String} {id : ℕ} (hname : idUnder name (ws ++ [w]) = some id) :
    (Value.text name).Fits ∧ id < 256 ^ 16 := by
  rw [idUnder_own] at hname
  by_cases hw : name = w.name
  · rw [if_pos hw] at hname
    obtain rfl := Option.some.inj hname
    have hfits : (Value.text w.name).Fits := htexts.name (x.name w.record.secret)
    refine ⟨hw ▸ hfits, ?_⟩
    cases hown : idUnder w.name ws with
    | none => simpa [own, hown] using hid
    | some id => simpa [own, hown] using (h.named.fits w.name id hown).2
  · rw [if_neg hw] at hname
    exact h.named.fits name id hname

theorem entryKey_of {row : SealedSecret x} (h : RowOf w (own ws w) row) :
    row.entryKey = Secret.byName.key [.text w.name] (own ws w) := by
  rw [SealedSecret.entryKey, h.name, h.id]
  rfl

section Laid

variable {row : SealedSecret x}

theorem named_laid (h : Table s ws) (htexts : Texts x) (hid : w.record.id < 256 ^ 16)
    (hof : RowOf w (own ws w) row) (hlaid : SealedSecret.Laid s s' row) :
    Secret.Named s' fun name => idUnder name (ws ++ [w]) where
  fits := fun _ _ => h.fits_snoc htexts hid
  entry := by
    intro key id hkey
    have hown : idUnder w.name (ws ++ [w]) = some (own ws w) := by rw [idUnder_own, if_pos rfl]
    rw [hlaid.entries, entryKey_of hof, hof.id]
    by_cases hentry : key = Secret.byName.key [.text w.name] (own ws w)
    · -- the entry written is of no other name
      rw [if_pos hentry]
      constructor
      · intro hid
        obtain rfl := Option.some.inj hid
        exact ⟨w.name, hown, hentry⟩
      · rintro ⟨name, hname, hsame⟩
        rw [hentry, Secret.key_eq, Secret.key_eq, List.cons.injEq] at hsame
        obtain ⟨rfl, -⟩ := Secret.name_of_key (h.fits_snoc htexts hid hown).1
          (h.fits_snoc htexts hid hname).1 hsame.2
        rw [← hown, hname]
    · rw [if_neg hentry, h.named.entry key id hkey]
      constructor
      · rintro ⟨name, hname, hsame⟩
        exact ⟨name, idUnder_kept hname, hsame⟩
      · rintro ⟨name, hname, hsame⟩
        rw [idUnder_own] at hname
        by_cases hw : name = w.name
        · rw [if_pos hw] at hname
          obtain rfl := Option.some.inj hname
          rw [hw] at hsame
          exact absurd hsame hentry
        · rw [if_neg hw] at hname
          exact ⟨name, hname, hsame⟩

theorem row_laid (h : Table s ws) (hfresh : w.Fresh ws) (hof : RowOf w (own ws w) row)
    (hlaid : SealedSecret.Laid s s' row) {name : String} {id : ℕ} {last : SecretWrite x k}
    (hname : idUnder name (ws ++ [w]) = some id) (hlast : lastUnder name (ws ++ [w]) = some last) :
    ∃ row, RowOf last id row ∧ s'.records (.secret, .id id) = some (Form.bytes row.kept) := by
  rw [hlaid.records, hof.id]
  rw [idUnder_own] at hname
  rw [lastUnder_snoc] at hlast
  by_cases hw : name = w.name
  · rw [if_pos hw] at hname
    rw [if_pos hw.symm] at hlast
    obtain rfl := Option.some.inj hname
    obtain rfl := Option.some.inj hlast
    exact ⟨row, hof, if_pos rfl⟩
  · rw [if_neg hw] at hname
    rw [if_neg (Ne.symm hw)] at hlast
    have hne : id ≠ own ws w := by
      rintro rfl
      exact h.own_ne hfresh hw hname
    rw [if_neg (by simpa using hne)]
    exact h.row hname hlast

theorem bare_laid (h : Table s ws) (hof : RowOf w (own ws w) row)
    (hlaid : SealedSecret.Laid s s' row) (id : ℕ)
    (hbare : ∀ name, idUnder name (ws ++ [w]) ≠ some id) :
    s'.records (.secret, .id id) = none := by
  have hne : id ≠ own ws w := by
    rintro rfl
    exact hbare w.name (by rw [idUnder_own, if_pos rfl])
  rw [hlaid.records, hof.id, if_neg (by simpa using hne)]
  exact h.bare id fun name hname => hbare name (idUnder_kept hname)

end Laid

/-- A write that seals its value is laid out, and the table is as it should be. -/
theorem laid (h : Table s ws) (htexts : Texts x) (hid : w.record.id < 256 ^ 16)
    (hfresh : w.Fresh ws) {key : k.Key} {row : SealedSecret x}
    (hkey : k.derived sealing = .ok key)
    (hrow : sealedSecret k key w.drawn w.record = .ok row) :
    ∃ s', (EngineWrite.indexed [⟨.secret, .id (own ws w),
        some (Form.bytes { row with id := own ws w }.kept)⟩]).apply s w.now = .ok s' ∧
      Table s' (ws ++ [w]) := by
  obtain ⟨before, hrecord, hbefore⟩ := h.replaces hfresh
  have hof := RowOf.of_sealed hkey hrow (own ws w)
  have hname : row.name = x.name w.record.secret := hof.name
  have hset := @SealedSecret.set_ok x s { row with id := own ws w } before w.now hrecord
    (by rw [hname]; exact hbefore)
  obtain ⟨s', happly, hlaid⟩ := hset
  exact ⟨s', happly, h.named_laid htexts hid hof hlaid, h.sole_snoc hfresh,
    h.row_laid hfresh hof hlaid, h.bare_laid hof hlaid⟩

/-- A write that came out sealed its value. -/
theorem sealed_of_set {s' : Store} (hset : w.set s = .ok s') :
    ∃ key row, k.derived sealing = .ok key ∧ sealedSecret k key w.drawn w.record = .ok row := by
  simp only [SecretWrite.set, Secret.secretSet] at hset
  cases hkey : k.derived sealing with
  | error e => simp [hkey, bind, Except.bind] at hset
  | ok key =>
      cases hrow : sealedSecret k key w.drawn w.record with
      | error e => simp [hkey, hrow, bind, Except.bind] at hset
      | ok row => exact ⟨key, row, rfl, hrow⟩

/-- A write that seals its value makes it out and keeps the table, or is refused. -/
theorem set_eq (h : Table s ws) (htexts : Texts x) (hid : w.record.id < 256 ^ 16)
    (hfresh : w.Fresh ws) {key : k.Key} {row : SealedSecret x}
    (hkey : k.derived sealing = .ok key)
    (hrow : sealedSecret k key w.drawn w.record = .ok row) :
    ∃ s', w.set s = (match w.refused with | some e => .error e | none => .ok s') ∧
      Table s' (ws ++ [w]) := by
  obtain ⟨s', happly, htable⟩ := h.laid htexts hid hfresh hkey hrow
  refine ⟨s', ?_, htable⟩
  have hid : row.id = w.record.id := (SealedSecret.of_sealed hrow).1
  have hfound : Secret.secretId w.name s = idUnder w.name ws := h.named.secretId (htexts.name _)
  have hown : (Secret.secretId (x.asStr (x.name w.record.secret)) s).getD row.id = own ws w := by
    rw [hid]
    exact congrArg (·.getD w.record.id) hfound
  simp only [SecretWrite.set, Secret.secretSet, hkey, hrow, hown, happly, bind, Except.bind]
  cases w.refused <;> rfl

theorem written (h : Table s ws) (htexts : Texts x) (hid : w.record.id < 256 ^ 16)
    (hfresh : w.Fresh ws) {s' : Store} (hset : w.set s = .ok s') : Table s' (ws ++ [w]) := by
  obtain ⟨key, row, hkey, hrow⟩ := sealed_of_set hset
  obtain ⟨s'', heq, htable⟩ := h.set_eq htexts hid hfresh hkey hrow
  rw [hset] at heq
  cases hrefused : w.refused with
  | some e => simp [hrefused] at heq
  | none =>
      simp only [hrefused, Except.ok.injEq] at heq
      rw [heq]
      exact htable

/-- A run of writes, those that fail included, leaves the table of those that came out. -/
theorem run (h : Table s ws) (htexts : Texts x) (more : List (SecretWrite x k))
    (hids : ∀ w ∈ more, w.record.id < 256 ^ 16) (hfresh : FreshIds ws (s.secretsWritten more)) :
    Table (s.afterSecrets more) (ws ++ s.secretsWritten more) := by
  induction more generalizing s ws with
  | nil => simpa [Store.afterSecrets, Store.secretsWritten] using h
  | cons w more ih =>
      have hrest : ∀ v ∈ more, v.record.id < 256 ^ 16 :=
        fun v hv => hids v (List.mem_cons_of_mem w hv)
      cases hset : w.set s with
      | error e =>
          simp only [Store.afterSecrets, Store.secretsWritten, hset] at hfresh ⊢
          exact ih h hrest hfresh
      | ok s' =>
          simp only [Store.afterSecrets, Store.secretsWritten, hset, FreshIds] at hfresh ⊢
          have hnext := h.written htexts (hids w (by simp)) hfresh.1 hset
          have hdone := ih hnext hrest hfresh.2
          rwa [List.append_assoc] at hdone

/-- Writes that seal their values, and that no engine refuses, all come out. -/
theorem run_written (h : Table s ws) (htexts : Texts x) (more : List (SecretWrite x k))
    (hids : ∀ w ∈ more, w.record.id < 256 ^ 16) (hfresh : FreshIds ws more)
    (hsealed : ∀ w ∈ more, w.refused = none ∧ ∃ key row, k.derived sealing = .ok key ∧
      sealedSecret k key w.drawn w.record = .ok row) :
    s.secretsWritten more = more := by
  induction more generalizing s ws with
  | nil => rfl
  | cons w more ih =>
      obtain ⟨hrefused, key, row, hkey, hrow⟩ := hsealed w (by simp)
      obtain ⟨s', hset, htable⟩ := h.set_eq htexts (hids w (by simp)) hfresh.1 hkey hrow
      rw [hrefused] at hset
      have hrest := ih htable (fun v hv => hids v (List.mem_cons_of_mem w hv)) hfresh.2
        fun v hv => hsealed v (List.mem_cons_of_mem w hv)
      simp only [Store.secretsWritten, hset, hrest]

/-! ### What is read of it -/

theorem secretById (h : Table s ws) {name : String} {id : ℕ} {last : SecretWrite x k}
    (hid : idUnder name ws = some id) (hlast : lastUnder name ws = some last) :
    ∃ row, RowOf last id row ∧ Secret.secretById x id s = .ok (some row) := by
  obtain ⟨row, hrow, hrecord⟩ := h.row hid hlast
  refine ⟨row, hrow, ?_⟩
  have hget : s.get (.secret, .id id) = .ok (some (Form.bytes row.kept)) := by
    rw [Store.get, hrecord]
    rfl
  have hdecoded : decoded (some (Form.bytes row.kept)) = .ok (some row.kept) := rfl
  simp [Secret.secretById, hget, hdecoded, row.read_kept, bind, Except.bind, pure, Except.pure]

theorem of_secretById (h : Table s ws) {id : ℕ} {row : SealedSecret x}
    (hrow : Secret.secretById x id s = .ok (some row)) :
    ∃ last, lastUnder (x.asStr row.name) ws = some last ∧ RowOf last id row := by
  by_cases hbare : ∀ name, idUnder name ws ≠ some id
  · have hget : s.get (.secret, .id id) = .ok none := by
      rw [Store.get, h.bare id hbare]
    simp [Secret.secretById, hget, decoded, bind, Except.bind, pure, Except.pure] at hrow
  · push Not at hbare
    obtain ⟨name, hid⟩ := hbare
    obtain ⟨v, hmem, hv⟩ := mem_of_idUnder hid
    obtain ⟨last, hlast⟩ := lastUnder_of_mem hmem hv
    obtain ⟨row', hof, hread⟩ := h.secretById hid hlast
    rw [hread] at hrow
    obtain rfl := Option.some.inj (Except.ok.inj hrow)
    have hname : x.asStr row'.name = name := by
      rw [hof.name]
      exact (mem_of_lastUnder hlast).2
    exact ⟨last, by rw [hname]; exact hlast, hof⟩

end Table

/-! ## A map by name -/

/-- The secrets of a store are a map by name, of what some writes left. -/
structure SecretTable (s : Store) (ws : List (SecretWrite x k)) : Prop where
  read : ∀ name : x.Name, Secret.secretRead k name s = .ok (secretUnder (x.asStr name) ws)
  list : ∃ (names : List String) (entries : List (SecretEntry x)),
    names.Nodup ∧ (∀ name, name ∈ names ↔ ∃ w ∈ ws, w.name = name) ∧
      Secret.secretList x s = .ok entries ∧
      entries.map (fun entry => x.asStr entry.name) = names.take u32Max ∧
      ∀ entry ∈ entries,
        (secretUnder (x.asStr entry.name) ws).map secretEntry = some entry
  opens : ∀ id row, Secret.secretById x id s = .ok (some row) →
    ∃ key last, k.derived sealing = .ok key ∧ lastUnder (x.asStr row.name) ws = some last ∧
      ∀ name kind value,
        k.opened key (bound (x.asStr name) (x.word kind)) row.sealed = .ok value ↔
          name = x.name last.record.secret ∧ kind = x.secretKind last.record.secret ∧
            value = x.value last.record.secret

namespace Table

variable {s : Store} {ws : List (SecretWrite x k)}

theorem read (h : Table s ws) (htexts : Texts x) (name : x.Name) :
    Secret.secretRead k name s = .ok (secretUnder (x.asStr name) ws) := by
  have hfound := h.named.secretId (htexts.name name)
  cases hid : idUnder (x.asStr name) ws with
  | none =>
      rw [hid] at hfound
      simp [Secret.secretRead, hfound, secretUnder, hid, pure, Except.pure]
  | some id =>
      rw [hid] at hfound
      obtain ⟨v, hmem, hv⟩ := mem_of_idUnder hid
      obtain ⟨last, hlast⟩ := lastUnder_of_mem hmem hv
      obtain ⟨row, hof, hread⟩ := h.secretById hid hlast
      obtain ⟨key, hkey, -⟩ := hof.sealed
      simp [Secret.secretRead, hfound, hkey, hread, hof.opened hkey, secretUnder, hid, hlast, bind,
        Except.bind, pure, Except.pure]

/-- The rows of some names, each once and in their order. -/
theorem rows_of (h : Table s ws) (names : List String)
    (hnames : ∀ name ∈ names, ∃ id, idUnder name ws = some id) :
    ∃ rows : List (SealedSecret x),
      (names.filterMap fun name => idUnder name ws).mapM (fun id => Secret.secretById x id s) =
          .ok (rows.map some) ∧
        rows.map (fun row => x.asStr row.name) = names ∧
        ∀ row ∈ rows, (secretUnder (x.asStr row.name) ws).map secretEntry = some row.entry := by
  induction names with
  | nil => exact ⟨[], rfl, rfl, by simp⟩
  | cons name names ih =>
      obtain ⟨rows, hrows, hmap, hentries⟩ :=
        ih fun other hother => hnames other (List.mem_cons_of_mem name hother)
      obtain ⟨id, hid⟩ := hnames name (by simp)
      obtain ⟨v, hmem, hv⟩ := mem_of_idUnder hid
      obtain ⟨last, hlast⟩ := lastUnder_of_mem hmem hv
      obtain ⟨row, hof, hread⟩ := h.secretById hid hlast
      have hname : x.asStr row.name = name := by
        rw [hof.name]
        exact (mem_of_lastUnder hlast).2
      refine ⟨row :: rows, ?_, by simp [hname, hmap], ?_⟩
      · have hfirst : (name :: names).filterMap (fun name => idUnder name ws) =
            id :: names.filterMap fun name => idUnder name ws := by simp [hid]
        rw [hfirst, List.mapM_cons, hread, hrows]
        rfl
      · intro other hother
        rcases List.mem_cons.mp hother with rfl | hother
        · rw [hname, hof.entry]
          simp [secretUnder, hid, hlast]
        · exact hentries other hother

theorem list (h : Table s ws) :
    ∃ (names : List String) (entries : List (SecretEntry x)),
      names.Nodup ∧ (∀ name, name ∈ names ↔ ∃ w ∈ ws, w.name = name) ∧
        Secret.secretList x s = .ok entries ∧
        entries.map (fun entry => x.asStr entry.name) = names.take u32Max ∧
        ∀ entry ∈ entries,
          (secretUnder (x.asStr entry.name) ws).map secretEntry = some entry := by
  obtain ⟨names, hnodup, hmem, hfind⟩ := h.named.all
  have htaken : ∀ name ∈ names.take u32Max, ∃ id, idUnder name ws = some id :=
    fun name hname => (hmem name).mp (List.mem_of_mem_take hname)
  obtain ⟨rows, hrows, hmap, hentries⟩ := h.rows_of (names.take u32Max) htaken
  refine ⟨names, rows.map SealedSecret.entry, hnodup, ?_, ?_, ?_, ?_⟩
  · intro name
    rw [hmem name]
    constructor
    · rintro ⟨id, hid⟩
      exact mem_of_idUnder hid
    · rintro ⟨w, hw, hname⟩
      exact idUnder_of_mem hw hname
  · simp [Secret.secretList, hfind, hrows, bind, Except.bind, pure, Except.pure]
  · rw [List.map_map]
    exact hmap
  · intro entry hentry
    obtain ⟨row, hrow, rfl⟩ := List.mem_map.mp hentry
    exact hentries row hrow

theorem opens (h : Table s ws) (htexts : Texts x) {id : ℕ} {row : SealedSecret x}
    (hrow : Secret.secretById x id s = .ok (some row)) :
    ∃ key last, k.derived sealing = .ok key ∧ lastUnder (x.asStr row.name) ws = some last ∧
      ∀ name kind value,
        k.opened key (bound (x.asStr name) (x.word kind)) row.sealed = .ok value ↔
          name = x.name last.record.secret ∧ kind = x.secretKind last.record.secret ∧
            value = x.value last.record.secret := by
  obtain ⟨last, hlast, hof⟩ := h.of_secretById hrow
  obtain ⟨key, hkey, -⟩ := hof.sealed
  exact ⟨key, last, hkey, hlast, hof.opened_iff htexts hkey⟩

theorem secretTable (h : Table s ws) (htexts : Texts x) : SecretTable s ws :=
  ⟨h.read htexts, h.list, fun _ _ => h.opens htexts⟩

end Table

/-- After any run of writes, those that failed changed nothing, and the secrets are a map by name
of the others. -/
theorem secret_table (htexts : Texts x) (s : Store) (hnone : NoSecrets s)
    (ws : List (SecretWrite x k)) (hids : ∀ w ∈ ws, w.record.id < 256 ^ 16)
    (hfresh : FreshIds [] (s.secretsWritten ws)) :
    SecretTable (s.afterSecrets ws) (s.secretsWritten ws) :=
  ((Table.start hnone).run htexts ws hids hfresh).secretTable htexts

/-- A seal that shows all it keeps: what it was bound to, byte after byte, then the value. -/
def tagged : Bytes → Bytes → Bytes
  | [], value => 0 :: value
  | b :: bound, value => 1 :: b :: tagged bound value

def untagged : Bytes → Bytes → Except String Bytes
  | [], 0 :: value => .ok value
  | b :: bound, 1 :: c :: kept => if b = c then untagged bound kept else .error "its tag"
  | _, _ => .error "its tag"

theorem untagged_tagged (bound value : Bytes) : untagged bound (tagged bound value) = .ok value := by
  induction bound with
  | nil => rfl
  | cons b bound ih => simp [untagged, tagged, ih]

theorem untagged_ne {bound bound' : Bytes} (value : Bytes) (hne : bound' ≠ bound) :
    untagged bound' (tagged bound value) = .error "its tag" := by
  induction bound generalizing bound' with
  | nil =>
      cases bound' with
      | nil => exact absurd rfl hne
      | cons b bound' => rfl
  | cons b bound ih =>
      cases bound' with
      | nil => rfl
      | cons c bound' =>
          by_cases hfirst : c = b
          · subst hfirst
            have hrest : bound' ≠ bound := fun h => hne (by rw [h])
            simpa [tagged, untagged] using ih hrest
          · simp [tagged, untagged, hfirst]

def tagging : Sealing where
  Key := Unit
  Drawn := Unit
  derived _ := .ok ()
  sealed _ _ bound value := .ok (tagged bound value)
  opened _ bound kept := untagged bound kept
  opens := by
    rintro key drawn bound value kept ⟨⟩
    exact untagged_tagged bound value
  refuses := by
    rintro key drawn bound value kept bound' ⟨⟩ hne
    exact ⟨_, untagged_ne value hne⟩

/-- Passwords and certificates, under names whose length 32 bits hold. -/
def fitting : Secrets where
  Name := { name : String // (Value.text name).Fits }
  SecretKind := Bool
  Secret := { name : String // (Value.text name).Fits } × Bool × Bytes
  asStr name := name.val
  newName text := if h : (Value.text text).Fits then .ok ⟨text, h⟩ else .error "too long"
  word certificate := if certificate then "certificate" else "password"
  named word :=
    if word = "password" then some false else if word = "certificate" then some true else none
  name secret := secret.1
  secretKind secret := secret.2.1
  value secret := secret.2.2
  newSecret name kind value := .ok (name, kind, value)
  newName_asStr name := dif_pos name.property
  named_word := by decide
  newSecret_parts _ := rfl

theorem fitting_texts : Texts fitting where
  name name := name.property
  word certificate := by cases certificate <;> decide

/-- A secret set under a name, by an administrator. -/
def setting (id : ℕ) (name : { name : String // (Value.text name).Fits }) (certificate : Bool)
    (value : Bytes) (now : ℤ) : SecretWrite fitting tagging where
  record := ⟨id, (name, certificate, value), 0, "admin"⟩
  now := now
  drawn := ()

theorem ab_fits : (Value.text "ab").Fits := by decide

/-- Of names that are the start of one another: one set twice, one whose write the engine
refuses. -/
def settings : List (SecretWrite fitting tagging) :=
  [setting 7 ⟨"ab", ab_fits⟩ false [1] 10, setting 9 ⟨"a", by decide⟩ true [2] 11,
    { setting 5 ⟨"abc", by decide⟩ false [3] 12 with refused := some (.record "full") },
    setting 8 ⟨"ab", ab_fits⟩ true [4] 13]

theorem secret_table_settings :
    FreshIds [] (Store.empty.secretsWritten settings) ∧
      SecretTable (Store.empty.afterSecrets settings) (Store.empty.secretsWritten settings) := by
  have hfresh : FreshIds [] (Store.empty.secretsWritten settings) := by decide +kernel
  have hids : ∀ w ∈ settings, w.record.id < 256 ^ 16 := by decide
  exact ⟨hfresh, secret_table fitting_texts Store.empty ⟨fun _ => rfl, fun _ _ => rfl⟩ settings
    hids hfresh⟩

/-! ## More names than are listed -/

theorem bytes_length_le (words : String) : words.toUTF8.data.toList.length ≤ 4 * words.length := by
  have hencoded : words.toUTF8.data.toList = words.toList.flatMap String.utf8EncodeChar := by
    change words.toByteArray.data.toList = _
    rw [← String.utf8Encode_toList, List.utf8Encode]
    simp
  have hlength : words.length = words.toList.length := (String.length_toList).symm
  rw [hencoded, hlength]
  induction words.toList with
  | nil => simp
  | cons c cs ih =>
      have hsize : c.utf8Size ≤ 4 := c.utf8Size_le_four
      simp only [List.flatMap_cons, List.length_append, String.length_utf8EncodeChar,
        List.length_cons]
      omega

/-- A name of its own for each of many numbers. -/
def crowdName (i : ℕ) : { name : String // (Value.text name).Fits } :=
  if h : (Value.text (Nat.repr i)).Fits then ⟨Nat.repr i, h⟩ else ⟨"", by decide⟩

theorem crowdName_val {i : ℕ} (h : i < 10 ^ 10) : (crowdName i).val = Nat.repr i := by
  have hlength : (Nat.repr i).length ≤ 10 := (Nat.length_repr_le_iff (by decide)).mpr h
  have hbytes := bytes_length_le (Nat.repr i)
  have hfits : (Value.text (Nat.repr i)).Fits := by
    change _ ≤ u32Max
    have hmax : 40 ≤ u32Max := by decide
    omega
  rw [crowdName, dif_pos hfits]

/-- So many secrets, each of a name and an identifier of its own. -/
def crowd (n : ℕ) : List (SecretWrite fitting tagging) :=
  (List.range n).map fun i => setting i (crowdName i) false [] 0

theorem crowd_names {n : ℕ} (h : n ≤ 10 ^ 10) :
    (crowd n).map SecretWrite.name = (List.range n).map Nat.repr := by
  rw [crowd, List.map_map]
  apply List.map_congr_left
  intro i hi
  exact crowdName_val (lt_of_lt_of_le (List.mem_range.mp hi) h)

theorem crowd_ids (n : ℕ) : (crowd n).map (fun w => w.record.id) = List.range n := by
  rw [crowd, List.map_map]
  exact List.map_id _

theorem crowd_fresh (n : ℕ) : FreshIds [] (crowd n) := by
  apply FreshIds.of_nodup
  rw [List.nil_append, crowd_ids]
  exact List.nodup_range

theorem crowd_lt {n : ℕ} (h : n ≤ 256 ^ 16) : ∀ w ∈ crowd n, w.record.id < 256 ^ 16 := by
  intro w hw
  have hmem : w.record.id ∈ (crowd n).map fun w => w.record.id := List.mem_map.mpr ⟨w, hw, rfl⟩
  rw [crowd_ids] at hmem
  exact lt_of_lt_of_le (List.mem_range.mp hmem) h

theorem crowd_written {n : ℕ} (h : n ≤ 256 ^ 16) :
    Store.empty.secretsWritten (crowd n) = crowd n := by
  have hstart : Table Store.empty ([] : List (SecretWrite fitting tagging)) :=
    Table.start ⟨fun _ => rfl, fun _ _ => rfl⟩
  refine hstart.run_written fitting_texts (crowd n) (crowd_lt h) (crowd_fresh n) ?_
  intro w hw
  obtain ⟨i, -, rfl⟩ := List.mem_map.mp hw
  exact ⟨rfl, (), _, rfl, rfl⟩

/-- More secrets than are listed leave some name out. -/
theorem crowd_short {n : ℕ} (hmost : u32Max < n) (h : n ≤ 10 ^ 10) :
    ∃ w ∈ Store.empty.secretsWritten (crowd n), ∀ entries,
      Secret.secretList fitting (Store.empty.afterSecrets (crowd n)) = .ok entries →
        w.name ∉ entries.map fun entry => fitting.asStr entry.name := by
  have hids : n ≤ 256 ^ 16 := h.trans (by decide)
  have htable : Table (Store.empty.afterSecrets (crowd n)) (crowd n) := by
    have hrun := (Table.start ⟨fun _ => rfl, fun _ _ => rfl⟩).run fitting_texts (crowd n)
      (crowd_lt hids) (by rw [crowd_written hids]; exact crowd_fresh n)
    rwa [crowd_written hids] at hrun
  obtain ⟨names, entries, -, -, hlist, hnames, -⟩ := htable.list
  rw [crowd_written hids]
  by_contra hall
  push Not at hall
  have hlisted : (crowd n).map SecretWrite.name ⊆
      entries.map fun entry => fitting.asStr entry.name := by
    intro name hname
    obtain ⟨w, hw, rfl⟩ := List.mem_map.mp hname
    obtain ⟨entries', hlist', hmem⟩ := hall w hw
    rw [hlist] at hlist'
    rwa [← Except.ok.inj hlist'] at hmem
  have hdistinct : ((crowd n).map SecretWrite.name).Nodup := by
    rw [crowd_names h]
    refine List.nodup_range.map fun i j hsame => ?_
    have hdigits : Nat.toDigits 10 i = Nat.toDigits 10 j := by
      rw [← Nat.toList_repr, ← Nat.toList_repr, hsame]
    rw [← @Nat.ofDigitChars_ten_toDigits i, hdigits, Nat.ofDigitChars_ten_toDigits]
  -- as many names as writes, all of them among those listed
  have hcount := (hdistinct.subperm hlisted).length_le
  rw [hnames, crowd_names h, List.length_map, List.length_range, List.length_take] at hcount
  omega

/-- Of as many secrets as 32 bits count, and one more, a name is not listed. -/
theorem crowd_left_out :
    FreshIds [] (Store.empty.secretsWritten (crowd (u32Max + 1))) ∧
      (∀ w ∈ crowd (u32Max + 1), w.record.id < 256 ^ 16) ∧
      ∃ w ∈ Store.empty.secretsWritten (crowd (u32Max + 1)), ∀ entries,
        Secret.secretList fitting (Store.empty.afterSecrets (crowd (u32Max + 1))) = .ok entries →
          w.name ∉ entries.map fun entry => fitting.asStr entry.name := by
  have hmost : u32Max < u32Max + 1 := by decide
  have hsmall : u32Max + 1 ≤ 10 ^ 10 := by decide
  have hids : u32Max + 1 ≤ 256 ^ 16 := by decide
  generalize u32Max + 1 = n at *
  refine ⟨?_, crowd_lt hids, crowd_short hmost hsmall⟩
  rw [crowd_written hids]
  exact crowd_fresh n

end XmipPersist
