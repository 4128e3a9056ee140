import XmipPersist.Verification.Secret.Found

/-! # The row of a secret

A row written leaves itself and its index entry, and nothing else changed. What it keeps opens
under its own name and kind, and under no others.
-/

namespace XmipPersist

open Wire (Secrets SecretRecord SecretEntry)

variable {x : Secrets} {k : Sealing}

/-! ## What a value is bound to -/

/-- Names whose length 32 bits hold, and kinds whose words hold no zero byte. -/
structure Texts (x : Secrets) : Prop where
  name : ∀ name, (Value.text (x.asStr name)).Fits
  word : ∀ kind, 0 ∉ (x.word kind).toUTF8.data.toList

theorem asStr_inj {name name' : x.Name} (h : x.asStr name = x.asStr name') : name = name' := by
  have hname := x.newName_asStr name
  rw [h, x.newName_asStr name'] at hname
  exact (Except.ok.inj hname).symm

theorem bytes_inj {words words' : String}
    (h : words.toUTF8.data.toList = words'.toUTF8.data.toList) : words = words' :=
  String.toByteArray_inj.mp (ByteArray.ext (Array.toList_inj.mp h))

/-- Bytes are parted at their last zero. -/
theorem append_zero_inj {as bs as' bs' : Bytes} (hbs : 0 ∉ bs) (hbs' : 0 ∉ bs')
    (h : as ++ 0 :: bs = as' ++ 0 :: bs') : as = as' ∧ bs = bs' := by
  rcases List.append_eq_append_iff.mp h with ⟨rest, has, hrest⟩ | ⟨rest, has, hrest⟩
  · cases rest with
    | nil =>
        rw [List.append_nil] at has
        exact ⟨has.symm, (List.cons.inj hrest).2⟩
    | cons b rest =>
        have hmem : bs = rest ++ 0 :: bs' := (List.cons.inj hrest).2
        exact absurd (by simp [hmem]) hbs
  · cases rest with
    | nil =>
        rw [List.append_nil] at has
        exact ⟨has, (List.cons.inj hrest).2.symm⟩
    | cons b rest =>
        have hmem : bs' = rest ++ 0 :: bs := (List.cons.inj hrest).2
        exact absurd (by simp [hmem]) hbs'

/-- Two names and kinds that a value is bound to alike are the same. -/
theorem bound_inj (htexts : Texts x) {name name' : x.Name} {kind kind' : x.SecretKind}
    (h : bound (x.asStr name) (x.word kind) = bound (x.asStr name') (x.word kind')) :
    name = name' ∧ kind = kind' := by
  simp only [bound, List.append_assoc] at h
  obtain ⟨hname, hkind⟩ := append_zero_inj (htexts.word kind) (htexts.word kind')
    (List.append_cancel_left h)
  refine ⟨asStr_inj (bytes_inj hname), ?_⟩
  have hword := x.named_word kind
  rw [bytes_inj hkind, x.named_word kind'] at hword
  exact (Option.some.inj hword).symm

/-! ## A row written -/

namespace SealedSecret

theorem read_kept (row : SealedSecret x) : row.kept.read x = .ok row := by
  simp only [KeptSecret.read, kept, x.newName_asStr, x.named_word]

theorem entries_kept (row : SealedSecret x) :
    entries .secret (Columned.row row.kept) row.id =
      [Secret.byName.key [.text (x.asStr row.name)] row.id] := by
  simp [entries, Searched.indexes, Index.takes, Row.values, Row.value, Columned.row, kept,
    Secret.byName]

/-- A row as it is written, its time Xmip Storage's. -/
def stamped (row : SealedSecret x) (now : ℤ) : SealedSecret x :=
  { row with setUnixNanos := nanos now }

/-- A row's entry is its own name's, whatever its time. -/
def entryKey (row : SealedSecret x) : IndexKey :=
  Secret.byName.key [.text (x.asStr row.name)] row.id

theorem stamped_kept (row : SealedSecret x) (before : Option (SealedSecret x)) (now : ℤ) :
    Searched.secret.stamped (Form.bytes row.kept) (before.map fun old => Form.bytes old.kept)
        (nanos now) =
      .ok (Form.bytes (row.stamped now).kept, Columned.row (row.stamped now).kept, row.id) := by
  cases before <;> rfl

/-- A row laid out over what is kept under its identifier: its own name's, or nothing. -/
theorem laid_ok {row : SealedSecret x} {before : Option (SealedSecret x)} (now : ℤ)
    (hbefore : ∀ old ∈ before, old.name = row.name ∧ old.id = row.id) :
    ∃ gone : List IndexEntry, (∀ e ∈ gone, e.1 = row.entryKey) ∧
      laidOut ⟨.secret, .id row.id, some (Form.bytes row.kept)⟩
          (before.map fun old => Form.bytes old.kept) (nanos now) =
        .ok (⟨.secret, .id row.id, some (Form.bytes (row.stamped now).kept)⟩,
          gone ++ [(row.entryKey, some row.id)]) := by
  have hentries : entries .secret (Columned.row (row.stamped now).kept) row.id = [row.entryKey] :=
    (row.stamped now).entries_kept
  have hstamped := row.stamped_kept before now
  cases before with
  | none =>
      refine ⟨[], by simp, ?_⟩
      simp only [Option.map_none] at hstamped ⊢
      simp [laidOut, Searched.of, goneEntries, hstamped, hentries, bind, Except.bind, pure,
        Except.pure]
  | some old =>
      obtain ⟨hname, hid⟩ := hbefore old rfl
      have hold : entries .secret (Columned.row old.kept) old.id = [row.entryKey] := by
        rw [old.entries_kept, hname, hid, entryKey]
      have hrow : Searched.secret.row (Form.bytes old.kept) =
          .ok (Columned.row old.kept, old.id) := rfl
      refine ⟨[(row.entryKey, none)], by simp, ?_⟩
      simp only [Option.map_some] at hstamped ⊢
      simp [laidOut, Searched.of, goneEntries, hrow, hold, hstamped, hentries, bind, Except.bind,
        pure, Except.pure]

/-- A row is there, and so is its entry, and nothing else is changed. -/
structure Laid (s s' : Store) (row : SealedSecret x) : Prop where
  records : ∀ p, s'.records p =
    if p = (.secret, .id row.id) then some (Form.bytes row.kept) else s.records p
  entries : ∀ key, s'.entries.get key =
    if key = row.entryKey then some row.id else s.entries.get key

/-- A row is written over its own name's, or where there is none. -/
theorem set_ok {s : Store} {row : SealedSecret x} {before : Option (SealedSecret x)} (now : ℤ)
    (hrecord : s.records (.secret, .id row.id) = before.map fun old => Form.bytes old.kept)
    (hbefore : ∀ old ∈ before, old.name = row.name ∧ old.id = row.id) :
    ∃ s', (EngineWrite.indexed [⟨.secret, .id row.id, some (Form.bytes row.kept)⟩]).apply s now =
      .ok s' ∧ Laid s s' (row.stamped now) := by
  obtain ⟨gone, hgone, hlaid⟩ := laid_ok now hbefore
  have hget : s.get (.secret, .id row.id) = .ok (before.map fun old => Form.bytes old.kept) := by
    rw [Store.get, hrecord]
    cases before <;> rfl
  have hreplaced : replaced s.get [] ⟨.secret, .id row.id, some (Form.bytes row.kept)⟩ =
      .ok (before.map fun old => Form.bytes old.kept) := hget
  refine ⟨s.applyIndexed [⟨.secret, .id row.id, some (Form.bytes (row.stamped now).kept)⟩]
    (gone ++ [(row.entryKey, some row.id)]), ?_, ?_, ?_⟩
  · simp [EngineWrite.apply, writtenOver, hreplaced, hlaid, bind, Except.bind, pure, Except.pure]
  · intro p
    change _ = if p = (.secret, .id row.id) then _ else _
    by_cases hp : p = (.secret, .id row.id)
    · simp [Store.applyIndexed, written, Change.place, hp]
    · simp [Store.applyIndexed, written, Change.place, hp, Ne.symm hp]
  · intro key
    change _ = if key = row.entryKey then some row.id else _
    simp only [Store.applyIndexed, OrderedMap.apply_append, OrderedMap.apply_cons,
      OrderedMap.apply_nil, OrderedMap.get_change]
    by_cases hkey : key = row.entryKey
    · simp [hkey]
    · rw [if_neg hkey, if_neg hkey, OrderedMap.get_apply_of_notMem]
      intro hmem
      obtain ⟨e, he, rfl⟩ := List.mem_map.mp hmem
      exact hkey (hgone e he)

/-- What a sealed secret keeps of it, and that it opens to its value. -/
theorem of_sealed {key : k.Key} {drawn : k.Drawn} {record : SecretRecord x}
    {row : SealedSecret x} (h : sealedSecret k key drawn record = .ok row) :
    row.id = record.id ∧ row.name = x.name record.secret ∧
      row.secretKind = x.secretKind record.secret ∧ row.setBy = record.setBy ∧
      k.sealed key drawn
          (bound (x.asStr (x.name record.secret)) (x.word (x.secretKind record.secret)))
          (x.value record.secret) = .ok row.sealed := by
  simp only [sealedSecret] at h
  cases hsealed : k.sealed key drawn
      (bound (x.asStr (x.name record.secret)) (x.word (x.secretKind record.secret)))
      (x.value record.secret) with
  | error e => simp [hsealed, bind, Except.bind] at h
  | ok kept =>
      simp only [hsealed, bind, Except.bind, pure, Except.pure, Except.ok.injEq] at h
      subst h
      exact ⟨rfl, rfl, rfl, rfl, rfl⟩

end SealedSecret

/-! ## What a row opens to -/

/-- A row that a write sealed, under an identifier. -/
structure RowOf (w : SecretWrite x k) (id : ℕ) (row : SealedSecret x) : Prop where
  id : row.id = id
  name : row.name = x.name w.record.secret
  secretKind : row.secretKind = x.secretKind w.record.secret
  setUnixNanos : row.setUnixNanos = nanos w.now
  setBy : row.setBy = w.record.setBy
  sealed : ∃ key, k.derived sealing = .ok key ∧
    k.sealed key w.drawn
      (bound (x.asStr (x.name w.record.secret)) (x.word (x.secretKind w.record.secret)))
      (x.value w.record.secret) = .ok row.sealed

namespace RowOf

variable {w : SecretWrite x k} {id : ℕ} {row : SealedSecret x}

/-- What a write seals, under any identifier. -/
theorem of_sealed {key : k.Key} (hkey : k.derived sealing = .ok key)
    (hrow : sealedSecret k key w.drawn w.record = .ok row) (id : ℕ) :
    RowOf w id ({ row with id }.stamped w.now) := by
  obtain ⟨-, hname, hkind, hby, hsealed⟩ := SealedSecret.of_sealed hrow
  exact ⟨rfl, hname, hkind, rfl, hby, key, hkey, hsealed⟩

/-- It opens to its own value under its own name and kind, and under no others. -/
theorem opened_iff (h : RowOf w id row) (htexts : Texts x) {key : k.Key}
    (hkey : k.derived sealing = .ok key) (name : x.Name) (kind : x.SecretKind) (value : Bytes) :
    k.opened key (bound (x.asStr name) (x.word kind)) row.sealed = .ok value ↔
      name = x.name w.record.secret ∧ kind = x.secretKind w.record.secret ∧
        value = x.value w.record.secret := by
  obtain ⟨key', hkey', hsealed⟩ := h.sealed
  rw [hkey] at hkey'
  obtain rfl := Except.ok.inj hkey'
  constructor
  · intro hopened
    by_cases hbound : bound (x.asStr name) (x.word kind) =
        bound (x.asStr (x.name w.record.secret)) (x.word (x.secretKind w.record.secret))
    · obtain ⟨rfl, rfl⟩ := bound_inj htexts hbound
      rw [k.opens hsealed] at hopened
      exact ⟨rfl, rfl, (Except.ok.inj hopened).symm⟩
    · obtain ⟨reason, hrefused⟩ := k.refuses hsealed hbound
      rw [hrefused] at hopened
      cases hopened
  · rintro ⟨rfl, rfl, rfl⟩
    exact k.opens hsealed

theorem opened (h : RowOf w id row) {key : k.Key} (hkey : k.derived sealing = .ok key) :
    row.opened k key = .ok ⟨id, w.record.secret, nanos w.now, w.record.setBy⟩ := by
  obtain ⟨key', hkey', hsealed⟩ := h.sealed
  rw [hkey] at hkey'
  obtain rfl := Except.ok.inj hkey'
  rw [← h.name, ← h.secretKind] at hsealed
  have hparts := x.newSecret_parts w.record.secret
  rw [← h.name, ← h.secretKind] at hparts
  simp only [SealedSecret.opened, k.opens hsealed, hparts, h.id, h.setUnixNanos, h.setBy]

theorem entry (h : RowOf w id row) :
    row.entry = secretEntry ⟨id, w.record.secret, nanos w.now, w.record.setBy⟩ := by
  simp only [SealedSecret.entry, secretEntry, h.name, h.secretKind, h.setUnixNanos, h.setBy]

end RowOf

end XmipPersist
