import XmipPersist.Library.Failure
import XmipPersist.Library.Sealed
import XmipPersist.Verification.Encrypted.Place
import XmipPersist.Verification.Writer.Laid

/-! # What a store keeps, in the clear

Each record's value under its kind and key, and the record each index entry finds, in the order of
their keys. An operation of an encrypted store over an engine that keeps them so answers what they
say, or fails as its engine or its key does, and leaves the engine keeping what they become.
-/

namespace XmipPersist.EncryptedStore

/-! ## In the clear -/

structure Clear where
  records : String × Bytes → Option Bytes
  entries : OrderedMap Bytes ℕ

namespace Clear

def empty : Clear := ⟨fun _ => none, .empty⟩

def record (c : Clear) (change : RecordChange) : Clear :=
  { c with records := Function.update c.records (change.kind, change.key) change.value }

def indexed (c : Clear) (entries : List IndexEntry) : Clear :=
  { c with entries := c.entries.apply entries }

end Clear

/-- What a store keeps now, and what each view of it saw. -/
structure Clears where
  now : Clear
  views : List Clear

namespace Clears

def empty : Clears := ⟨.empty, []⟩

def viewed (c : Clears) (view : ℕ) : Clear := c.views.getD view c.now

/-- What an operation answers, and what is kept after it. -/
def perform (c : Clears) : Operation → Answer × Clears
  | .put kind key value => (.done, { c with now := c.now.record ⟨kind, key, some value⟩ })
  | .putNew kind key value =>
      if (c.now.records (kind, key)).isSome then (.new false, c)
      else (.new true, { c with now := c.now.record ⟨kind, key, some value⟩ })
  | .remove kind key => (.done, { c with now := c.now.record ⟨kind, key, none⟩ })
  | .apply changes => (.done, { c with now := changes.foldl Clear.record c.now })
  | .applyIndexed changes entries =>
      (.done, { c with now := (changes.foldl Clear.record c.now).indexed entries })
  | .get kind key => (.got (c.now.records (kind, key)), c)
  | .scanIndexKeyed first last most reverse =>
      (.found (c.now.entries.range first last most reverse), c)
  | .view => (.done, { c with views := c.views ++ [c.now] })
  | .getIn view kind key => (.got ((c.viewed view).records (kind, key)), c)
  | .scanIndexIn view first last most reverse =>
      (.found ((c.viewed view).entries.range first last most reverse), c)

end Clears

/-! ## What an operation names -/

/-- The records an operation names. -/
def Operation.names : Operation → Set (String × Bytes)
  | .put kind key _ | .putNew kind key _ | .remove kind key | .get kind key
  | .getIn _ kind key => {(kind, key)}
  | .apply changes | .applyIndexed changes _ =>
      {p | ∃ change ∈ changes, (change.kind, change.key) = p}
  | .scanIndexKeyed .. | .scanIndexIn .. | .view => ∅

/-- An operation whose entries find identifiers of 128 bits. -/
def Operation.Fits : Operation → Prop
  | .applyIndexed _ entries => ∀ entry ∈ entries, ∀ id ∈ entry.2, id < 256 ^ 16
  | _ => True

variable {k : DataKeys} {store : EncryptedStore k} {drawn : ℕ → k.Drawn} {engine engine' : Engine}
  {failure : Option String} {places : Set (String × Bytes)} {clear : Clear}

/-! ## Sealed and opened -/

/-- What is stored opens for a place to a value. -/
def Opens (store : EncryptedStore k) (place stored value : Bytes) : Prop :=
  ∃ sealed, stored = layout :: sealed ∧ k.opened store.record place sealed = .ok value

theorem Opens.opened {place stored value : Bytes} (h : store.Opens place stored value)
    (what : String) : store.opened engine place stored what = .ok value := by
  obtain ⟨sealed, rfl, hopened⟩ := h
  simp [EncryptedStore.opened, hopened]

theorem seal_opens {place value kept : Bytes} {drawn : k.Drawn}
    (h : store.seal' drawn place value = .ok kept) : store.Opens place kept value := by
  unfold seal' keyed at h
  cases hsealed : k.sealAfter store.record drawn [layout] place value with
  | error e => simp [hsealed] at h
  | ok made =>
      rw [hsealed] at h
      obtain rfl := Except.ok.inj h
      obtain ⟨body, rfl, hopened, -⟩ := k.sealed hsealed
      exact ⟨body, rfl, hopened⟩

/-- What the key fails to seal a value for its place with. -/
def sealFailure (store : EncryptedStore k) (drawn : ℕ → k.Drawn) (sealing : ℕ × Bytes × Bytes) :
    Option PersistError :=
  match k.sealAfter store.record (drawn sealing.1) [layout] sealing.2.1 sealing.2.2 with
  | .ok _ => none
  | .error e => some (.key e.words)

theorem seal_failed (store : EncryptedStore k) (drawn : ℕ → k.Drawn) (n : ℕ)
    (place value : Bytes) :
    failureOf (store.seal' (drawn n) place value) = store.sealFailure drawn (n, place, value) := by
  unfold seal' sealFailure keyed
  cases k.sealAfter store.record (drawn n) [layout] place value <;> rfl

theorem barring_failed {α : Type} (engine : Engine) (failure : Option String) (a : α) :
    failureOf (engine.barring failure a) = failure.map (.engine engine.name) := by
  cases failure <;> rfl

theorem barring_ok {α : Type} {a b : α} (h : engine.barring failure a = .ok b) : a = b := by
  cases failure with
  | none => exact Except.ok.inj h
  | some reason => cases h

/-! ## An engine that keeps it -/

/-- Of the records of `places` and of every index entry, an engine keeps what is there sealed,
under their own keys. -/
structure Represents (store : EncryptedStore k) (places : Set (String × Bytes)) (engine : Engine)
    (clear : Clear) : Prop where
  records : Sealed.Keeps (fun p : String × Bytes => store.lookupKey p.1 p.2)
    (fun p s v => store.Opens (place p.1 p.2).bytes s v) places clear.records engine.kept.get
  entries : Sealed.Keeps (fun key => index ++ key)
    (fun key s id => store.Opens (index ++ key) s (Octets.number 16 id) ∧ id < 256 ^ 16)
    Set.univ clear.entries.get engine.kept.get

theorem index_append_inj {key key' : Bytes} (h : index ++ key = index ++ key') : key = key' :=
  List.append_cancel_left h

namespace Represents

/-- A record written or removed, sealed for its place. -/
theorem record (h : Represents store places engine clear) (hapart : Apart k store.lookup places)
    (change : RecordChange) (hp : (change.kind, change.key) ∈ places) {sealed : Option Bytes}
    (hsealed : Option.Rel (fun v s => store.Opens (place change.kind change.key).bytes s v)
      change.value sealed) :
    Represents store places (engine.with' (store.lookupKey change.kind change.key) sealed)
      (clear.record change) where
  records := h.records.update hapart.told hp hsealed
  entries := by
    refine h.entries.other ?_ sealed
    rintro ⟨key, -, hkey⟩
    exact hapart.index _ hp ⟨key, hkey⟩

/-- An index entry set or taken out, sealed with its whole key. -/
theorem entry (h : Represents store places engine clear) (hapart : Apart k store.lookup places)
    {entry : IndexEntry} {sealed : Option Bytes}
    (hsealed : Option.Rel (fun id s => store.Opens (index ++ entry.1) s (Octets.number 16 id) ∧
      id < 256 ^ 16) entry.2 sealed) :
    Represents store places (engine.with' (index ++ entry.1) sealed) (clear.indexed [entry]) where
  records := by
    refine h.records.other ?_ sealed
    rintro ⟨p, hp, hkey⟩
    exact hapart.index p hp ⟨entry.1, hkey.symm⟩
  entries := h.entries.update (fun _ _ _ _ he => index_append_inj he) trivial hsealed

/-- Something of a store's own kept, or taken out. -/
theorem ownKept (h : Represents store places engine clear)
    (hapart : Apart k store.lookup places) {key : Bytes} (hown : own <+: key)
    (value : Option Bytes) : Represents store places (engine.with' key value) clear where
  records := by
    refine h.records.other ?_ value
    rintro ⟨p, hp, rfl⟩
    exact hapart.own p hp hown
  entries := by
    refine h.entries.other ?_ value
    rintro ⟨rest, -, rfl⟩
    exact index_not_own ⟨rest, rfl⟩ hown

end Represents

/-! ## A batch -/

theorem sealedFor_ok {place : Bytes} {drawn : k.Drawn} {value kept : Option Bytes}
    (h : store.sealedFor drawn place value = .ok kept) :
    Option.Rel (fun v s => store.Opens place s v) value kept := by
  cases value with
  | none =>
      obtain rfl := Except.ok.inj h
      exact .none
  | some value =>
      simp only [sealedFor] at h
      cases hsealed : store.seal' drawn place value with
      | error e => simp [hsealed, Except.map] at h
      | ok made =>
          rw [hsealed] at h
          obtain rfl := Except.ok.inj h
          exact .some (seal_opens hsealed)

theorem sealedFor_failed (store : EncryptedStore k) (drawn : ℕ → k.Drawn) (n : ℕ) (place : Bytes)
    (value : Option Bytes) :
    failureOf (store.sealedFor (drawn n) place value) =
      (value.toList.map fun v => (n, place, v)).findSome? (store.sealFailure drawn) := by
  cases value with
  | none => rfl
  | some value =>
      simp only [sealedFor, failureOf_map, seal_failed, Option.toList_some, List.map_singleton,
        List.findSome?_singleton]

theorem mapM_forall₂ {ε α β : Type} {f : α → Except ε β} {xs : List β} {ys : List α}
    (h : List.Forall₂ (fun x y => f y = .ok x) xs ys) : ys.mapM f = .ok xs := by
  induction h with
  | nil => rfl
  | cons hxy _ ih =>
      rw [List.mapM_cons, hxy, ih]
      rfl

/-- What changes are sealed with: which draw, their places and values. -/
def changeSealings : ℕ → List RecordChange → List (ℕ × Bytes × Bytes)
  | _, [] => []
  | n, change :: changes =>
      (change.value.toList.map fun v => (n, (place change.kind change.key).bytes, v)) ++
        changeSealings (n + 1) changes

def entrySealings : ℕ → List IndexEntry → List (ℕ × Bytes × Bytes)
  | _, [] => []
  | n, entry :: entries =>
      ((entry.2.map (Octets.number 16)).toList.map fun v => (n, index ++ entry.1, v)) ++
        entrySealings (n + 1) entries

theorem sealed_failed (store : EncryptedStore k) (drawn : ℕ → k.Drawn) (n : ℕ)
    (changes : List RecordChange) :
    failureOf (store.sealed drawn n changes) =
      (changeSealings n changes).findSome? (store.sealFailure drawn) := by
  induction changes generalizing n with
  | nil => rfl
  | cons change changes ih =>
      have hrest : ∀ value, failureOf (do
          let rest ← store.sealed drawn (n + 1) changes
          pure ((store.lookupKey change.kind change.key, value) :: rest)) =
            (changeSealings (n + 1) changes).findSome? (store.sealFailure drawn) := by
        intro value
        rw [failureOf_bind_pure]
        exact ih (n + 1)
      rw [EncryptedStore.sealed, failureOf_bind fun value _ => hrest value, sealedFor_failed,
        changeSealings, List.findSome?_append]

theorem sealedEntries_failed (store : EncryptedStore k) (drawn : ℕ → k.Drawn) (n : ℕ)
    (entries : List IndexEntry) :
    failureOf (store.sealedEntries drawn n entries) =
      (entrySealings n entries).findSome? (store.sealFailure drawn) := by
  induction entries generalizing n with
  | nil => rfl
  | cons entry entries ih =>
      have hrest : ∀ value, failureOf (do
          let rest ← store.sealedEntries drawn (n + 1) entries
          pure ((index ++ entry.1, value) :: rest)) =
            (entrySealings (n + 1) entries).findSome? (store.sealFailure drawn) := by
        intro value
        rw [failureOf_bind_pure]
        exact ih (n + 1)
      rw [EncryptedStore.sealedEntries, failureOf_bind fun value _ => hrest value, sealedFor_failed,
        entrySealings, List.findSome?_append]

/-- What an operation has its store seal, in order. -/
def Operation.sealings : Operation → List (ℕ × Bytes × Bytes)
  | .put kind key value | .putNew kind key value => [(0, (place kind key).bytes, value)]
  | .apply changes => changeSealings 0 changes
  | .applyIndexed changes entries =>
      changeSealings 0 changes ++ entrySealings changes.length entries
  | _ => []

namespace Represents

/-- Records changed, one after another, in one batch. -/
theorem sealed (h : Represents store places engine clear) (hapart : Apart k store.lookup places)
    {n : ℕ} {changes : List RecordChange}
    (hnames : ∀ change ∈ changes, (change.kind, change.key) ∈ places)
    {batch : List (Bytes × Option Bytes)} (hbatch : store.sealed drawn n changes = .ok batch) :
    Represents store places { engine with kept := engine.kept.apply batch }
      (changes.foldl Clear.record clear) := by
  induction changes generalizing n engine clear batch with
  | nil =>
      obtain rfl := Except.ok.inj hbatch
      exact h
  | cons change changes ih =>
      obtain ⟨value, hvalue, hbatch⟩ := bind_eq_ok.mp hbatch
      obtain ⟨rest, hrest, hbatch⟩ := bind_eq_ok.mp hbatch
      obtain rfl := Except.ok.inj hbatch
      have hnext := h.record hapart change (hnames change (by simp)) (sealedFor_ok hvalue)
      exact ih hnext (fun c hc => hnames c (by simp [hc])) hrest

/-- Index entries set and taken out, one after another, in one batch. -/
theorem sealedEntries (h : Represents store places engine clear)
    (hapart : Apart k store.lookup places) {n : ℕ} {entries : List IndexEntry}
    (hfits : ∀ entry ∈ entries, ∀ id ∈ entry.2, id < 256 ^ 16)
    {batch : List (Bytes × Option Bytes)}
    (hbatch : store.sealedEntries drawn n entries = .ok batch) :
    Represents store places { engine with kept := engine.kept.apply batch }
      (clear.indexed entries) := by
  induction entries generalizing n engine clear batch with
  | nil =>
      obtain rfl := Except.ok.inj hbatch
      exact h
  | cons entry entries ih =>
      obtain ⟨value, hvalue, hbatch⟩ := bind_eq_ok.mp hbatch
      obtain ⟨rest, hrest, hbatch⟩ := bind_eq_ok.mp hbatch
      obtain rfl := Except.ok.inj hbatch
      have hsealed : Option.Rel (fun id s => store.Opens (index ++ entry.1) s
          (Octets.number 16 id) ∧ id < 256 ^ 16) entry.2 value := by
        have hrel := sealedFor_ok hvalue
        cases hid : entry.2 with
        | none =>
            rw [hid] at hrel
            cases hrel
            exact .none
        | some id =>
            rw [hid] at hrel
            cases hrel with
            | some hopens => exact .some ⟨hopens, hfits entry (by simp) id (by simp [hid])⟩
      have hnext := h.entry hapart hsealed
      exact ih hnext (fun e he => hfits e (by simp [he])) hrest

/-! ## Reading -/

theorem getIn (h : Represents store places engine clear) {kind : String} {key : Bytes}
    (hp : (kind, key) ∈ places) :
    store.getIn engine failure kind key = engine.barring failure (clear.records (kind, key)) := by
  unfold EncryptedStore.getIn Engine.read
  cases failure with
  | some reason => rfl
  | none =>
      have hread : engine.barring none (engine.kept.get (store.lookupKey kind key)) =
          .ok (engine.kept.get (store.lookupKey kind key)) := rfl
      rw [hread]
      cases hkept : engine.kept.get (store.lookupKey kind key) with
      | none =>
          have hnone := h.records.read_none hp hkept
          rw [hnone]
          rfl
      | some stored =>
          obtain ⟨value, hvalue, hopens⟩ := h.records.read_some hp hkept
          rw [hvalue]
          simp only [bind, Except.bind, hopens.opened]
          rfl

theorem entryIn {key : Bytes} {id : ℕ} {found : Bytes × Bytes}
    (h : Sealed.Found (fun key => index ++ key) (fun key s id =>
      store.Opens (index ++ key) s (Octets.number 16 id) ∧ id < 256 ^ 16) (key, id) found) :
    store.entryIn engine found = .ok (key, id) := by
  obtain ⟨found, stored⟩ := found
  obtain ⟨rfl, hopens, hid⟩ := h
  have hlength : (Octets.number 16 id).length = 16 := Octets.length_number 16 id
  have hback : ofBigEndian ((Octets.number 16 id).map UInt8.toNat) = id := by
    rw [Octets.toNat_number, ofBigEndian_bigEndian hid]
  simp only [EncryptedStore.entryIn, hopens.opened, bind, Except.bind, hlength, if_true,
    List.drop_left, hback]
  rfl

theorem scanIndexIn (h : Represents store places engine clear) (first last : Bytes) (most : ℕ)
    (reverse : Bool) :
    store.scanIndexIn engine failure first last most reverse =
      engine.barring failure (clear.entries.range first last most reverse) := by
  unfold EncryptedStore.scanIndexIn Engine.scan
  cases failure with
  | some reason => rfl
  | none =>
      have hmono : StrictMono fun key : Bytes => index ++ key := fun a b hab =>
        append_left_lt_iff.mpr hab
      have hclosed : ∀ key stored, engine.kept.get key = some stored → index ++ first ≤ key →
          key ≤ index ++ last → key ∈ Set.range fun key : Bytes => index ++ key := by
        intro key stored _ hfirst hlast
        obtain ⟨rest, hrest⟩ := prefix_of_between hfirst hlast
        exact ⟨rest, hrest⟩
      have hfound := h.entries.range hmono hclosed most reverse
      have hread : engine.barring none (engine.kept.range (index ++ first) (index ++ last) most
            reverse) = .ok (engine.kept.range (index ++ first) (index ++ last) most reverse) := rfl
      rw [hread]
      exact mapM_forall₂ (hfound.imp fun e _ he => entryIn he)

end Represents

/-! ## One operation -/

/-- The engine an operation goes to: a view taken before, or the engine as it stands. -/
def Shared.through (s : Shared k) : Operation → Engine
  | .getIn view _ _ | .scanIndexIn view .. => s.viewed view
  | _ => s.engine

/-- What an operation fails with: the key's failure on the first value it does not seal, else the
engine's. -/
def Shared.failing (s : Shared k) (store : EncryptedStore k) (drawn : ℕ → k.Drawn)
    (failure : Option String) (operation : Operation) : Option PersistError :=
  (operation.sealings.findSome? (store.sealFailure drawn)).or
    (failure.map (.engine (s.through operation).name))

/-- What an encrypted store answers, and leaves, where it should: it failed as its key or its
engine does, or, where neither did, it answered what is kept in the clear. -/
def Performed (store : EncryptedStore k) (places : Set (String × Bytes)) (s : Shared k)
    (c : Clears) (fails : Option PersistError) (operation : Operation)
    (made : Except PersistError (Answer × Shared k)) : Prop :=
  match made with
  | .error e => fails = some e
  | .ok (answer, s') => fails = none ∧ answer = (c.perform operation).1 ∧
      s'.openings = s.openings ∧ Represents store places s'.engine (c.perform operation).2.now ∧
        List.Forall₂ (Represents store places) s'.views (c.perform operation).2.views

theorem forall₂_getD {α β : Type} {R : α → β → Prop} {xs : List α} {ys : List β}
    (h : List.Forall₂ R xs ys) {x : α} {y : β} (hxy : R x y) (n : ℕ) :
    R (xs.getD n x) (ys.getD n y) := by
  induction h generalizing n with
  | nil => exact hxy
  | cons hab _ ih =>
      cases n with
      | zero => exact hab
      | succ n => exact ih n

section Perform

variable {s : Shared k} {c : Clears}

/-- An operation that writes, where its write fails and leaves what it should. -/
theorem Performed.writes {fails : Option PersistError} {operation : Operation}
    {made : Except PersistError Engine}
    (hviews : List.Forall₂ (Represents store places) s.views c.views)
    (hanswer : (c.perform operation).1 = .done)
    (hkept : (c.perform operation).2.views = c.views) (hfails : failureOf made = fails)
    (hmade : ∀ engine, made = .ok engine →
      Represents store places engine (c.perform operation).2.now) :
    Performed store places s c fails operation (do
      let engine ← made
      pure (.done, { s with engine })) := by
  cases made with
  | error e => exact hfails.symm
  | ok engine =>
      exact ⟨hfails.symm, hanswer.symm, rfl, hmade engine rfl, by rw [hkept]; exact hviews⟩

/-- An operation that reads, through the engine as it stands or a view. -/
theorem Performed.reads {α : Type} {fails : Option PersistError} {operation : Operation}
    {read : Except PersistError α} {a : α} {answer : α → Answer}
    (hnow : Represents store places s.engine c.now)
    (hviews : List.Forall₂ (Represents store places) s.views c.views)
    (hperform : c.perform operation = (answer a, c))
    (hread : read = engine.barring failure a)
    (hfails : failure.map (.engine engine.name) = fails) :
    Performed store places s c fails operation (do
      let value ← read
      pure (answer value, s)) := by
  subst hread hfails
  cases failure with
  | some reason => exact rfl
  | none =>
      have hsame : Performed store places s c none operation (.ok (answer a, s)) := by
        rw [Performed, hperform]
        exact ⟨rfl, rfl, rfl, hnow, hviews⟩
      exact hsame

/-- What an operation that only seals values and writes them fails with. -/
theorem write_failed {α : Type} {x : Except PersistError α} {write : α → Except PersistError Engine}
    {sealings : List (ℕ × Bytes × Bytes)}
    (hx : failureOf x = sealings.findSome? (store.sealFailure drawn))
    (hwrite : ∀ a, failureOf (write a) = failure.map (.engine engine.name)) :
    failureOf (x >>= write) = (sealings.findSome? (store.sealFailure drawn)).or
      (failure.map (.engine engine.name)) := by
  rw [failureOf_bind fun a _ => hwrite a, hx]

theorem seal_one_failed (store : EncryptedStore k) (drawn : ℕ → k.Drawn) (n : ℕ)
    (place value : Bytes) : failureOf (store.seal' (drawn n) place value) =
      [(n, place, value)].findSome? (store.sealFailure drawn) := by
  rw [seal_failed, List.findSome?_singleton]

/-- Every operation of a store over an engine that keeps what is in the clear fails as the key or
the engine does, or answers what is in the clear and leaves the engine keeping what it becomes. -/
theorem perform_performed (drawn : ℕ → k.Drawn) (failure : Option String)
    (hapart : Apart k store.lookup places)
    (hnow : Represents store places s.engine c.now)
    (hviews : List.Forall₂ (Represents store places) s.views c.views) {operation : Operation}
    (hnames : operation.names ⊆ places) (hfits : operation.Fits) :
    Performed store places s c (s.failing store drawn failure operation) operation
      (s.perform store drawn failure operation) := by
  have hview : ∀ view, Represents store places (s.viewed view) (c.viewed view) :=
    fun view => forall₂_getD hviews hnow view
  cases operation with
  | put kind key value =>
      have hp : (kind, key) ∈ places := hnames rfl
      refine Performed.writes hviews rfl rfl ?_ fun engine he => ?_
      · exact write_failed (seal_one_failed store drawn 0 _ value) fun _ => barring_failed ..
      · obtain ⟨sealed, hsealed, he⟩ := bind_eq_ok.mp he
        obtain rfl := barring_ok he
        exact hnow.record hapart ⟨kind, key, some value⟩ hp
          (.some (seal_opens hsealed))
  | putNew kind key value =>
      have hp : (kind, key) ∈ places := hnames rfl
      have hfails := seal_one_failed store drawn 0 (place kind key).bytes value
      simp only [Shared.perform, putNew, Engine.writeNew, Shared.failing, Operation.sealings,
        Shared.through, ← hfails]
      cases hsealed : store.seal' (drawn 0) (place kind key).bytes value with
      | error e => exact rfl
      | ok sealed =>
          have hmade : ∀ made, Performed store places s c none (.putNew kind key value)
              (.ok (.new made.1, { s with engine := made.2 })) → Performed store places s c
                (failure.map (.engine s.engine.name)) (.putNew kind key value) (do
                  let (written, engine) ← s.engine.barring failure made
                  pure (.new written, { s with engine })) := by
            intro made hdone
            cases failure with
            | some reason => exact rfl
            | none => exact hdone
          apply hmade
          cases hkept : s.engine.kept.get (store.lookupKey kind key) with
          | none =>
              have hnone := hnow.records.read_none hp hkept
              have hperform : c.perform (.putNew kind key value) =
                  (.new true, { c with now := c.now.record ⟨kind, key, some value⟩ }) := by
                simp [Clears.perform, hnone]
              rw [Performed, hperform]
              exact ⟨rfl, rfl, rfl, hnow.record hapart ⟨kind, key, some value⟩ hp
                (.some (seal_opens hsealed)), hviews⟩
          | some stored =>
              obtain ⟨kept, hvalue, -⟩ := hnow.records.read_some hp hkept
              have hperform : c.perform (.putNew kind key value) = (.new false, c) := by
                simp [Clears.perform, hvalue]
              rw [Performed, hperform]
              exact ⟨rfl, rfl, rfl, hnow, hviews⟩
  | remove kind key =>
      have hp : (kind, key) ∈ places := hnames rfl
      refine Performed.writes hviews rfl rfl (barring_failed ..) fun engine he => ?_
      obtain rfl := barring_ok he
      exact hnow.record hapart ⟨kind, key, none⟩ hp .none
  | apply changes =>
      refine Performed.writes hviews rfl rfl ?_ fun engine he => ?_
      · exact write_failed (sealed_failed store drawn 0 changes) fun _ => barring_failed ..
      · obtain ⟨batch, hbatch, he⟩ := bind_eq_ok.mp he
        obtain rfl := barring_ok he
        exact hnow.sealed hapart (fun change hc => hnames ⟨change, hc, rfl⟩) hbatch
  | applyIndexed changes entries =>
      refine Performed.writes hviews rfl rfl ?_ fun engine he => ?_
      · refine write_failed ?_ fun _ => barring_failed ..
        have hmore : ∀ batch, failureOf (do
            let indexed ← store.sealedEntries drawn changes.length entries
            pure (batch ++ indexed)) =
              (entrySealings changes.length entries).findSome? (store.sealFailure drawn) := by
          intro batch
          rw [failureOf_bind_pure, sealedEntries_failed]
        rw [EncryptedStore.indexed, failureOf_bind fun batch _ => hmore batch, sealed_failed,
          Operation.sealings, List.findSome?_append]
      · obtain ⟨indexed, hindexed, he⟩ := bind_eq_ok.mp he
        obtain ⟨batch, hbatch, hindexed⟩ := bind_eq_ok.mp hindexed
        obtain ⟨more, hmore, hindexed⟩ := bind_eq_ok.mp hindexed
        obtain rfl := Except.ok.inj hindexed
        obtain rfl := barring_ok he
        have hrecords := hnow.sealed hapart (fun change hc => hnames ⟨change, hc, rfl⟩) hbatch
        have hboth := hrecords.sealedEntries hapart hfits hmore
        simp only [← OrderedMap.apply_append] at hboth
        exact hboth
  | get kind key => exact Performed.reads hnow hviews rfl (hnow.getIn (hnames rfl)) rfl
  | scanIndexKeyed first last most reverse =>
      exact Performed.reads hnow hviews rfl (hnow.scanIndexIn first last most reverse) rfl
  | view =>
      simp only [Shared.perform, Engine.view]
      cases failure with
      | some reason => exact rfl
      | none => exact ⟨rfl, rfl, rfl, hnow, List.rel_append hviews (.cons hnow .nil)⟩
  | getIn view kind key =>
      exact Performed.reads hnow hviews rfl ((hview view).getIn (hnames rfl)) rfl
  | scanIndexIn view first last most reverse =>
      exact Performed.reads hnow hviews rfl ((hview view).scanIndexIn first last most reverse) rfl

end Perform

end XmipPersist.EncryptedStore
