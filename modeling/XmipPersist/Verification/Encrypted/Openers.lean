import XmipPersist.Verification.Encrypted.Clear

/-! # The openers of one engine come to one data key

Whoever gets there first keeps its key, as one step of the engine, and everyone else is given that
one. No operation of a store writes where it is kept.
-/

namespace XmipPersist.EncryptedStore

variable {k : DataKeys}

/-! ## An opener's step -/

/-- Where an opener holds a store, it is the one of a data key. -/
def Opening.Of (data : k.Key) (opening : Opening k) : Prop :=
  ∀ store, opening = .holds store → derived data = .ok store

def Opening.Unheld (opening : Opening k) : Prop := ∀ store, opening ≠ .holds store

namespace Opening

variable {drawn : ℕ → k.Drawn} {failure : Option String} {engine : Engine} {opening : Opening k}
  {data : k.Key}

theorem keyedBy_of (data : k.Key) : (keyedBy (.ok data)).Of data := by
  intro store h
  cases hderived : derived data with
  | error e => simp [keyedBy, bind, Except.bind, hderived] at h
  | ok made =>
      simp only [keyedBy, bind, Except.bind, hderived] at h
      rw [Opening.holds.inj h]

/-- What a key home unwraps is the key that was wrapped, or nothing. -/
theorem keyedBy_unwrap {kek kek' : k.KekName} {drawn : k.Drawn} {wrapped : Bytes}
    (hwrapped : k.wrap kek drawn data = .ok wrapped) :
    (keyedBy (keyed (k.unwrap kek' wrapped))).Of data := by
  cases hunwrap : k.unwrap kek' wrapped with
  | error e =>
      intro store h
      simp [keyedBy, keyed, bind, Except.bind] at h
  | ok key =>
      obtain rfl := k.unwrapped hwrapped hunwrap
      exact keyedBy_of key

theorem barring_eq {α : Type} {a : α} :
    engine.barring failure a = .ok a ∨ ∃ e, engine.barring failure a = .error e := by
  cases failure with
  | none => exact .inl rfl
  | some reason => exact .inr ⟨_, rfl⟩

/-- An opener that holds no store is any data key's. -/
theorem Unheld.of (h : opening.Unheld) : opening.Of data := by
  intro store hholds
  exact absurd hholds (h store)

theorem creates_unheld (kek : k.KekName) : (creates kek : Opening k).Unheld := by
  intro store h
  cases h

theorem again_unheld (kek : k.KekName) : (again kek : Opening k).Unheld := by
  intro store h
  cases h

theorem failed_unheld (e : PersistError) : (failed e : Opening k).Unheld := by
  intro store h
  cases h

theorem of_failed (e : PersistError) : (failed e : Opening k).Of data :=
  (failed_unheld e).of

/-- Where a data key is kept, an opener comes to that one or to none, and leaves the engine. -/
theorem step_of (drawn : ℕ → k.Drawn) (failure : Option String) {kek : k.KekName}
    {drawn' : k.Drawn} {wrapped : Bytes}
    (hkept : engine.kept.get dataKey = some wrapped)
    (hwrapped : k.wrap kek drawn' data = .ok wrapped) (h : opening.Of data) :
    (opening.step drawn failure engine).1.Of data ∧
      (opening.step drawn failure engine).2 = engine := by
  have hread : engine.read failure dataKey = .ok (some wrapped) ∨
      ∃ e, engine.read failure dataKey = .error e := by
    rw [← hkept]
    exact barring_eq
  cases opening with
  | begun kek' =>
      rcases hread with hread | ⟨e, hread⟩
      · simp only [step, hread]
        exact ⟨keyedBy_unwrap hwrapped, trivial⟩
      · simp only [step, hread]
        exact ⟨of_failed e, trivial⟩
  | creates kek' =>
      simp only [step]
      cases k.wrap kek' (drawn 1) (k.generate (drawn 0)) with
      | error e => exact ⟨of_failed _, rfl⟩
      | ok fresh =>
          have hwrite : engine.writeNew failure dataKey fresh = .ok (false, engine) ∨
              ∃ e, engine.writeNew failure dataKey fresh = .error e := by
            simp only [Engine.writeNew, hkept]
            exact barring_eq
          rcases hwrite with hwrite | ⟨e, hwrite⟩
          · simp only [hwrite]
            exact ⟨(again_unheld kek').of, trivial⟩
          · simp only [hwrite]
            exact ⟨of_failed e, trivial⟩
  | again kek' =>
      rcases hread with hread | ⟨e, hread⟩
      · simp only [step, hread]
        exact ⟨keyedBy_unwrap hwrapped, trivial⟩
      · simp only [step, hread]
        exact ⟨of_failed e, trivial⟩
  | holds store => exact ⟨h, rfl⟩
  | failed e => exact ⟨of_failed e, rfl⟩

/-- Where none is kept, an opener leaves the engine and comes to none, or keeps its own there. -/
theorem step_unheld (drawn : ℕ → k.Drawn) (failure : Option String)
    (hkept : engine.kept.get dataKey = none) (h : opening.Unheld) :
    (opening.step drawn failure engine).1.Unheld ∧
        (opening.step drawn failure engine).2 = engine ∨
      ∃ kek wrapped, k.wrap kek (drawn 1) (k.generate (drawn 0)) = .ok wrapped ∧
        (opening.step drawn failure engine).1.Of (k.generate (drawn 0)) ∧
        (opening.step drawn failure engine).2 = engine.with' dataKey (some wrapped) := by
  have hread : engine.read failure dataKey = .ok none ∨
      ∃ e, engine.read failure dataKey = .error e := by
    rw [← hkept]
    exact barring_eq
  cases opening with
  | begun kek =>
      rcases hread with hread | ⟨e, hread⟩
      · exact .inl (by simp only [step, hread]; exact ⟨creates_unheld kek, trivial⟩)
      · exact .inl (by simp only [step, hread]; exact ⟨failed_unheld e, trivial⟩)
  | creates kek =>
      simp only [step]
      cases hwrap : k.wrap kek (drawn 1) (k.generate (drawn 0)) with
      | error e => exact .inl ⟨failed_unheld _, rfl⟩
      | ok wrapped =>
          have hwrite : engine.writeNew failure dataKey wrapped =
              .ok (true, engine.with' dataKey (some wrapped)) ∨
                ∃ e, engine.writeNew failure dataKey wrapped = .error e := by
            simp only [Engine.writeNew, hkept]
            exact barring_eq
          rcases hwrite with hwrite | ⟨e, hwrite⟩
          · refine .inr ⟨kek, wrapped, hwrap, ?_⟩
            simp only [hwrite]
            exact ⟨keyedBy_of _, trivial⟩
          · exact .inl (by simp only [hwrite]; exact ⟨failed_unheld e, trivial⟩)
  | again kek =>
      rcases hread with hread | ⟨e, hread⟩
      · exact .inl (by simp only [step, hread]; exact ⟨failed_unheld _, trivial⟩)
      · exact .inl (by simp only [step, hread]; exact ⟨failed_unheld _, trivial⟩)
  | holds store => exact absurd rfl (h store)
  | failed e => exact .inl ⟨h, rfl⟩

end Opening

/-! ## What no operation writes -/

section Frame

variable {store : EncryptedStore k} {drawn : ℕ → k.Drawn} {failure : Option String}
  {engine : Engine}

theorem with_get_of_ne (engine : Engine) {key key' : Bytes} (h : key ≠ key')
    (value : Option Bytes) :
    (engine.with' key' value).kept.get key = engine.kept.get key := by
  simp [Engine.with', h]

theorem sealed_ne_dataKey {n : ℕ} {changes : List RecordChange}
    {batch : List (Bytes × Option Bytes)} (h : store.sealed drawn n changes = .ok batch) :
    ∀ c ∈ batch, c.1 ≠ dataKey := by
  induction changes generalizing n batch with
  | nil =>
      obtain rfl := Except.ok.inj h
      simp
  | cons change changes ih =>
      obtain ⟨value, -, h⟩ := bind_eq_ok.mp h
      obtain ⟨rest, hrest, h⟩ := bind_eq_ok.mp h
      obtain rfl := Except.ok.inj h
      intro c hc
      rcases List.mem_cons.mp hc with rfl | hc
      · exact lookupKey_ne_dataKey store change.kind change.key
      · exact ih hrest c hc

theorem sealedEntries_ne_dataKey {n : ℕ} {entries : List IndexEntry}
    {batch : List (Bytes × Option Bytes)} (h : store.sealedEntries drawn n entries = .ok batch) :
    ∀ c ∈ batch, c.1 ≠ dataKey := by
  induction entries generalizing n batch with
  | nil =>
      obtain rfl := Except.ok.inj h
      simp
  | cons entry entries ih =>
      obtain ⟨value, -, h⟩ := bind_eq_ok.mp h
      obtain ⟨rest, hrest, h⟩ := bind_eq_ok.mp h
      obtain rfl := Except.ok.inj h
      intro c hc
      rcases List.mem_cons.mp hc with rfl | hc
      · exact index_ne_dataKey entry.1
      · exact ih hrest c hc

theorem apply_dataKey {batch : List (Bytes × Option Bytes)} (h : ∀ c ∈ batch, c.1 ≠ dataKey) :
    (engine.kept.apply batch).get dataKey = engine.kept.get dataKey := by
  apply OrderedMap.get_apply_of_notMem
  intro hmem
  obtain ⟨c, hc, hkey⟩ := List.mem_map.mp hmem
  exact h c hc hkey

/-- An operation leaves the data key where it is, and every opener. -/
theorem perform_dataKey {s s' : Shared k} {operation : Operation} {answer : Answer}
    (h : s.perform store drawn failure operation = .ok (answer, s')) :
    s'.engine.kept.get dataKey = s.engine.kept.get dataKey ∧ s'.openings = s.openings := by
  cases operation with
  | put kind key value =>
      obtain ⟨engine, he, h⟩ := bind_eq_ok.mp h
      obtain ⟨sealed, -, he⟩ := bind_eq_ok.mp he
      obtain rfl := barring_ok he
      cases h
      exact ⟨with_get_of_ne _ (lookupKey_ne_dataKey store kind key).symm _, rfl⟩
  | putNew kind key value =>
      obtain ⟨⟨written, engine⟩, he, h⟩ := bind_eq_ok.mp h
      obtain ⟨sealed, -, he⟩ := bind_eq_ok.mp he
      have hmade := barring_ok he
      cases h
      cases hkept : s.engine.kept.get (store.lookupKey kind key) with
      | some stored =>
          simp only [hkept] at hmade
          cases hmade
          exact ⟨rfl, rfl⟩
      | none =>
          simp only [hkept] at hmade
          cases hmade
          exact ⟨with_get_of_ne _ (lookupKey_ne_dataKey store kind key).symm _, rfl⟩
  | remove kind key =>
      obtain ⟨engine, he, h⟩ := bind_eq_ok.mp h
      obtain rfl := barring_ok he
      cases h
      exact ⟨with_get_of_ne _ (lookupKey_ne_dataKey store kind key).symm _, rfl⟩
  | apply changes =>
      obtain ⟨engine, he, h⟩ := bind_eq_ok.mp h
      obtain ⟨batch, hbatch, he⟩ := bind_eq_ok.mp he
      obtain rfl := barring_ok he
      cases h
      exact ⟨apply_dataKey (sealed_ne_dataKey hbatch), rfl⟩
  | applyIndexed changes entries =>
      obtain ⟨engine, he, h⟩ := bind_eq_ok.mp h
      obtain ⟨indexed, hindexed, he⟩ := bind_eq_ok.mp he
      obtain ⟨batch, hbatch, hindexed⟩ := bind_eq_ok.mp hindexed
      obtain ⟨more, hmore, hindexed⟩ := bind_eq_ok.mp hindexed
      cases hindexed
      obtain rfl := barring_ok he
      cases h
      refine ⟨apply_dataKey fun c hc => ?_, rfl⟩
      rcases List.mem_append.mp hc with hc | hc
      · exact sealed_ne_dataKey hbatch c hc
      · exact sealedEntries_ne_dataKey hmore c hc
  | get kind key =>
      obtain ⟨value, -, h⟩ := bind_eq_ok.mp h
      cases h
      exact ⟨rfl, rfl⟩
  | scanIndexKeyed first last most reverse =>
      obtain ⟨value, -, h⟩ := bind_eq_ok.mp h
      cases h
      exact ⟨rfl, rfl⟩
  | view =>
      obtain ⟨value, -, h⟩ := bind_eq_ok.mp h
      cases h
      exact ⟨rfl, rfl⟩
  | getIn view kind key =>
      obtain ⟨value, -, h⟩ := bind_eq_ok.mp h
      cases h
      exact ⟨rfl, rfl⟩
  | scanIndexIn view first last most reverse =>
      obtain ⟨value, -, h⟩ := bind_eq_ok.mp h
      cases h
      exact ⟨rfl, rfl⟩

end Frame

/-! ## Over a run -/

/-- An event that leaves alone what is kept under `key`, where it reaches past the store. -/
def Event.Spares (key : Bytes) : Event k → Prop
  | .keeps key' _ | .tampers key' _ => key' ≠ key
  | _ => True

/-- No data key is kept, and no opener holds a store. -/
structure Shared.Unopened (s : Shared k) : Prop where
  kept : s.engine.kept.get dataKey = none
  unheld : ∀ opener opening, s.openings opener = some opening → opening.Unheld

/-- A data key is kept wrapped, and every opener that holds a store holds its. -/
structure Shared.Under (s : Shared k) (data : k.Key) (wrapped : Bytes) : Prop where
  kept : s.engine.kept.get dataKey = some wrapped
  wrapped : ∃ kek drawn, k.wrap kek drawn data = .ok wrapped
  held : ∀ opener opening, s.openings opener = some opening → opening.Of data

namespace Shared

variable {s : Shared k} {event : Event k} {data : k.Key} {wrapped : Bytes}

/-- Of the openers once one has come to something, each has what is told of it and the others. -/
theorem openings_update {P : Opening k → Prop} {openings : ℕ → Option (Opening k)} {opener : ℕ}
    {next : Opening k} (hnext : P next)
    (h : ∀ opener opening, openings opener = some opening → P opening) :
    ∀ other opening, Function.update openings opener (some next) other = some opening →
      P opening := by
  intro other opening hother
  by_cases he : other = opener
  · subst he
    rw [Function.update_self] at hother
    rwa [← Option.some.inj hother]
  · rw [Function.update_of_ne he] at hother
    exact h other opening hother

theorem Under.after (h : s.Under data wrapped) (event : Event k)
    (hspares : event.Spares dataKey) :
    (s.after event).Under data wrapped := by
  obtain ⟨kek, drawn', hwrapped⟩ := h.wrapped
  cases event with
  | opens opener kek' =>
      refine ⟨h.kept, h.wrapped, openings_update ?_ h.held⟩
      intro store hholds
      cases hholds
  | steps opener drawn failure =>
      cases hopening : s.openings opener with
      | none =>
          simp only [Shared.after, hopening]
          exact h
      | some opening =>
          have hstep := Opening.step_of drawn failure h.kept hwrapped
            (h.held opener opening hopening)
          simp only [Shared.after, hopening]
          refine ⟨?_, h.wrapped, openings_update hstep.1 h.held⟩
          simp only [hstep.2]
          exact h.kept
  | asks opener operation drawn failure =>
      simp only [Shared.after]
      split
      · next store hopening =>
          split
          · next answer s' hmade =>
              obtain ⟨hkept, hopenings⟩ := perform_dataKey hmade
              exact ⟨hkept.trans h.kept, h.wrapped, by rw [hopenings]; exact h.held⟩
          · exact h
      · exact h
  | keeps key value =>
      have hkept := with_get_of_ne s.engine (Ne.symm hspares) value
      exact ⟨hkept.trans h.kept, h.wrapped, h.held⟩
  | tampers key value =>
      have hkept := with_get_of_ne s.engine (Ne.symm hspares) value
      exact ⟨hkept.trans h.kept, h.wrapped, h.held⟩

theorem Unopened.after (h : s.Unopened) (hspares : event.Spares dataKey) :
    (s.after event).Unopened ∨ ∃ data wrapped, (s.after event).Under data wrapped := by
  cases event with
  | opens opener kek' => exact .inl ⟨h.kept, openings_update nofun h.unheld⟩
  | steps opener drawn failure =>
      cases hopening : s.openings opener with
      | none =>
          simp only [Shared.after, hopening]
          exact .inl h
      | some opening =>
          simp only [Shared.after, hopening]
          rcases Opening.step_unheld drawn failure h.kept
            (h.unheld opener opening hopening) with ⟨hnext, hengine⟩ | ⟨kek, wrapped, hwrap, hnext,
              hengine⟩
          · refine .inl ⟨?_, openings_update hnext h.unheld⟩
            simp only [hengine]
            exact h.kept
          · refine .inr ⟨_, wrapped, ?_, ⟨kek, _, hwrap⟩, openings_update hnext ?_⟩
            · simp [hengine, Engine.with']
            · intro other opening hother store hholds
              exact absurd hholds (h.unheld other opening hother store)
  | asks opener operation drawn failure =>
      refine .inl ?_
      simp only [Shared.after]
      split
      · next store hopening => exact absurd rfl (h.unheld opener _ hopening store)
      · exact h
  | keeps key value =>
      have hkept := with_get_of_ne s.engine (Ne.symm hspares) value
      exact .inl ⟨hkept.trans h.kept, h.unheld⟩
  | tampers key value =>
      have hkept := with_get_of_ne s.engine (Ne.symm hspares) value
      exact .inl ⟨hkept.trans h.kept, h.unheld⟩

theorem Under.run (h : s.Under data wrapped) {events : List (Event k)}
    (hspares : ∀ event ∈ events, event.Spares dataKey) : (s.run events).Under data wrapped := by
  induction events generalizing s with
  | nil => exact h
  | cons event events ih =>
      exact ih (h.after event (hspares event (by simp))) fun e he => hspares e (by simp [he])

theorem Unopened.run (h : s.Unopened) {events : List (Event k)}
    (hspares : ∀ event ∈ events, event.Spares dataKey) :
    (s.run events).Unopened ∨ ∃ data wrapped, (s.run events).Under data wrapped := by
  induction events generalizing s with
  | nil => exact .inl h
  | cons event events ih =>
      have hrest : ∀ e ∈ events, e.Spares dataKey := fun e he => hspares e (by simp [he])
      rcases h.after (hspares event (by simp)) with hnext | ⟨data, wrapped, hnext⟩
      · exact ih hnext hrest
      · exact .inr ⟨data, wrapped, hnext.run hrest⟩

theorem fresh_unopened (name : String) : (fresh name : Shared k).Unopened :=
  ⟨rfl, nofun⟩

end Shared

/-- However openers of one engine take their steps, between the operations they ask of it, those
that hold a store hold the same one: that of the data key kept wrapped there, which is the one
kept ever after. -/
theorem one_key {name : String} {events more : List (Event k)}
    (hspares : ∀ event ∈ events ++ more, event.Spares dataKey) {opener : ℕ}
    {store : EncryptedStore k}
    (hholds : ((Shared.fresh name).run events).openings opener = some (.holds store)) :
    ∃ data wrapped kek drawn, derived data = .ok store ∧ k.wrap kek drawn data = .ok wrapped ∧
      ((Shared.fresh name).run (events ++ more)).engine.kept.get dataKey = some wrapped ∧
      ∀ other store', ((Shared.fresh name).run (events ++ more)).openings other =
        some (.holds store') → store' = store := by
  have hrun : (Shared.fresh name).run (events ++ more) =
      ((Shared.fresh name : Shared k).run events).run more := by
    simp [Shared.run]
  rcases (Shared.fresh_unopened name).run fun e he => hspares e (List.mem_append_left _ he) with
    hnone | ⟨data, wrapped, hunder⟩
  · exact absurd rfl (hnone.unheld opener _ hholds store)
  · have hderived := hunder.held opener _ hholds store rfl
    obtain ⟨kek, drawn, hwrapped⟩ := hunder.wrapped
    have hlater := hunder.run fun e he => hspares e (List.mem_append_right _ he)
    refine ⟨data, wrapped, kek, drawn, hderived, hwrapped, by rw [hrun]; exact hlater.kept, ?_⟩
    intro other store' hother
    rw [hrun] at hother
    exact Except.ok.inj ((hlater.held other _ hother store' rfl).symm.trans hderived)

/-! ## Data keys that hide nothing -/

namespace Plain

/-- A place as it is told before a value: its length in ones, a zero, itself. -/
def head (place : Bytes) : Bytes := List.replicate place.length 1 ++ 0 :: place

theorem head_unique {place place' rest : Bytes} (h : head place <+: rest)
    (h' : head place' <+: rest) : place = place' := by
  obtain ⟨left, rfl⟩ := h
  obtain ⟨left', h'⟩ := h'
  have hsplit : List.replicate place.length (1 : UInt8) ++ 0 :: (place ++ left) =
      List.replicate place'.length 1 ++ 0 :: (place' ++ left') := by
    simpa [head] using h'.symm
  obtain ⟨hones, hrest⟩ := zero_split (by simp) (by simp) hsplit
  have hlength : place.length = place'.length := by simpa using congrArg List.length hones
  exact List.append_inj_left hrest hlength

def opened (key : UInt8) (place : Bytes) : Bytes → Except SecretError Bytes
  | key' :: _ :: rest =>
      if key' = key ∧ head place <+: rest then .ok (rest.drop (head place).length)
      else .error ⟨some "its tag does not match", "refused"⟩
  | _ => .error ⟨some "too short", "refused"⟩

end Plain

/-- Keys of one byte that seal with the key, the place and the value in the clear. -/
abbrev plain : DataKeys where
  Key := UInt8
  KekName := UInt8
  Drawn := UInt8
  generate drawn := drawn
  wrap kek _ key := .ok [kek, key]
  unwrap kek wrapped :=
    if wrapped.head? = some kek ∧ wrapped.length = 2 then .ok (wrapped.getD 1 0)
    else .error ⟨none, "another key wrapped it"⟩
  derive' key _ := .ok key
  keyedHash key place := (key :: place ++ List.replicate 32 0).take 32
  sealAfter key drawn before place value :=
    .ok (before ++ key :: drawn :: (Plain.head place ++ value))
  opened := Plain.opened
  length_keyedHash key place := by simp
  unwraps {kek _ key wrapped} h := by
    obtain rfl := Except.ok.inj h
    simp
  unwrapped {kek _ key wrapped kek' key'} h h' := by
    obtain rfl := Except.ok.inj h
    by_cases he : kek = kek'
    · subst he
      simpa using h'.symm
    · simp [he] at h'
  sealed {key drawn before place value kept} h := by
    obtain rfl := Except.ok.inj h
    refine ⟨_, rfl, by simp [Plain.opened], fun key' place' hne => ?_⟩
    refine ⟨"its tag does not match", "refused", ?_⟩
    rw [Plain.opened, if_neg]
    rintro ⟨rfl, hhead⟩
    exact hne (by rw [Plain.head_unique hhead (List.prefix_append _ _)])
  foreign {kek _ key head body} h key' place' := by
    obtain ⟨rfl, rfl⟩ := List.cons.inj (Except.ok.inj h)
    exact ⟨_, _, rfl⟩

/-- Two openers that both find no data key, and one that keeps its own. -/
def Plain.race : List (Event plain) :=
  [.opens 0 3, .opens 1 3, .steps 0 (fun _ => 5) none, .steps 1 (fun _ => 6) none,
    .steps 0 (fun _ => 5) none]

/-- The other's steps after it. -/
def Plain.lost : List (Event plain) :=
  [.steps 1 (fun _ => 6) none, .steps 1 (fun _ => 6) none]

theorem one_key_race :
    ∃ data wrapped kek drawn, derived data = .ok (⟨5, 5⟩ : EncryptedStore plain) ∧
      plain.wrap kek drawn data = .ok wrapped ∧
      ((Shared.fresh "memory").run (Plain.race ++ Plain.lost)).engine.kept.get dataKey =
        some wrapped ∧
      ∀ other store', ((Shared.fresh "memory").run (Plain.race ++ Plain.lost)).openings other =
        some (.holds store') → store' = ⟨5, 5⟩ :=
  @one_key plain _ _ _ (by simp [Plain.race, Plain.lost, Event.Spares]) 0 _ rfl

example : ((Shared.fresh "memory").run (Plain.race ++ Plain.lost)).openings 1 =
    some (.holds ⟨5, 5⟩) := rfl

end XmipPersist.EncryptedStore
