import XmipPersist.Verification.Encrypted.Openers

/-! # What is moved about beneath a store

Something that reaches past the stores to the engine's bytes may put any it held, at any moment,
under any key, and take any out, the data key's among them. A read is then refused, or gives what
was written there: never a record or an index entry of another place.
-/

namespace XmipPersist.EncryptedStore

variable {k : DataKeys}

/-! ## What a store's answers tell -/

/-- What is asked of a store and its answer, where it did not fail. -/
abbrev Asked := Operation × Except PersistError Answer

/-- An operation of this answer wrote the change. -/
def Answer.Sets (change : RecordChange) : Operation → Answer → Prop
  | .put kind key value, _ => change = ⟨kind, key, some value⟩
  | .putNew kind key value, .new true => change = ⟨kind, key, some value⟩
  | .apply changes, _ | .applyIndexed changes _, _ => change ∈ changes
  | _, _ => False

/-- An operation wrote the index entry. -/
def Operation.Indexes (entry : IndexEntry) : Operation → Prop
  | .applyIndexed _ entries => entry ∈ entries
  | _ => False

/-- An operation of this answer found the record's value. -/
def Answer.Gives (kind : String) (key value : Bytes) : Operation → Answer → Prop
  | .get kind' key', .got (some value') | .getIn _ kind' key', .got (some value') =>
      kind' = kind ∧ key' = key ∧ value' = value
  | _, _ => False

/-- An operation of this answer found the index entry. -/
def Answer.Finds (key : Bytes) (id : ℕ) : Answer → Prop
  | .found entries => (key, id) ∈ entries
  | _ => False

/-- Operations on records whose kinds are words and entries of 128 bits. -/
def Operation.Worded (operation : Operation) : Prop :=
  (∀ p ∈ operation.names, Word p.1) ∧ operation.Fits

/-! ## What reaches past a store -/

/-- What is stored opens, under a record key and for a place, to a value. -/
def OpensUnder (p : k.Key × Bytes) (stored value : Bytes) : Prop :=
  ∃ sealed, stored = layout :: sealed ∧ k.opened p.1 p.2 sealed = .ok value

/-- Bytes that no key opens for any place. -/
def Foreign (k : DataKeys) (bytes : Bytes) : Prop :=
  ∀ (p : k.Key × Bytes) value, ¬OpensUnder p bytes value

/-- What an event puts into the engine past the stores. -/
def Event.Reaches (bytes : Bytes) : Event k → Prop
  | .keeps _ value | .tampers _ value => value = some bytes
  | _ => False

def Event.Worded : Event k → Prop
  | .asks _ operation .. => operation.Worded
  | _ => True

/-- A run in which whatever is put past the stores no key opens, or the engine held before. -/
def Copies (name : String) (events : List (Event k)) : Prop :=
  ∀ (n : ℕ) event, events[n]? = some event → ∀ bytes, event.Reaches bytes →
    Foreign k bytes ∨ ∃ m ≤ n, ∃ key,
      ((Shared.fresh name).run (events.take m)).engine.kept.get key = some bytes

theorem Copies.of_append {name : String} {events more : List (Event k)}
    (h : Copies name (events ++ more)) : Copies name events := by
  intro n event hn bytes hbytes
  have hlt : n < events.length := (List.getElem?_eq_some_iff.mp hn).1
  have happended : (events ++ more)[n]? = some event := by
    rw [List.getElem?_append_left hlt]
    exact hn
  rcases h n event happended bytes hbytes with hforeign | ⟨m, hm, key, hkey⟩
  · exact .inl hforeign
  · have hmle : m ≤ events.length := by omega
    rw [List.take_append_of_le_length hmle] at hkey
    exact .inr ⟨m, hm, key, hkey⟩

/-! ## What the engine's bytes open to -/

/-- What operations asked wrote at a place. -/
def Wrote (asked : List Asked) (p : k.Key × Bytes) (value : Bytes) : Prop :=
  ∃ operation answer, (operation, .ok answer) ∈ asked ∧
    ((∃ change, Answer.Sets change operation answer ∧ p.2 = (place change.kind change.key).bytes ∧
        change.value = some value) ∨
      ∃ entry, Operation.Indexes entry operation ∧ p.2 = index ++ entry.1 ∧
        entry.2.map (Octets.number 16) = some value)

theorem Wrote.mono {asked asked' : List Asked} (hsub : asked ⊆ asked') (p : k.Key × Bytes)
    (value : Bytes) (h : Wrote asked p value) : Wrote asked' p value := by
  obtain ⟨operation, answer, hmem, hwrote⟩ := h
  exact ⟨operation, answer, hsub hmem, hwrote⟩

/-- What an engine keeps opens for a place only to what was written there. -/
abbrev Engine.Told (k : DataKeys) (asked : List Asked) (engine : Engine) : Prop :=
  Sealed.Told (OpensUnder (k := k)) (Wrote asked) engine.kept.get

/-- So does what it keeps now, and what it kept when each view of it was taken. -/
structure Shared.Told (s : Shared k) (asked : List Asked) : Prop where
  engine : s.engine.Told k asked
  views : ∀ view ∈ s.views, view.Told k asked

section Sealing

variable {store : EncryptedStore k} {drawn : ℕ → k.Drawn}

/-- What is sealed for a place opens only there, to what was sealed. -/
theorem sealedFor_told {place : Bytes} {drawn : k.Drawn} {value kept : Option Bytes}
    (h : store.sealedFor drawn place value = .ok kept) :
    ∀ s, kept = some s → ∀ (p : k.Key × Bytes) v, OpensUnder p s v →
      p = (store.record, place) ∧ value = some v := by
  cases value with
  | none =>
      obtain rfl := Except.ok.inj h
      intro s hs
      cases hs
  | some value =>
      simp only [sealedFor, seal', keyed] at h
      cases hsealed : k.sealAfter store.record drawn [layout] place value with
      | error e => simp [hsealed, Except.map] at h
      | ok made =>
          rw [hsealed] at h
          obtain rfl := Except.ok.inj h
          obtain ⟨body, rfl, hopened, hother⟩ := k.sealed hsealed
          intro s hs p v hopens
          obtain rfl := Option.some.inj hs
          obtain ⟨sealed, hbody, hv⟩ := hopens
          have hsame : body = sealed := (List.cons.inj hbody).2
          subst hsame
          by_cases hp : (p.1, p.2) = (store.record, place)
          · have hp' : p = (store.record, place) := hp
            subst hp'
            rw [hopened] at hv
            exact ⟨rfl, by rw [Except.ok.inj hv]⟩
          · obtain ⟨reason, words, hrefused⟩ := hother p.1 p.2 hp
            rw [hrefused] at hv
            cases hv

/-- A change of a sealed batch, of the record it changes. -/
theorem mem_sealed {n : ℕ} {changes : List RecordChange} {batch : List (Bytes × Option Bytes)}
    (h : store.sealed drawn n changes = .ok batch) {c : Bytes × Option Bytes} (hc : c ∈ batch) :
    ∃ change ∈ changes, ∃ drawn',
      store.sealedFor drawn' (place change.kind change.key).bytes change.value = .ok c.2 := by
  induction changes generalizing n batch with
  | nil =>
      obtain rfl := Except.ok.inj h
      cases hc
  | cons change changes ih =>
      obtain ⟨value, hvalue, h⟩ := bind_eq_ok.mp h
      obtain ⟨rest, hrest, h⟩ := bind_eq_ok.mp h
      obtain rfl := Except.ok.inj h
      rcases List.mem_cons.mp hc with rfl | hc
      · exact ⟨change, by simp, drawn n, hvalue⟩
      · obtain ⟨change', hmem, hsealed⟩ := ih hrest hc
        exact ⟨change', List.mem_cons_of_mem _ hmem, hsealed⟩

theorem mem_sealedEntries {n : ℕ} {entries : List IndexEntry}
    {batch : List (Bytes × Option Bytes)} (h : store.sealedEntries drawn n entries = .ok batch)
    {c : Bytes × Option Bytes} (hc : c ∈ batch) :
    ∃ entry ∈ entries, ∃ drawn',
      store.sealedFor drawn' (index ++ entry.1) (entry.2.map (Octets.number 16)) = .ok c.2 := by
  induction entries generalizing n batch with
  | nil =>
      obtain rfl := Except.ok.inj h
      cases hc
  | cons entry entries ih =>
      obtain ⟨value, hvalue, h⟩ := bind_eq_ok.mp h
      obtain ⟨rest, hrest, h⟩ := bind_eq_ok.mp h
      obtain rfl := Except.ok.inj h
      rcases List.mem_cons.mp hc with rfl | hc
      · exact ⟨entry, by simp, drawn n, hvalue⟩
      · obtain ⟨entry', hmem, hsealed⟩ := ih hrest hc
        exact ⟨entry', List.mem_cons_of_mem _ hmem, hsealed⟩

/-- A batch of records changed tells only of the changes. -/
theorem sealed_told {asked : List Asked} {operation : Operation} {answer : Answer}
    {changes : List RecordChange} (hasked : (operation, .ok answer) ∈ asked)
    (hsets : ∀ change ∈ changes, Answer.Sets change operation answer) {n : ℕ}
    {batch : List (Bytes × Option Bytes)} (h : store.sealed drawn n changes = .ok batch) :
    ∀ c ∈ batch, ∀ s, c.2 = some s → ∀ (p : k.Key × Bytes) v, OpensUnder p s v →
      Wrote asked p v := by
  intro c hc s hs p v hopens
  obtain ⟨change, hchange, drawn', hsealed⟩ := mem_sealed h hc
  obtain ⟨rfl, hvalue⟩ := sealedFor_told hsealed s hs p v hopens
  exact ⟨operation, answer, hasked, .inl ⟨change, hsets change hchange, rfl, hvalue⟩⟩

theorem sealedEntries_told {asked : List Asked} {operation : Operation} {answer : Answer}
    {entries : List IndexEntry} (hasked : (operation, .ok answer) ∈ asked)
    (hindexes : ∀ entry ∈ entries, Operation.Indexes entry operation) {n : ℕ}
    {batch : List (Bytes × Option Bytes)} (h : store.sealedEntries drawn n entries = .ok batch) :
    ∀ c ∈ batch, ∀ s, c.2 = some s → ∀ (p : k.Key × Bytes) v, OpensUnder p s v →
      Wrote asked p v := by
  intro c hc s hs p v hopens
  obtain ⟨entry, hentry, drawn', hsealed⟩ := mem_sealedEntries h hc
  obtain ⟨rfl, hvalue⟩ := sealedFor_told hsealed s hs p v hopens
  exact ⟨operation, answer, hasked, .inr ⟨entry, hindexes entry hentry, rfl, hvalue⟩⟩

end Sealing

/-! ## One event -/

theorem Engine.Told.with' {asked : List Asked} {engine : Engine} (h : engine.Told k asked)
    {value : Option Bytes} (hvalue : ∀ s, value = some s → ∀ (p : k.Key × Bytes) v,
      OpensUnder p s v → Wrote asked p v) (key : Bytes) : (engine.with' key value).Told k asked :=
  Sealed.Told.update h hvalue key

/-- No key opens a wrapped key. -/
theorem wrapped_foreign {kek : k.KekName} {drawn : k.Drawn} {key : k.Key} {wrapped : Bytes}
    (h : k.wrap kek drawn key = .ok wrapped) : Foreign k wrapped := by
  intro p value hopens
  obtain ⟨sealed, rfl, hopened⟩ := hopens
  obtain ⟨reason, words, hrefused⟩ := k.foreign h p.1 p.2
  rw [hrefused] at hopened
  cases hopened

/-- An opener's step leaves the engine, or keeps there what no key opens. -/
theorem Opening.step_told {asked : List Asked} {engine : Engine} (h : engine.Told k asked)
    (drawn : ℕ → k.Drawn) (failure : Option String) (opening : Opening k) :
    (opening.step drawn failure engine).2.Told k asked := by
  cases opening with
  | holds store => exact h
  | failed e => exact h
  | begun kek =>
      simp only [step]
      split
      · exact h
      · exact h
      · exact h
  | again kek =>
      simp only [step]
      split
      · exact h
      · exact h
      · exact h
  | creates kek =>
      simp only [step]
      cases hwrap : k.wrap kek (drawn 1) (k.generate (drawn 0)) with
      | error e => exact h
      | ok wrapped =>
          have hforeign := wrapped_foreign hwrap
          cases hmade : engine.writeNew failure dataKey wrapped with
          | error e =>
              simp only [hmade]
              exact h
          | ok made =>
              have hwrote := barring_ok hmade
              cases hkept : engine.kept.get dataKey with
              | some kept =>
                  simp only [hkept] at hwrote
                  subst hwrote
                  simp only [hmade]
                  exact h
              | none =>
                  simp only [hkept] at hwrote
                  subst hwrote
                  simp only [hmade]
                  refine h.with' ?_ dataKey
                  intro s hs p v hopens
                  obtain rfl := Option.some.inj hs
                  exact absurd hopens (hforeign p v)

/-- An operation writes what it says it wrote, and takes views of what is there. -/
theorem perform_told {s s' : Shared k} {asked : List Asked} {store : EncryptedStore k}
    {drawn : ℕ → k.Drawn} {failure : Option String} {operation : Operation} {answer : Answer}
    (h : s.Told asked) (hasked : (operation, .ok answer) ∈ asked)
    (hmade : s.perform store drawn failure operation = .ok (answer, s')) : s'.Told asked := by
  cases operation with
  | put kind key value =>
      obtain ⟨engine, he, hmade⟩ := bind_eq_ok.mp hmade
      obtain ⟨sealed, hsealed, he⟩ := bind_eq_ok.mp he
      obtain rfl := barring_ok he
      cases hmade
      have hfor : store.sealedFor (drawn 0) (place kind key).bytes (some value) =
          .ok (some sealed) := by
        simp [sealedFor, hsealed, Except.map]
      refine ⟨h.engine.with' (fun s hs p v hopens => ?_) _, h.views⟩
      obtain ⟨rfl, hvalue⟩ := sealedFor_told hfor s hs p v hopens
      exact ⟨_, _, hasked, .inl ⟨⟨kind, key, some value⟩, rfl, rfl, hvalue⟩⟩
  | putNew kind key value =>
      obtain ⟨⟨written, engine⟩, he, hmade⟩ := bind_eq_ok.mp hmade
      obtain ⟨sealed, hsealed, he⟩ := bind_eq_ok.mp he
      have hwrote := barring_ok he
      cases hmade
      cases hkept : s.engine.kept.get (store.lookupKey kind key) with
      | some stored =>
          simp only [hkept] at hwrote
          cases hwrote
          exact ⟨h.engine, h.views⟩
      | none =>
          simp only [hkept] at hwrote
          cases hwrote
          have hfor : store.sealedFor (drawn 0) (place kind key).bytes (some value) =
              .ok (some sealed) := by
            simp [sealedFor, hsealed, Except.map]
          refine ⟨h.engine.with' (fun s hs p v hopens => ?_) _, h.views⟩
          obtain ⟨rfl, hvalue⟩ := sealedFor_told hfor s hs p v hopens
          exact ⟨_, _, hasked, .inl ⟨⟨kind, key, some value⟩, rfl, rfl, hvalue⟩⟩
  | remove kind key =>
      obtain ⟨engine, he, hmade⟩ := bind_eq_ok.mp hmade
      obtain rfl := barring_ok he
      cases hmade
      refine ⟨h.engine.with' (fun s hs => ?_) _, h.views⟩
      cases hs
  | apply changes =>
      obtain ⟨engine, he, hmade⟩ := bind_eq_ok.mp hmade
      obtain ⟨batch, hbatch, he⟩ := bind_eq_ok.mp he
      obtain rfl := barring_ok he
      cases hmade
      have htold := sealed_told hasked (fun change hc => hc) hbatch
      exact ⟨Sealed.Told.apply h.engine htold, h.views⟩
  | applyIndexed changes entries =>
      obtain ⟨engine, he, hmade⟩ := bind_eq_ok.mp hmade
      obtain ⟨indexed, hindexed, he⟩ := bind_eq_ok.mp he
      obtain ⟨batch, hbatch, hindexed⟩ := bind_eq_ok.mp hindexed
      obtain ⟨more, hmore, hindexed⟩ := bind_eq_ok.mp hindexed
      cases hindexed
      obtain rfl := barring_ok he
      cases hmade
      refine ⟨Sealed.Told.apply h.engine fun c hc => ?_, h.views⟩
      rcases List.mem_append.mp hc with hc | hc
      · exact sealed_told hasked (fun change hmem => hmem) hbatch c hc
      · exact sealedEntries_told hasked (fun entry hmem => hmem) hmore c hc
  | get kind key =>
      obtain ⟨value, -, hmade⟩ := bind_eq_ok.mp hmade
      cases hmade
      exact h
  | scanIndexKeyed first last most reverse =>
      obtain ⟨value, -, hmade⟩ := bind_eq_ok.mp hmade
      cases hmade
      exact h
  | view =>
      obtain ⟨engine, he, hmade⟩ := bind_eq_ok.mp hmade
      obtain rfl := barring_ok he
      cases hmade
      refine ⟨h.engine, fun view hview => ?_⟩
      rcases List.mem_append.mp hview with hview | hview
      · exact h.views view hview
      · rw [List.mem_singleton.mp hview]
        exact h.engine
  | getIn view kind key =>
      obtain ⟨value, -, hmade⟩ := bind_eq_ok.mp hmade
      cases hmade
      exact h
  | scanIndexIn view first last most reverse =>
      obtain ⟨value, -, hmade⟩ := bind_eq_ok.mp hmade
      cases hmade
      exact h

/-! ## Over a run -/

namespace Shared

theorem Told.mono {s : Shared k} {asked asked' : List Asked} (h : s.Told asked)
    (hsub : asked ⊆ asked') : s.Told asked' where
  engine := Sealed.Told.mono h.engine (Wrote.mono hsub)
  views view hview := Sealed.Told.mono (h.views view hview) (Wrote.mono hsub)

theorem Told.after {s : Shared k} {asked : List Asked} {event : Event k} (h : s.Told asked)
    (hreaches : ∀ bytes, event.Reaches bytes → ∀ (p : k.Key × Bytes) v, OpensUnder p bytes v →
      Wrote asked p v) : (s.after event).Told (asked ++ (s.answers event).toList) := by
  have hmore : s.Told (asked ++ (s.answers event).toList) :=
    h.mono (List.subset_append_left _ _)
  cases event with
  | opens opener kek => exact ⟨hmore.engine, hmore.views⟩
  | steps opener drawn failure =>
      cases hopening : s.openings opener with
      | none =>
          simp only [Shared.after, hopening]
          exact hmore
      | some opening =>
          simp only [Shared.after, hopening]
          exact ⟨Opening.step_told hmore.engine drawn failure opening, hmore.views⟩
  | asks opener operation drawn failure =>
      cases hholds : s.openings opener with
      | none =>
          simp only [Shared.after, hholds]
          exact hmore
      | some opening =>
          cases opening with
          | begun kek | creates kek | again kek | failed e =>
              simp only [Shared.after, hholds]
              exact hmore
          | holds store =>
              cases hmade : s.perform store drawn failure operation with
              | error e =>
                  simp only [Shared.after, hholds, hmade]
                  exact hmore
              | ok made =>
                  obtain ⟨answer, s'⟩ := made
                  have hasked : (operation, .ok answer) ∈ asked ++
                      (s.answers (.asks opener operation drawn failure)).toList := by
                    simp [Shared.answers, hholds, hmade, Except.map]
                  simp only [Shared.after, hholds, hmade]
                  exact perform_told hmore hasked hmade
  | keeps key value | tampers key value =>
      refine ⟨Engine.Told.with' hmore.engine (fun bytes hbytes p v hopens => ?_) key, hmore.views⟩
      exact Wrote.mono (List.subset_append_left _ _) p v (hreaches bytes hbytes p v hopens)

theorem run_append (s : Shared k) (events more : List (Event k)) :
    s.run (events ++ more) = (s.run events).run more :=
  List.foldl_append

theorem history_append (s : Shared k) (events more : List (Event k)) :
    s.history (events ++ more) = s.history events ++ (s.run events).history more := by
  induction events generalizing s with
  | nil => rfl
  | cons event events ih =>
      have hrest := ih (s.after event)
      simp only [List.cons_append, history, hrest, List.append_assoc]
      rfl

/-- All along a run of copies, what the engine keeps opens to what was written. -/
theorem Told.run {name : String} {events : List (Event k)} (h : Copies name events) :
    ∀ before, before <+: events →
      ((fresh name).run before).Told ((fresh name).history before) := by
  induction events using List.reverseRecOn with
  | nil =>
      intro before hbefore
      obtain rfl := List.prefix_nil.mp hbefore
      exact ⟨Sealed.Told.nothing, nofun⟩
  | append_singleton events event ih =>
      have hbefore := ih h.of_append
      intro before hprefix
      rcases List.prefix_concat_iff.mp hprefix with rfl | hprefix
      · rw [run_append, history_append]
        have hhistory : ((fresh name).run events).history [event] =
            (((fresh name).run events).answers event).toList := by
          simp [history]
        rw [hhistory]
        refine (hbefore events (List.prefix_refl _)).after fun bytes hbytes p v hopens => ?_
        have hevent : (events ++ [event])[events.length]? = some event := by simp
        rcases h events.length event hevent bytes hbytes with hforeign | ⟨m, hm, key, hkey⟩
        · exact absurd hopens (hforeign p v)
        · rw [List.take_append_of_le_length hm] at hkey
          have hwrote := (hbefore _ (List.take_prefix m events)).engine key bytes hkey p v hopens
          have hsplit := history_append (fresh name) (events.take m) (events.drop m)
          rw [List.take_append_drop] at hsplit
          rw [hsplit]
          exact hwrote.mono (List.subset_append_left _ _) p v
      · exact hbefore before hprefix

end Shared

/-! ## Reading -/

theorem opened_under {store : EncryptedStore k} {engine : Engine} {place stored value : Bytes}
    {what : String} (h : store.opened engine place stored what = .ok value) :
    OpensUnder (store.record, place) stored value := by
  cases stored with
  | nil => cases h
  | cons first sealed =>
      by_cases hfirst : first = layout
      · subst hfirst
        simp only [opened, ne_eq, not_true_eq_false, if_false] at h
        cases hopened : k.opened store.record place sealed with
        | ok value' =>
            rw [hopened] at h
            obtain rfl := Except.ok.inj h
            exact ⟨sealed, rfl, hopened⟩
        | error e =>
            obtain ⟨refused, words⟩ := e
            rw [hopened] at h
            cases refused with
            | none => cases h
            | some reason => cases h
      · simp [opened, hfirst] at h

section Reading

variable {store : EncryptedStore k} {engine : Engine} {failure : Option String}
  {asked : List Asked}

/-- A record read was written under its kind and key. -/
theorem getIn_wrote (h : engine.Told k asked) {kind : String} {key value : Bytes}
    (hread : store.getIn engine failure kind key = .ok (some value)) :
    Wrote asked (store.record, (place kind key).bytes) value := by
  obtain ⟨stored, hstored, hread⟩ := bind_eq_ok.mp hread
  have hkept := barring_ok hstored
  cases stored with
  | none => cases hread
  | some stored =>
      obtain ⟨made, hopened, hread⟩ := bind_eq_ok.mp hread
      cases hread
      exact h _ stored hkept _ value (opened_under hopened)

/-- An index entry found was written under its whole key. -/
theorem scanIndexIn_wrote (h : engine.Told k asked) {first last : Bytes} {most : ℕ}
    {reverse : Bool} {entries : List (Bytes × ℕ)}
    (hread : store.scanIndexIn engine failure first last most reverse = .ok entries) {key : Bytes}
    {id : ℕ} (hentry : (key, id) ∈ entries) :
    ∃ record, Wrote asked (store.record, index ++ key) record ∧
      id = ofBigEndian (record.map UInt8.toNat) := by
  obtain ⟨kept, hkept, hread⟩ := bind_eq_ok.mp hread
  obtain rfl := barring_ok hkept
  obtain ⟨⟨whole, stored⟩, hmem, hmade⟩ := mem_of_mapM_ok hread hentry
  have hrange : (whole, stored) ∈ engine.kept.between (index ++ first) (index ++ last) := by
    rw [OrderedMap.range_eq] at hmem
    have hall := List.mem_of_mem_take hmem
    cases reverse with
    | false => exact hall
    | true => exact List.mem_reverse.mp hall
  obtain ⟨hget, hfirst, hlast⟩ := OrderedMap.mem_between.mp hrange
  obtain ⟨rest, rfl⟩ := prefix_of_between hfirst hlast
  obtain ⟨record, hopened, hmade⟩ := bind_eq_ok.mp hmade
  have hwrote := h _ stored hget _ record (opened_under hopened)
  by_cases hlength : record.length = 16
  · simp only [hlength, if_true, List.drop_left] at hmade
    cases hmade
    exact ⟨record, hwrote, rfl⟩
  · simp only [hlength, if_false] at hmade
    cases hmade

end Reading

/-- The engine as it stands or a view of it, as reads go through them. -/
theorem Shared.Told.viewed {s : Shared k} {asked : List Asked} (h : s.Told asked) (view : ℕ) :
    (s.viewed view).Told k asked := by
  unfold Shared.viewed
  cases hview : s.views[view]? with
  | none =>
      rw [List.getD_eq_getElem?_getD, hview]
      exact h.engine
  | some kept =>
      rw [List.getD_eq_getElem?_getD, hview]
      exact h.views kept (List.mem_of_getElem? hview)

section Perform

variable {s s' : Shared k} {asked : List Asked} {store : EncryptedStore k} {drawn : ℕ → k.Drawn}
  {failure : Option String} {operation : Operation} {answer : Answer}

theorem perform_gives (h : s.Told asked)
    (hmade : s.perform store drawn failure operation = .ok (answer, s')) {kind : String}
    {key value : Bytes} (hgives : Answer.Gives kind key value operation answer) :
    Wrote asked (store.record, (place kind key).bytes) value := by
  cases operation with
  | get kind' key' =>
      obtain ⟨read, hread, hmade⟩ := bind_eq_ok.mp hmade
      cases hmade
      cases read with
      | none => exact hgives.elim
      | some value' =>
          obtain ⟨rfl, rfl, rfl⟩ := hgives
          exact getIn_wrote h.engine hread
  | getIn view kind' key' =>
      obtain ⟨read, hread, hmade⟩ := bind_eq_ok.mp hmade
      cases hmade
      cases read with
      | none => exact hgives.elim
      | some value' =>
          obtain ⟨rfl, rfl, rfl⟩ := hgives
          exact getIn_wrote (h.viewed view) hread
  | put | putNew | remove | apply | applyIndexed | scanIndexKeyed | view | scanIndexIn =>
      exact hgives.elim

theorem perform_finds (h : s.Told asked)
    (hmade : s.perform store drawn failure operation = .ok (answer, s')) {key : Bytes} {id : ℕ}
    (hfinds : Answer.Finds key id answer) :
    ∃ record, Wrote asked (store.record, index ++ key) record ∧
      id = ofBigEndian (record.map UInt8.toNat) := by
  cases operation with
  | scanIndexKeyed first last most reverse =>
      obtain ⟨entries, hread, hmade⟩ := bind_eq_ok.mp hmade
      cases hmade
      exact scanIndexIn_wrote h.engine hread hfinds
  | scanIndexIn view first last most reverse =>
      obtain ⟨entries, hread, hmade⟩ := bind_eq_ok.mp hmade
      cases hmade
      exact scanIndexIn_wrote (h.viewed view) hread hfinds
  | putNew kind key value =>
      obtain ⟨⟨written, engine⟩, -, hmade⟩ := bind_eq_ok.mp hmade
      cases hmade
      exact hfinds.elim
  | put | remove | apply | applyIndexed | get | view | getIn =>
      obtain ⟨made, -, hmade⟩ := bind_eq_ok.mp hmade
      cases hmade
      exact hfinds.elim

end Perform

/-! ## What was written -/

theorem Answer.Sets.names {change : RecordChange} {operation : Operation} {answer : Answer}
    (h : Answer.Sets change operation answer) : (change.kind, change.key) ∈ operation.names := by
  cases operation with
  | put kind key value =>
      obtain rfl := h
      rfl
  | putNew kind key value =>
      cases answer with
      | new written =>
          cases written with
          | false => exact h.elim
          | true =>
              obtain rfl := h
              rfl
      | done | got | found => exact h.elim
  | apply changes => exact ⟨change, h, rfl⟩
  | applyIndexed changes entries => exact ⟨change, h, rfl⟩
  | remove | get | scanIndexKeyed | view | getIn | scanIndexIn => exact h.elim

theorem Operation.Worded.indexes {operation : Operation} (h : operation.Worded)
    {key : Bytes} {id : ℕ} (hindexes : Operation.Indexes (key, some id) operation) :
    id < 256 ^ 16 := by
  cases operation with
  | applyIndexed changes entries => exact h.2 (key, some id) hindexes id rfl
  | put | putNew | remove | apply | get | scanIndexKeyed | view | getIn | scanIndexIn =>
      exact hindexes.elim

namespace Wrote

variable {asked : List Asked} {data : k.Key} (hworded : ∀ one ∈ asked, one.1.Worded)
include hworded

/-- What was written at a record's place a change of that record wrote. -/
theorem record {kind : String} {key value : Bytes} (hkind : Word kind)
    (h : Wrote asked (data, (place kind key).bytes) value) :
    ∃ operation answer, (operation, .ok answer) ∈ asked ∧
      Answer.Sets ⟨kind, key, some value⟩ operation answer := by
  obtain ⟨operation, answer, hmem, ⟨change, hsets, hplace, hvalue⟩ | ⟨entry, -, hplace, -⟩⟩ := h
  · have hword := (hworded _ hmem).1 _ hsets.names
    obtain ⟨kind', key', value'⟩ := change
    obtain ⟨rfl, rfl⟩ := place_inj hkind hword hplace
    obtain rfl : value' = some value := hvalue
    exact ⟨operation, answer, hmem, hsets⟩
  · exact absurd hplace (place_ne_index hkind)

/-- What was written at an index entry's key an entry of that key wrote. -/
theorem entry {key value : Bytes} (h : Wrote asked (data, index ++ key) value) :
    ∃ operation answer, (operation, .ok answer) ∈ asked ∧
      Operation.Indexes (key, some (ofBigEndian (value.map UInt8.toNat))) operation := by
  obtain ⟨operation, answer, hmem, ⟨change, hsets, hplace, -⟩ | ⟨⟨key', id⟩, hindexes, hplace,
    hvalue⟩⟩ := h
  · have hword := (hworded _ hmem).1 _ hsets.names
    exact absurd hplace.symm (place_ne_index hword)
  · obtain rfl := index_append_inj hplace
    cases id with
    | none => cases hvalue
    | some id =>
        obtain rfl : Octets.number 16 id = value := Option.some.inj hvalue
        have hid := (hworded _ hmem).indexes hindexes
        rw [Octets.toNat_number, ofBigEndian_bigEndian hid]
        exact ⟨operation, answer, hmem, hindexes⟩

end Wrote

namespace Shared

/-- What is asked in a run is asked at one of its events, of the state the run had come to. -/
theorem history_split {s : Shared k} {events : List (Event k)} {earlier later : List Asked}
    {one : Asked} (h : s.history events = earlier ++ one :: later) :
    ∃ before event, before ++ [event] <+: events ∧ s.history before = earlier ∧
      (s.run before).answers event = some one := by
  induction events generalizing s earlier with
  | nil => simp [history] at h
  | cons event events ih =>
      cases hanswers : s.answers event with
      | none =>
          simp only [history, hanswers, Option.toList_none, List.nil_append] at h
          obtain ⟨before, event', hprefix, rfl, hone⟩ := ih h
          refine ⟨event :: before, event', List.cons_prefix_cons.mpr ⟨rfl, hprefix⟩, ?_, hone⟩
          simp [history, hanswers]
      | some first =>
          simp only [history, hanswers, Option.toList_some, List.singleton_append] at h
          cases earlier with
          | nil =>
              obtain rfl := (List.cons.inj h).1
              exact ⟨[], event, by simp, rfl, hanswers⟩
          | cons first' earlier =>
              have hcons := List.cons.inj h
              obtain rfl := hcons.1
              obtain ⟨before, event', hprefix, rfl, hone⟩ := ih hcons.2
              refine ⟨event :: before, event', List.cons_prefix_cons.mpr ⟨rfl, hprefix⟩, ?_, hone⟩
              simp [history, hanswers]

theorem answers_ok {s : Shared k} {event : Event k} {operation : Operation} {answer : Answer}
    (h : s.answers event = some (operation, .ok answer)) :
    ∃ opener drawn failure store s', event = .asks opener operation drawn failure ∧
      s.perform store drawn failure operation = .ok (answer, s') := by
  cases event with
  | asks opener operation' drawn failure =>
      cases hholds : s.openings opener with
      | none => simp [answers, hholds] at h
      | some opening =>
          cases opening with
          | holds store =>
              simp only [answers, hholds, Option.some.injEq, Prod.mk.injEq] at h
              obtain ⟨rfl, h⟩ := h
              cases hmade : s.perform store drawn failure operation' with
              | error e => simp [hmade, Except.map] at h
              | ok made =>
                  simp only [hmade, Except.map, Except.ok.injEq] at h
                  subst h
                  exact ⟨opener, drawn, failure, store, made.2, rfl, hmade⟩
          | begun | creates | again | failed => simp [answers, hholds] at h
  | opens | steps | keeps | tampers => cases h

theorem history_worded {s : Shared k} {events : List (Event k)}
    (h : ∀ event ∈ events, event.Worded) : ∀ one ∈ s.history events, one.1.Worded := by
  induction events generalizing s with
  | nil => simp [history]
  | cons event events ih =>
      intro one hone
      rcases List.mem_append.mp hone with hone | hone
      · have hevent := h event (by simp)
        cases event with
        | asks opener operation drawn failure =>
            have hanswers := Option.mem_toList.mp hone
            simp only [answers] at hanswers
            split at hanswers
            · obtain rfl := Option.some.inj hanswers
              exact hevent
            · cases hanswers
        | opens | steps | keeps | tampers => cases hone
      · exact ih (fun e he => h e (by simp [he])) one hone

end Shared

/-- Whatever the engine held is put back, moved under another key or taken out, at any moment and
between whatever openers and operations, and whatever no key opens is put there: a record's value
that a store gives an earlier operation wrote under that kind and key, and an index entry that it
finds an earlier one wrote under that key, for that record. -/
theorem never_another {name : String} {events : List (Event k)} (hcopies : Copies name events)
    (hworded : ∀ event ∈ events, event.Worded) {earlier later : List Asked} {operation : Operation}
    {answer : Answer}
    (hhistory : (Shared.fresh name).history events = earlier ++ (operation, .ok answer) :: later) :
    (∀ kind key value, Answer.Gives kind key value operation answer →
      ∃ operation' answer', (operation', .ok answer') ∈ earlier ∧
        Answer.Sets ⟨kind, key, some value⟩ operation' answer') ∧
    ∀ key id, Answer.Finds key id answer → ∃ operation' answer',
      (operation', .ok answer') ∈ earlier ∧ Operation.Indexes (key, some id) operation' := by
  have hall := Shared.history_worded (s := Shared.fresh name) hworded
  rw [hhistory] at hall
  have hearlier : ∀ one ∈ earlier, one.1.Worded :=
    fun one hone => hall one (List.mem_append_left _ hone)
  obtain ⟨before, event, hprefix, rfl, hanswers⟩ := Shared.history_split hhistory
  have htold := Shared.Told.run hcopies before ((List.prefix_append _ _).trans hprefix)
  obtain ⟨opener, drawn, failure, store, s', -, hmade⟩ := Shared.answers_ok hanswers
  constructor
  · intro kind key value hgives
    have hkind : Word kind := by
      have hnames := (hall (operation, .ok answer) (by simp)).1
      cases operation with
      | get kind' key' =>
          cases answer with
          | got read =>
              cases read with
              | none => exact hgives.elim
              | some value' =>
                  obtain ⟨rfl, rfl, rfl⟩ := hgives
                  exact hnames (kind', key') rfl
          | done | new | found => exact hgives.elim
      | getIn view kind' key' =>
          cases answer with
          | got read =>
              cases read with
              | none => exact hgives.elim
              | some value' =>
                  obtain ⟨rfl, rfl, rfl⟩ := hgives
                  exact hnames (kind', key') rfl
          | done | new | found => exact hgives.elim
      | put | putNew | remove | apply | applyIndexed | scanIndexKeyed | view | scanIndexIn =>
          exact hgives.elim
    exact (perform_gives htold hmade hgives).record hearlier hkind
  · intro key id hfinds
    obtain ⟨record, hwrote, rfl⟩ := perform_finds htold hmade hfinds
    exact hwrote.entry hearlier

/-- Two records written, and one of them moved under the other's key and back. -/
def Plain.moving : List (Event plain) :=
  Plain.race ++ Plain.lost ++
    [.asks 0 (.put "journey" [7] [1, 2]) (fun _ => 9) none,
      .asks 1 (.put "journey" [8] [3]) (fun _ => 9) none,
      .tampers (plain.keyedHash 5 (utf8 "journey" ++ [0, 8]))
        (some (1 :: 5 :: 9 :: (Plain.head (utf8 "journey" ++ [0, 7]) ++ [1, 2]))),
      .asks 0 (.get "journey" [8]) (fun _ => 9) none,
      .tampers (plain.keyedHash 5 (utf8 "journey" ++ [0, 8]))
        (some (1 :: 5 :: 9 :: (Plain.head (utf8 "journey" ++ [0, 8]) ++ [3]))),
      .asks 0 (.get "journey" [8]) (fun _ => 9) none]

example : ((Shared.fresh "memory").history Plain.moving).map Prod.snd =
    [.ok .done, .ok .done,
      .error (.refused "memory record of kind 'journey'" "its tag does not match"),
      .ok (.got (some [3]))] := rfl

theorem Plain.moving_copies : Copies "memory" Plain.moving := by
  intro n event hn bytes hbytes
  have hlt : n < 13 := (List.getElem?_eq_some_iff.mp hn).1
  interval_cases n
  all_goals
    obtain rfl := Option.some.inj hn
    simp only [Event.Reaches, Option.some.injEq] at hbytes
  · subst hbytes
    exact .inr ⟨9, by omega, plain.keyedHash 5 (utf8 "journey" ++ [0, 7]), rfl⟩
  · subst hbytes
    exact .inr ⟨9, by omega, plain.keyedHash 5 (utf8 "journey" ++ [0, 8]), rfl⟩

theorem never_another_moving :
    ∃ operation answer, (operation, .ok answer) ∈ ((Shared.fresh "memory").history
        Plain.moving).take 3 ∧ Answer.Sets ⟨"journey", [8], some [3]⟩ operation answer := by
  have hworded : ∀ event ∈ Plain.moving, event.Worded := by
    have hword : Word "journey" := by decide +kernel
    simp [Plain.moving, Plain.race, Plain.lost, Event.Worded, Operation.Worded, Operation.names,
      Operation.Fits, hword]
  have hhistory : (Shared.fresh "memory").history Plain.moving =
      ((Shared.fresh "memory").history Plain.moving).take 3 ++
        (.get "journey" [8], .ok (.got (some [3]))) :: [] := rfl
  exact (never_another Plain.moving_copies hworded hhistory).1 "journey" [8] [3] ⟨rfl, rfl, rfl⟩

end XmipPersist.EncryptedStore
