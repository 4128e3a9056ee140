import XmipPersist.Library.Steps
import XmipPersist.Verification.Encrypted.Openers

/-! # What a shared engine keeps, as its stores read it

Over a run of openers, operations and views of them in any order, every operation answers as one
store in the clear does that is asked the same operations in their order, and that fails where,
and with what, the key or the engine fails the operation.
-/

namespace XmipPersist.EncryptedStore

variable {k : DataKeys}

/-! ## Asked in the clear -/

/-- What an operation answers in the clear, and what is kept after it, where it fails as told. -/
def Clears.asked (c : Clears) (fails : Option PersistError) (operation : Operation) :
    Except PersistError Answer × Clears :=
  match fails with
  | some e => (.error e, c)
  | none => (.ok (c.perform operation).1, (c.perform operation).2)

/-- An engine that several share, and beside it a store in the clear. -/
structure Beside (k : DataKeys) where
  shared : Shared k
  clear : Clears

namespace Beside

/-- What is in the clear answers the operation an event asks, failed where its key or its engine
fails it. -/
def inClear (b : Beside k) : Event k → Option (Operation × Except PersistError Answer) × Clears
  | .asks opener operation drawn failure =>
      match b.shared.openings opener with
      | some (.holds store) =>
          let fails := b.shared.failing store drawn failure operation
          (some (operation, (b.clear.asked fails operation).1), (b.clear.asked fails operation).2)
      | _ => (none, b.clear)
  | _ => (none, b.clear)

def after (b : Beside k) (event : Event k) : Beside k :=
  ⟨b.shared.after event, (b.inClear event).2⟩

/-- An event's operation is answered as in the clear. -/
def Legal (b : Beside k) (event : Event k) : Prop :=
  b.shared.answers event = (b.inClear event).1

end Beside

/-! ## The engine over a run -/

/-- An event within what a run is told of: its records among `places`, whose hashes the data keys
drawn tell apart, its identifiers of 128 bits, and nothing kept past a store but what is a store's
own. -/
def Event.Fits (places : Set (String × Bytes)) : Event k → Prop
  | .opens .. => True
  | .steps _ drawn _ => ∀ store, derived (k.generate (drawn 0)) = .ok store →
      Apart k store.lookup places
  | .asks _ operation .. => operation.names ⊆ places ∧ operation.Fits
  | .keeps key _ => own <+: key ∧ key ≠ dataKey
  | .tampers .. => False

/-- An engine that keeps nothing but what is a store's own. -/
def Engine.Bare (engine : Engine) : Prop :=
  ∀ key value, engine.kept.get key = some value → own <+: key

theorem Engine.Bare.represents {engine : Engine} (h : engine.Bare) {store : EncryptedStore k}
    {places : Set (String × Bytes)} (hapart : Apart k store.lookup places) :
    Represents store places engine .empty where
  records p hp := by
    cases hkept : engine.kept.get (store.lookupKey p.1 p.2) with
    | none => exact .none
    | some stored => exact absurd (h _ _ hkept) (hapart.own p hp)
  entries key _ := by
    cases hkept : engine.kept.get (index ++ key) with
    | none => exact .none
    | some stored => exact absurd (h _ _ hkept) (index_not_own ⟨key, rfl⟩)

theorem Engine.Bare.with' {engine : Engine} (h : engine.Bare) {key : Bytes} (hown : own <+: key)
    (value : Option Bytes) : (engine.with' key value).Bare := by
  intro key' value' hkept
  by_cases he : key' = key
  · rwa [he]
  · rw [with_get_of_ne _ he] at hkept
    exact h key' value' hkept

/-- What a shared engine keeps is what is in the clear: nothing, while no one has opened it, and
sealed under the one data key once someone has. -/
inductive Shared.Keeps (places : Set (String × Bytes)) (s : Shared k) (c : Clears) : Prop
  | unopened (h : s.Unopened) (hbare : s.engine.Bare) (hviews : s.views = []) (hc : c = .empty) :
      Keeps places s c
  | under {data : k.Key} {wrapped : Bytes} (h : s.Under data wrapped)
      (hkeeps : ∀ store, derived data = .ok store → Apart k store.lookup places ∧
        Represents store places s.engine c.now ∧
          List.Forall₂ (Represents store places) s.views c.views) : Keeps places s c

namespace Shared.Keeps

variable {places : Set (String × Bytes)} {s : Shared k} {c : Clears} {event : Event k}

/-- What an event does to a shared engine it does in the clear, and answers so. -/
theorem step (h : s.Keeps places c) (hfits : event.Fits places) :
    (s.after event).Keeps places ((⟨s, c⟩ : Beside k).inClear event).2 ∧
      (⟨s, c⟩ : Beside k).Legal event := by
  cases event with
  | opens opener kek =>
      refine ⟨?_, rfl⟩
      cases h with
      | unopened h hbare hviews hc =>
          exact .unopened ⟨h.kept, openings_update nofun h.unheld⟩ hbare hviews hc
      | under h hkeeps => exact .under (h.after (.opens opener kek) trivial) hkeeps
  | steps opener drawn failure =>
      refine ⟨?_, rfl⟩
      cases h with
      | unopened h hbare hviews hc =>
          cases hopening : s.openings opener with
          | none =>
              simp only [Shared.after, hopening]
              exact .unopened h hbare hviews hc
          | some opening =>
              simp only [Shared.after, hopening]
              rcases Opening.step_unheld drawn failure h.kept
                (h.unheld opener opening hopening) with ⟨hnext, hengine⟩ | ⟨kek, wrapped, hwrap,
                  hnext, hengine⟩
              · simp only [hengine]
                exact .unopened ⟨h.kept, openings_update hnext h.unheld⟩ hbare hviews hc
              · have hunder : Shared.Under ⟨s.engine.with' dataKey (some wrapped),
                    Function.update s.openings opener
                      (some (opening.step drawn failure s.engine).1), s.views⟩
                    (k.generate (drawn 0)) wrapped := by
                  refine ⟨by simp [Engine.with'], ⟨kek, _, hwrap⟩, openings_update hnext ?_⟩
                  intro other opening hother store hholds
                  exact absurd hholds (h.unheld other opening hother store)
                have hbare' := hbare.with' own_dataKey (some wrapped)
                simp only [hengine]
                refine .under hunder fun store hderived => ?_
                have hapart := hfits store hderived
                refine ⟨hapart, ?_, ?_⟩
                · rw [hc]
                  exact hbare'.represents hapart
                · rw [hc, hviews]
                  exact .nil
      | under h hkeeps =>
          have hnext := h.after (.steps opener drawn failure) trivial
          cases hopening : s.openings opener with
          | none =>
              simp only [Shared.after, hopening] at hnext ⊢
              exact .under hnext hkeeps
          | some opening =>
              obtain ⟨kek, drawn', hwrapped⟩ := h.wrapped
              have hengine := (Opening.step_of drawn failure h.kept
                hwrapped (h.held opener opening hopening)).2
              simp only [Shared.after, hopening, hengine] at hnext ⊢
              exact .under hnext hkeeps
  | asks opener operation drawn failure =>
      cases hholds : s.openings opener with
      | none =>
          simp only [Shared.after, Beside.Legal, Beside.inClear, Shared.answers, hholds]
          exact ⟨h, trivial⟩
      | some opening =>
          cases opening with
          | begun kek | creates kek | again kek | failed e =>
              simp only [Shared.after, Beside.Legal, Beside.inClear, Shared.answers, hholds]
              exact ⟨h, trivial⟩
          | holds store =>
              cases h with
              | unopened h hbare hviews hc => exact absurd rfl (h.unheld opener _ hholds store)
              | @under data wrapped h hkeeps =>
                  have hderived := h.held opener _ hholds store rfl
                  obtain ⟨hapart, hnow, hviews⟩ := hkeeps store hderived
                  have hmade := perform_performed drawn failure hapart
                    hnow hviews hfits.1 hfits.2
                  have hunder := h.after (.asks opener operation drawn failure) trivial
                  simp only [Shared.after, Beside.Legal, Beside.inClear, Shared.answers,
                    hholds] at hunder ⊢
                  cases hperform : s.perform store drawn failure operation with
                  | error e =>
                      rw [hperform] at hmade
                      have hfails : s.failing store drawn failure operation = some e := hmade
                      simp only [hfails, Clears.asked, Except.map]
                      exact ⟨.under h hkeeps, trivial⟩
                  | ok made =>
                      obtain ⟨answer, s'⟩ := made
                      rw [hperform] at hmade hunder
                      obtain ⟨hfails, hanswer, -, hnow', hviews'⟩ := hmade
                      simp only [hfails, Clears.asked, Except.map]
                      refine ⟨.under hunder fun store' hderived' => ?_, by rw [hanswer]⟩
                      obtain rfl := Except.ok.inj (hderived.symm.trans hderived')
                      exact ⟨hapart, hnow', hviews'⟩
  | keeps key value =>
      refine ⟨?_, rfl⟩
      cases h with
      | unopened h hbare hviews hc =>
          have hkept := with_get_of_ne s.engine (Ne.symm hfits.2) value
          exact .unopened ⟨hkept.trans h.kept, h.unheld⟩ (hbare.with' hfits.1 value) hviews hc
      | under h hkeeps =>
          refine .under (h.after (.keeps key value) hfits.2) fun store hderived => ?_
          obtain ⟨hapart, hnow, hviews⟩ := hkeeps store hderived
          exact ⟨hapart, hnow.ownKept hapart hfits.1 value, hviews⟩
  | tampers key value => exact hfits.elim

theorem legal (h : s.Keeps places c) {events : List (Event k)}
    (hfits : ∀ event ∈ events, event.Fits places) :
    EachStep Beside.after Beside.Legal (⟨s, c⟩ : Beside k) events := by
  induction events generalizing s c with
  | nil => trivial
  | cons event events ih =>
      obtain ⟨hnext, hlegal⟩ := h.step (hfits event (by simp))
      exact ⟨hlegal, ih hnext fun e he => hfits e (by simp [he])⟩

end Shared.Keeps

theorem Shared.fresh_keeps (name : String) (places : Set (String × Bytes)) :
    (fresh name : Shared k).Keeps places .empty :=
  .unopened (fresh_unopened name) nofun rfl rfl

/-- Whatever openers share an engine and in whatever order they come to it, ask their operations
and take their views, each is answered as one store in the clear answers all of them, and fails,
leaving nothing, exactly where the key fails to seal what it writes or the engine fails, with what
they fail with: no record of the store's own is ever refused. -/
theorem legal_history {name : String} {places : Set (String × Bytes)} {events : List (Event k)}
    (hfits : ∀ event ∈ events, event.Fits places) :
    EachStep Beside.after Beside.Legal (⟨Shared.fresh name, .empty⟩ : Beside k) events :=
  (Shared.fresh_keeps name places).legal hfits

/-- Two that raced to open an engine, and what they then ask of it. -/
def Plain.asking : List (Event plain) :=
  Plain.race ++ Plain.lost ++
    [.asks 0 (.put "journey" [7] [1, 2]) (fun _ => 9) none,
      .asks 1 (.applyIndexed [⟨"journey", [8], some [3]⟩] [([97, 1], some 7), ([97, 3], some 8)])
        (fun _ => 9) none,
      .asks 1 .view (fun _ => 9) none,
      .keeps (own ++ [115]) (some [0]),
      .asks 0 (.remove "journey" [7]) (fun _ => 9) (some "read only"),
      .asks 0 (.remove "journey" [7]) (fun _ => 9) none,
      .asks 0 (.putNew "journey" [8] [4]) (fun _ => 9) none,
      .asks 1 (.get "journey" [7]) (fun _ => 9) none,
      .asks 1 (.getIn 0 "journey" [7]) (fun _ => 9) none,
      .asks 0 (.scanIndexKeyed [97] [98] 5 true) (fun _ => 9) none]

theorem Plain.apart {key : UInt8} (hkey : key ≠ 0) :
    Apart plain key {("journey", [7]), ("journey", [8])} where
  told := by
    rintro p (rfl | rfl) q (rfl | rfl) h
    · rfl
    · simp only [place_bytes, List.cons_append, List.take_succ_cons, List.cons.injEq] at h
      exact absurd h.2 (by decide +kernel)
    · simp only [place_bytes, List.cons_append, List.take_succ_cons, List.cons.injEq] at h
      exact absurd h.2 (by decide +kernel)
    · rfl
  index := by
    rintro p (rfl | rfl) ⟨rest, hrest⟩
    · exact hkey (List.cons.inj hrest).1.symm
    · exact hkey (List.cons.inj hrest).1.symm
  own := by
    rintro p (rfl | rfl) ⟨rest, hrest⟩
    · exact hkey (List.cons.inj hrest).1.symm
    · exact hkey (List.cons.inj hrest).1.symm

theorem legal_history_asking :
    EachStep Beside.after Beside.Legal (⟨Shared.fresh "memory", .empty⟩ : Beside plain)
      Plain.asking := by
  apply @legal_history plain "memory" {("journey", [7]), ("journey", [8])}
  have hsteps : ∀ drawn : UInt8, drawn ≠ 0 → ∀ store : EncryptedStore plain,
      derived drawn = .ok store →
        Apart plain store.lookup {("journey", [7]), ("journey", [8])} := by
    intro drawn hdrawn store h
    obtain rfl := Except.ok.inj h
    exact Plain.apart hdrawn
  intro event hevent
  simp only [Plain.asking, Plain.race, Plain.lost, List.cons_append, List.nil_append,
    List.mem_cons, List.not_mem_nil, or_false] at hevent
  rcases hevent with rfl | rfl | rfl | rfl | rfl | rfl | rfl | rfl | rfl | rfl | rfl | rfl | rfl |
    rfl | rfl | rfl | rfl
  all_goals first
    | exact hsteps _ (by decide)
    | exact ⟨List.prefix_append _ _, by decide +kernel⟩
    | simp [Event.Fits, Operation.names, Operation.Fits]

example : ((Shared.fresh "memory").history Plain.asking).map Prod.snd =
    [.ok .done, .ok .done, .ok .done, .error (.engine "memory" "read only"), .ok .done,
      .ok (.new false), .ok (.got none), .ok (.got (some [1, 2])),
      .ok (.found [([97, 3], 8), ([97, 1], 7)])] := rfl

end XmipPersist.EncryptedStore
