import XmipPersist.Verification.Audit.Forgotten
import XmipPersist.Verification.Standby.Dated

/-! # The audit on a standby

A primary writes a record's row to its audit database before it forgets the record in its runtime
database. A standby is handed the runtime database's writes of a turn first. One that takes the
write that forgets a record before the row has neither, until it is handed the row: cut off
between the two, it may be promoted without it.
-/

namespace XmipPersist

open Standby

variable {digest : Publication → Bytes} {codec : Codec} {sha : Bytes → Bytes} {κ : Type}
  {keys : EngineKeys κ}

/-! ## An engine's entries and a store's records -/

namespace EngineKeys

theorem record_mem_write {laid : Laid} {p : Place} :
    keys.record p ∈ (keys.write laid).map Prod.fst ↔ ∃ c ∈ laid.1, c.place = p := by
  simp only [write, List.map_append, List.map_map, List.mem_append, List.mem_map,
    Function.comp_apply]
  constructor
  · rintro (⟨c, hc, hp⟩ | ⟨e, -, he⟩)
    · exact ⟨c, hc, keys.record_injective hp⟩
    · exact absurd he.symm (keys.apart p e.1)
  · rintro ⟨c, hc, rfl⟩
    exact .inl ⟨c, hc, rfl⟩

variable [LinearOrder κ]

/-- What a write leaves under a record's key. -/
theorem get_write (entries : OrderedMap κ Value) (laid : Laid) (p : Place) :
    (entries.apply (keys.write laid)).get (keys.record p) =
      ((written laid.1 p).map fun value => value.map .inl).getD
        (entries.get (keys.record p)) := by
  obtain ⟨cs, es⟩ := laid
  have hentries : ∀ m : OrderedMap κ Value,
      (m.apply (es.map fun e => (keys.entry e.1, e.2.map .inr))).get (keys.record p) =
        m.get (keys.record p) := by
    intro m
    refine OrderedMap.get_apply_of_notMem m fun h => ?_
    obtain ⟨e, -, he⟩ := List.mem_map.mp (by rwa [List.map_map] at h)
    exact keys.apart p e.1 he.symm
  rw [write, OrderedMap.apply_append, hentries]
  induction cs generalizing entries with
  | nil => rfl
  | cons c cs ih =>
      rw [List.map_cons, OrderedMap.apply_cons, ih, written_cons]
      cases hw : written cs p with
      | some value => rfl
      | none =>
          simp only [Option.none_or, Option.map_none, Option.getD_none, OrderedMap.get_change]
          by_cases hp : c.place = p
          · simp [hp]
          · have hne : keys.record p ≠ keys.record c.place :=
              fun he => hp (keys.record_injective he).symm
            simp [hp, hne]

variable (keys) in
/-- An engine's entries hold a store's records. -/
def Holds (entries : OrderedMap κ Value) (s : Store) : Prop :=
  ∀ p, entries.get (keys.record p) = (s.records p).map .inl

theorem Holds.write {entries : OrderedMap κ Value} {s : Store} (h : keys.Holds entries s)
    (laid : Laid) :
    keys.Holds (entries.apply (keys.write laid)) (s.applyIndexed laid.1 laid.2) := by
  intro p
  rw [get_write, h p]
  simp only [Store.applyIndexed]
  cases written laid.1 p <;> rfl

theorem Holds.forgotten {entries : OrderedMap κ Value} {s : Store} (h : keys.Holds entries s)
    {n : ℕ} (hn : s.get (.sequence, .kept) >>= numbered = .ok n) :
    keys.forgotten entries = .ok n := by
  obtain ⟨found, hfound, hnumbered⟩ := bind_eq_ok.mp hn
  have hrecord : s.records (.sequence, .kept) = found := by
    unfold Store.get at hfound
    split at hfound
    · cases hfound
    · exact Except.ok.inj hfound
  rw [EngineKeys.forgotten, kept, h, hrecord, ← hnumbered]
  cases found <;> rfl

theorem Holds.hasRow {entries : OrderedMap κ Value} {s : Store} (h : keys.Holds entries s)
    {id : ℕ} (hrow : s.HasRow id) :
    ∃ row, entries.get (keys.record (.keptAudit, .id id)) = some row := by
  obtain ⟨row, hrow⟩ := Option.isSome_iff_exists.mp hrow
  exact ⟨.inl row, by rw [h, hrow]; rfl⟩

end EngineKeys

variable [LinearOrder κ]

/-! ## A Storage node's records, kept or forgotten -/

/-- Every record the runtime database has forgotten is in the audit database as it was kept. -/
def EngineKeys.Keeps (keys : EngineKeys κ) (recorded : List AuditEntry)
    (audit : OrderedMap κ EngineKeys.Value)
    (engines : Database → Engine κ EngineKeys.Value) : Prop :=
  ∀ kept, keys.forgotten (engines 0).entries = .ok kept → ∀ n < kept,
    ∃ entry, recorded[n]? = some entry ∧
      (∃ row, audit.get (keys.record (.keptAudit, .id entry.id)) = some row) ∧
        ∀ p : Place, p.keptOf = some entry.id →
          (engines 2).entries.get (keys.record p) = audit.get (keys.record p)

theorem EngineKeys.Keeps.congr {recorded : List AuditEntry}
    {audit : OrderedMap κ EngineKeys.Value}
    {engines engines' : Database → Engine κ EngineKeys.Value}
    (h : keys.Keeps recorded audit engines)
    (hsame : ∀ d, (engines' d).entries = (engines d).entries) :
    keys.Keeps recorded audit engines' := by
  intro kept hkept n hn
  rw [hsame] at hkept
  obtain ⟨entry, hentry, hrow, hplaces⟩ := h kept hkept n hn
  exact ⟨entry, hentry, hrow, fun p hp => by rw [hsame, hplaces p hp]⟩

/-- What a value under the key of the first record not forgotten tells of: the places of those
before it. -/
def EngineKeys.Tells (keys : EngineKeys κ) (recorded : List AuditEntry)
    (value : Option EngineKeys.Value) (key : κ) : Prop :=
  ∃ kept, numbered (value.bind Sum.getLeft?) = .ok kept ∧ ∃ n < kept, ∃ entry,
    recorded[n]? = some entry ∧ ∃ p : Place, p.keptOf = some entry.id ∧ key = keys.record p

namespace CopiedNode

variable {bounds : Bounds κ EngineKeys.Value} {c : CopiedNode κ} {act : Act κ}
  {acts acts' : List (Act κ)}

/-! ## One run of the two -/

theorem after_node : (c.after codec sha digest bounds keys act).node =
    c.acted codec sha digest act := by
  unfold after
  split <;> rfl

/-- What stands between the node and its standby is one run of the two. -/
def eventsOver (digest : Publication → Bytes) (codec : Codec) (sha : Bytes → Bytes)
    (bounds : Bounds κ EngineKeys.Value) (keys : EngineKeys κ) :
    CopiedNode κ → List (Act κ) → List (PairEvent κ EngineKeys.Value)
  | _, [] => []
  | c, act :: acts => (c.event digest keys act).toList ++
      eventsOver digest codec sha bounds keys (c.after codec sha digest bounds keys act) acts

theorem after_pair : (c.after codec sha digest bounds keys act).pair =
    c.pair.run bounds (c.event digest keys act).toList := by
  unfold after
  split <;> next h => simp [h, Pair.run]

theorem run_pair : (c.run codec sha digest bounds keys acts).pair =
    c.pair.run bounds (c.eventsOver digest codec sha bounds keys acts) := by
  induction acts generalizing c with
  | nil => rfl
  | cons act acts ih =>
      rw [eventsOver, Pair.run, List.foldl_append]
      exact ih.trans (by rw [after_pair]; rfl)

/-- What is no write leaves the primary and its log. -/
theorem after_same {event : PairEvent κ EngineKeys.Value} (pair : Pair κ EngineKeys.Value)
    (hwrite : ∀ d changes, event ≠ .write d changes) :
    (pair.after bounds event).primary = pair.primary ∧
      (pair.after bounds event).log = pair.log := by
  cases event with
  | write d changes => exact absurd rfl (hwrite d changes)
  | follow =>
      simp only [Pair.after, Pair.follow]
      split
      · exact ⟨rfl, rfl⟩
      · split <;> exact ⟨rfl, rfl⟩
  | ship idle =>
      simp only [Pair.after]
      split <;> exact ⟨rfl, rfl⟩
  | take =>
      simp only [Pair.after]
      split
      · exact ⟨rfl, rfl⟩
      · simp only [Pair.take]
        split
        · exact ⟨rfl, rfl⟩
        · split <;> exact ⟨rfl, rfl⟩
  | cut =>
      simp only [Pair.after]
      split <;> exact ⟨rfl, rfl⟩
  | restart process => exact ⟨rfl, rfl⟩
  | lost => exact ⟨rfl, rfl⟩

/-- A step that is no write leaves the primary and its log. -/
theorem event_same (hwrite : ∀ d changes, c.event digest keys act ≠ some (.write d changes)) :
    (c.after codec sha digest bounds keys act).pair.primary = c.pair.primary ∧
      (c.after codec sha digest bounds keys act).pair.log = c.pair.log := by
  rw [after_pair]
  cases hevent : c.event digest keys act with
  | none => exact ⟨rfl, rfl⟩
  | some event =>
      have hother : ∀ d changes, event ≠ .write d changes :=
        fun d changes he => hwrite d changes (by rw [hevent, he])
      exact after_same c.pair hother

/-! ## The primary's databases -/

variable (keys) in
/-- The primary's engines hold what the node has in its databases. -/
structure Agrees (c : CopiedNode κ) : Prop where
  runtime : keys.Holds (c.pair.primary.engines 0).entries c.node.writer.store
  audit : keys.Holds (c.pair.primary.engines 2).entries c.node.audit

/-- A write the primary makes while it is not lost. -/
theorem after_write {pair : Pair κ EngineKeys.Value} (hlost : pair.lost = false) (d e : Database)
    (changes : List (Standby.Change κ EngineKeys.Value)) :
    ((pair.after bounds (.write d changes)).primary.engines e).entries =
      if e = d then (pair.primary.engines e).entries.apply changes
      else (pair.primary.engines e).entries := by
  by_cases he : e = d
  · subst he
    simp [Pair.after, hlost, Pair.write, StorageNode.perform, StorageNode.onEngine, Engine.apply]
  · simp [Pair.after, hlost, he, Pair.write, StorageNode.perform, StorageNode.onEngine]

theorem Agrees.after (h : c.Agrees keys) (act : Act κ) :
    (c.after codec sha digest bounds keys act).Agrees keys := by
  have hsame : ∀ {c' : CopiedNode κ}, c'.node = c.node → c'.pair.primary = c.pair.primary →
      c'.Agrees keys := by
    intro c' hnode hprimary
    refine ⟨?_, ?_⟩ <;> rw [hnode, hprimary]
    · exact h.runtime
    · exact h.audit
  by_cases hlost : c.pair.lost = true
  · refine hsame ?_ ?_
    · rw [after_node]
      cases act <;> simp [acted, hlost]
    · rw [after_pair]
      cases hevent : c.event digest keys act with
      | none => rfl
      | some event =>
          by_cases hwrite : ∃ d changes, event = .write d changes
          · obtain ⟨d, changes, rfl⟩ := hwrite
            simp [Pair.run, Pair.after, hlost]
          · exact (after_same c.pair fun d changes he => hwrite ⟨d, changes, he⟩).1
  · have hlost : c.pair.lost = false := by simpa using hlost
    cases act with
    | node act =>
        have hnode : (c.after codec sha digest bounds keys (.node act)).node =
            c.node.after codec sha digest act := by simp [after_node, acted, hlost]
        have hlays : c.node.Lays (c.node.after codec sha digest act) (c.node.wrote digest act) :=
          Embedded.after_lays c.node act
        cases hw : c.node.wrote digest act with
        | none =>
            rw [hw] at hlays
            have hpair : (c.after codec sha digest bounds keys (.node act)).pair = c.pair := by
              simp [after_pair, event, hw, Pair.run]
            refine ⟨?_, ?_⟩ <;> rw [hnode, hpair]
            · rw [hlays.1]
              exact h.runtime
            · rw [hlays.2]
              exact h.audit
        | some w =>
            obtain ⟨d, laid⟩ := w
            rw [hw] at hlays
            have hpair : (c.after codec sha digest bounds keys (.node act)).pair =
                c.pair.after bounds (.write d (keys.write laid)) := by
              simp [after_pair, event, hw, Pair.run]
            refine ⟨?_, ?_⟩ <;> rw [hnode, hpair, after_write hlost] <;>
              rcases hlays with ⟨rfl, hstore, haudit⟩ | ⟨rfl, hstore, haudit⟩
            · rw [if_pos rfl, hstore]
              exact h.runtime.write laid
            · rw [if_neg (by decide), hstore]
              exact h.runtime
            · rw [if_neg (by decide), haudit]
              exact h.audit
            · rw [if_pos rfl, haudit]
              exact h.audit.write laid
    | administered changes =>
        refine ⟨?_, ?_⟩ <;> rw [after_node, after_pair]
        · exact (congrArg (keys.Holds · _) (after_write hlost 1 0 changes)).mpr h.runtime
        · exact (congrArg (keys.Holds · _) (after_write hlost 1 2 changes)).mpr h.audit
    | _ =>
        refine hsame (by rw [after_node]; rfl) (event_same fun d changes he => ?_).1
        cases he

/-! ## Runs -/

section Runs

variable (codec : Codec) (sha : Bytes → Bytes) (digest : Publication → Bytes)
  (bounds : Bounds κ EngineKeys.Value) (keys : EngineKeys κ)

/-- A step as the node makes it, its audit sequence read again after a batch that panicked with
numbers taken. -/
def Makes (c : CopiedNode κ) (act : Act κ) : Prop :=
  ∀ step, act = .node step → c.pair.lost = false →
    c.node.Makes step ∧ c.node.Recovers digest step

/-- What a standby takes next is no write that forgets a record, made after a write to the audit
database it has not. -/
def HandedInTurn (c : CopiedNode κ) : Option (Sent κ EngineKeys.Value) → Prop
  | some ⟨.copy d number changes, _⟩ =>
      d = 0 → number = c.pair.standby.copies.next 0 → keys.kept ∈ changes.map Prod.fst →
        c.dated number ≤ c.pair.standby.copies.next 2
  | _ => True

instance (c : CopiedNode κ) : DecidablePred (HandedInTurn keys c)
  | some ⟨.copy d number changes, _⟩ => inferInstanceAs (Decidable (d = 0 →
      number = c.pair.standby.copies.next 0 → keys.kept ∈ changes.map Prod.fst →
        c.dated number ≤ c.pair.standby.copies.next 2))
  | none => .isTrue trivial
  | some ⟨.whole _ _ _, _⟩ => .isTrue trivial
  | some ⟨.entries _ _, _⟩ => .isTrue trivial
  | some ⟨.copied _ _, _⟩ => .isTrue trivial
  | some ⟨.beat _, _⟩ => .isTrue trivial
  | some ⟨.declined _, _⟩ => .isTrue trivial

/-- A standby takes the write that forgets a record once it has every write to the audit database
made before it. -/
def InTurn (c : CopiedNode κ) : Act κ → Prop
  | .take => c.HandedInTurn keys
      (c.pair.connection.bind fun connection => connection.frames.head?)
  | _ => True

instance (c : CopiedNode κ) : DecidablePred (InTurn keys c)
  | .take => inferInstanceAs (Decidable (c.HandedInTurn keys
      (c.pair.connection.bind fun connection => connection.frames.head?)))
  | .node _ => .isTrue trivial
  | .administered _ => .isTrue trivial
  | .follow => .isTrue trivial
  | .ship _ => .isTrue trivial
  | .cut => .isTrue trivial
  | .restart _ => .isTrue trivial
  | .lost => .isTrue trivial

/-- The audit records a step numbered. -/
def recorded (c : CopiedNode κ) : Act κ → List AuditEntry
  | .node act => if c.pair.lost then [] else (c.node.recorded digest act).map Prod.fst
  | _ => []

/-- Those a run numbered, in order. -/
def recordedOver : CopiedNode κ → List (Act κ) → List AuditEntry
  | _, [] => []
  | c, act :: acts => c.recorded digest act ++
      recordedOver (c.after codec sha digest bounds keys act) acts

/-- What the primary's next writes were in some state of a run. -/
def Moment (c : CopiedNode κ) (acts : List (Act κ)) (n q : ℕ) : Prop :=
  ∃ before, before <+: acts ∧
    (c.run codec sha digest bounds keys before).pair.primary.copies.next 0 = n ∧
      (c.run codec sha digest bounds keys before).pair.primary.copies.next 2 = q

end Runs

theorem recordedOver_append :
    c.recordedOver codec sha digest bounds keys (acts ++ acts') =
      c.recordedOver codec sha digest bounds keys acts ++
        (c.run codec sha digest bounds keys acts).recordedOver codec sha digest bounds keys
          acts' := by
  induction acts generalizing c with
  | nil => rfl
  | cons act acts ih =>
      rw [List.cons_append, recordedOver, recordedOver, ih, List.append_assoc]
      rfl

variable {kept id : ℕ} {entries : List AuditEntry}

theorem after_forgets (h : c.node.Forgets kept entries) (hmakes : c.Makes digest act) :
    ∃ kept', (c.after codec sha digest bounds keys act).node.Forgets kept'
      (entries ++ c.recorded digest act) := by
  rw [after_node]
  cases act with
  | node step =>
      by_cases hlost : c.pair.lost = true
      · exact ⟨kept, by simpa [acted, recorded, hlost] using h⟩
      · have hlost : c.pair.lost = false := by simpa using hlost
        obtain ⟨hmade, hrecovers⟩ := hmakes step rfl hlost
        obtain ⟨kept', more, hforgets, hmore⟩ : ∃ kept' more,
            (c.node.after codec sha digest step).Forgets kept' (entries ++ more) ∧
              c.node.recorded digest step = more.zipIdx entries.length :=
          h.after hmade hrecovers
        refine ⟨kept', ?_⟩
        simpa [acted, recorded, hlost, hmore, List.zipIdx_map_fst] using hforgets
  | _ => exact ⟨kept, by simpa [acted, recorded] using h⟩

/-- A run of the node keeps its rows. -/
theorem run_forgets (h : c.node.Forgets kept entries)
    (hmakes : EachStep (after codec sha digest bounds keys) (Makes digest) c acts) :
    ∃ kept', (c.run codec sha digest bounds keys acts).node.Forgets kept'
      (entries ++ c.recordedOver codec sha digest bounds keys acts) := by
  induction acts generalizing c kept entries with
  | nil => exact ⟨kept, by rwa [recordedOver, List.append_nil]⟩
  | cons act acts ih =>
      obtain ⟨kept₁, hstep⟩ : ∃ kept₁,
          (c.after codec sha digest bounds keys act).node.Forgets kept₁
            (entries ++ c.recorded digest act) := after_forgets h hmakes.head
      obtain ⟨kept', hrun⟩ := ih hstep hmakes.tail
      exact ⟨kept', by rwa [recordedOver, ← List.append_assoc]⟩

variable (codec sha digest bounds keys) in
/-- The run of the primary is as its log leaves it. -/
theorem run_logged (node : Embedded) (primary standby : StorageNode κ EngineKeys.Value)
    (acts : List (Act κ)) :
    Logged primary ((begun node primary standby).run codec sha digest bounds keys acts).pair.primary
      ((begun node primary standby).run codec sha digest bounds keys acts).pair.log := by
  rw [run_pair]
  have hbegun : Pair.Kept (.still False) primary bounds (Pair.begun primary standby) :=
    Pair.Kept.begun primary standby trivial
  exact (hbegun.run _ (EachStep.of_forall
    (fun _ _ => Course.still_follows fun hq => hq.elim) _ _)).logged

variable (codec sha digest bounds keys) in
/-- What a step adds to a database's log: the write it makes there. -/
theorem after_log (c : CopiedNode κ) (act : Act κ) (d : Database) :
    (c.after codec sha digest bounds keys act).pair.log d = c.pair.log d ∨
      ∃ changes, c.event digest keys act = some (.write d changes) ∧ c.pair.lost = false ∧
        (c.after codec sha digest bounds keys act).pair.log d = c.pair.log d ++ [changes] := by
  by_cases hwrite : ∃ d' changes, c.event digest keys act = some (.write d' changes)
  · obtain ⟨d', changes, hevent⟩ := hwrite
    have hpair : (c.after codec sha digest bounds keys act).pair =
        c.pair.after bounds (.write d' changes) := by simp [after_pair, hevent, Pair.run]
    rw [hpair]
    by_cases hlost : c.pair.lost = true
    · exact .inl (by simp [Pair.after, hlost])
    · have hlost : c.pair.lost = false := by simpa using hlost
      by_cases hnil : changes = []
      · exact .inl (by simp [Pair.after, hlost, Pair.write, hnil])
      · by_cases hd : d = d'
        · subst hd
          exact .inr ⟨changes, hevent, hlost, by simp [Pair.after, hlost, Pair.write, hnil]⟩
        · exact .inl (by simp [Pair.after, hlost, Pair.write, hnil, hd])
  · have hsame : _ ∧ (c.after codec sha digest bounds keys act).pair.log = c.pair.log :=
      event_same fun d' changes he => hwrite ⟨d', changes, he⟩
    exact .inl (congrFun hsame.2 d)

variable (codec sha digest bounds keys) in
theorem run_log (c : CopiedNode κ) (acts : List (Act κ)) (d : Database) :
    c.pair.log d <+: (c.run codec sha digest bounds keys acts).pair.log d := by
  induction acts generalizing c with
  | nil => exact List.prefix_rfl
  | cons act acts ih =>
      have hstep : c.pair.log d <+: (c.after codec sha digest bounds keys act).pair.log d := by
        rcases after_log digest codec sha keys bounds c act d with hsame | ⟨changes, -, -, hmore⟩
        · rw [hsame]
        · exact ⟨[changes], hmore.symm⟩
      exact hstep.trans (ih _)

/-- A write to the audit database names nothing kept of a record that has its row. -/
theorem event_untouched (h : c.node.Forgets kept entries) (hrow : c.node.audit.HasRow id)
    {changes : List (Standby.Change κ EngineKeys.Value)}
    (hevent : c.event digest keys act = some (.write 2 changes)) {p : Place}
    (hp : p.keptOf = some id) : keys.record p ∉ changes.map Prod.fst := by
  cases act with
  | node step =>
      obtain ⟨⟨d, laid⟩, hw, hwrite⟩ := Option.map_eq_some_iff.mp hevent
      obtain ⟨rfl, rfl⟩ := PairEvent.write.inj hwrite
      intro hmem
      obtain ⟨change, hchange, rfl⟩ := EngineKeys.record_mem_write.mp hmem
      exact h.untouched hrow hw change hchange hp
  | administered changes => cases hevent
  | _ => cases hevent

theorem after_row (h : c.node.Forgets kept entries) (hrow : c.node.audit.HasRow id) :
    (c.after codec sha digest bounds keys act).node.audit.HasRow id := by
  rw [after_node]
  cases act with
  | node step =>
      simp only [acted]
      split
      · exact hrow
      · exact h.row_stays hrow
  | _ => exact hrow

theorem run_row (h : c.node.Forgets kept entries) (hrow : c.node.audit.HasRow id)
    (hmakes : EachStep (after codec sha digest bounds keys) (Makes digest) c acts) :
    (c.run codec sha digest bounds keys acts).node.audit.HasRow id := by
  induction acts generalizing c kept entries with
  | nil => exact hrow
  | cons act acts ih =>
      obtain ⟨kept₁, hstep⟩ : ∃ kept₁,
          (c.after codec sha digest bounds keys act).node.Forgets kept₁
            (entries ++ c.recorded digest act) := after_forgets h hmakes.head
      exact ih hstep (after_row h hrow) hmakes.tail

/-- No write made once a record has its row names what is kept of it. -/
theorem run_untouched (h : c.node.Forgets kept entries) (hrow : c.node.audit.HasRow id)
    (hmakes : EachStep (after codec sha digest bounds keys) (Makes digest) c acts) {p : Place}
    (hp : p.keptOf = some id) :
    ¬Replay.Touched ((c.run codec sha digest bounds keys acts).pair.log 2) (c.pair.log 2).length
      ((c.run codec sha digest bounds keys acts).pair.log 2).length (keys.record p) := by
  induction acts generalizing c kept entries with
  | nil =>
      rintro ⟨i, write, -, hle, hlt, -⟩
      exact absurd hlt (not_lt.mpr hle)
  | cons act acts ih =>
      obtain ⟨kept₁, hstep⟩ : ∃ kept₁,
          (c.after codec sha digest bounds keys act).node.Forgets kept₁
            (entries ++ c.recorded digest act) := after_forgets h hmakes.head
      have hlater := ih hstep (after_row h hrow) hmakes.tail
      rintro ⟨i, write, hi, hle, hlt, hmem⟩
      by_cases hi' : ((c.after codec sha digest bounds keys act).pair.log 2).length ≤ i
      · exact hlater ⟨i, write, hi, hi', hlt, hmem⟩
      · -- the one write this step makes there
        rcases after_log digest codec sha keys bounds c act 2 with
          hsame | ⟨changes, hevent, -, hmore⟩
        · rw [hsame] at hi'
          exact hi' hle
        · rw [hmore, List.length_append, List.length_singleton] at hi'
          have hlast : i = (c.pair.log 2).length := by omega
          obtain ⟨rest, hrest⟩ : c.pair.log 2 ++ [changes] <+:
              (c.run codec sha digest bounds keys (act :: acts)).pair.log 2 := by
            rw [← hmore]
            exact run_log digest codec sha keys bounds _ acts 2
          rw [← hrest, hlast, List.append_assoc, List.getElem?_append_right le_rfl] at hi
          have hwrite : changes = write := by simpa using hi
          exact event_untouched h hrow hevent hp (hwrite ▸ hmem)

/-! ## What each state of a run tells of -/

theorem run_agrees (h : c.Agrees keys) (acts : List (Act κ)) :
    (c.run codec sha digest bounds keys acts).Agrees keys := by
  induction acts generalizing c with
  | nil => exact h
  | cons act acts ih => exact ih (h.after act)

variable {node : Embedded} {primary standby : StorageNode κ EngineKeys.Value}

/-- Each record the runtime database has forgotten in a state of a run has its row from then on,
and nothing kept of it is written again. -/
theorem forgotten_settled (hagrees : (begun node primary standby).Agrees keys)
    (hforgets : node.Forgets kept entries)
    (hmakes : EachStep (after codec sha digest bounds keys) (Makes digest)
      (begun node primary standby) acts) {n q forgotten m : ℕ}
    (hmoment : Moment codec sha digest bounds keys (begun node primary standby) acts n q)
    (hnumber : numbered ((markAt primary
      ((begun node primary standby).run codec sha digest bounds keys acts).pair.log keys.kept
        n).bind Sum.getLeft?) = .ok forgotten) (hm : m < forgotten) :
    ∃ entry, (entries ++ (begun node primary standby).recordedOver codec sha digest bounds keys
        acts)[m]? = some entry ∧
      ((begun node primary standby).run codec sha digest bounds keys acts).node.audit.HasRow
        entry.id ∧
      ∀ p : Place, p.keptOf = some entry.id → ¬Replay.Touched
        (((begun node primary standby).run codec sha digest bounds keys acts).pair.log 2)
        (q - primary.copies.next 2)
        (((begun node primary standby).run codec sha digest bounds keys acts).pair.log 2).length
        (keys.record p) := by
  obtain ⟨before, ⟨later, rfl⟩, rfl, rfl⟩ := hmoment
  have hfold : ∀ acts', (begun node primary standby).run codec sha digest bounds keys acts' =
      acts'.foldl (after codec sha digest bounds keys) (begun node primary standby) := fun _ => rfl
  have hrun : (begun node primary standby).run codec sha digest bounds keys (before ++ later) =
      ((begun node primary standby).run codec sha digest bounds keys before).run codec sha digest
        bounds keys later := by
    rw [hfold, List.foldl_append]
    rfl
  have hlogged := run_logged digest codec sha keys bounds node primary standby before
  have hparts := hmakes.of_append
  have hagrees₁ : ((begun node primary standby).run codec sha digest bounds keys before).Agrees
      keys := run_agrees hagrees before
  obtain ⟨kept₁, hforgets₁⟩ : ∃ kept₁,
      ((begun node primary standby).run codec sha digest bounds keys before).node.Forgets kept₁
        (entries ++
          (begun node primary standby).recordedOver codec sha digest bounds keys before) :=
    run_forgets hforgets hparts.1
  rw [recordedOver_append, ← List.append_assoc]
  rw [← hfold] at hparts
  rw [hrun] at hnumber ⊢
  generalize (begun node primary standby).run codec sha digest bounds keys before = c at *
  generalize (begun node primary standby).recordedOver codec sha digest bounds keys before = first
    at hforgets₁ ⊢
  -- what is told of is what this state's own database says is forgotten
  have hmark : markAt primary (c.run codec sha digest bounds keys later).pair.log keys.kept
      (c.pair.primary.copies.next 0) = (c.pair.primary.engines 0).entries.get keys.kept := by
    obtain ⟨rest, hrest⟩ := run_log digest codec sha keys bounds c later 0
    rw [markAt, hlogged.next 0, Nat.add_sub_cancel_left, ← hrest, Replay.effect_append le_rfl,
      ← hlogged.entries 0]
  have hkept : forgotten = kept₁ := by
    have hforgotten := hagrees₁.runtime.forgotten hforgets₁.sequenced.writer.inSequence.keptAt
    rw [hmark] at hnumber
    exact Except.ok.inj (hnumber.symm.trans hforgotten)
  subst hkept
  have hle := hforgets₁.sequenced.writer.inSequence.le
  have hentry : (entries ++ first)[m]? = some (entries ++ first)[m] :=
    List.getElem?_eq_getElem (by omega)
  have hrow := hforgets₁.rows m hm _ hentry
  refine ⟨_, ?_, run_row hforgets₁ hrow hparts.2, fun p hp => ?_⟩
  · rw [List.getElem?_append_left (by omega)]
    exact hentry
  · have huntouched := run_untouched hforgets₁ hrow hparts.2 hp
    rwa [hlogged.next 2, Nat.add_sub_cancel_left]

/-- What the runtime database tells of in a state of a run is settled. -/
theorem settled (hagrees : (begun node primary standby).Agrees keys)
    (hforgets : node.Forgets kept entries)
    (hmakes : EachStep (after codec sha digest bounds keys) (Makes digest)
      (begun node primary standby) acts) :
    Settled primary
      ((begun node primary standby).run codec sha digest bounds keys acts).pair.log keys.kept
      (Moment codec sha digest bounds keys (begun node primary standby) acts)
      (keys.Tells (entries ++
        (begun node primary standby).recordedOver codec sha digest bounds keys acts)) := by
  rintro n q hmoment _ ⟨forgotten, hnumber, m, hm, entry, hentry, p, hp, rfl⟩
  obtain ⟨entry', hentry', -, hsettled⟩ :=
    forgotten_settled hagrees hforgets hmakes hmoment hnumber hm
  obtain rfl : entry' = entry := Option.some.inj (hentry'.symm.trans hentry)
  exact hsettled p hp

/-! ## What each state of a run is dated by -/

/-- What is dated in a state of a run: what its writes to the runtime database leave, each of
them. -/
structure DatedIn (start : StorageNode κ EngineKeys.Value)
    (log : Database → List (Replay.Write κ EngineKeys.Value)) (mark : κ) (moment : ℕ → ℕ → Prop)
    (c : CopiedNode κ) : Prop where
  moments : ∀ n ≤ c.pair.primary.copies.next 0,
    DatedBy start log mark moment n (c.pair.primary.copies.next 2)
  dated : ∀ n, start.copies.next 0 ≤ n → n < c.pair.primary.copies.next 0 →
    moment (n + 1) (c.dated n)

variable (codec sha digest bounds keys) in
theorem after_dated (c : CopiedNode κ) (act : Act κ) :
    (∀ n ≠ c.pair.primary.copies.next 0,
      (c.after codec sha digest bounds keys act).dated n = c.dated n) ∧
      ∀ changes, c.event digest keys act = some (.write 0 changes) →
        (c.after codec sha digest bounds keys act).dated (c.pair.primary.copies.next 0) =
          c.pair.primary.copies.next 2 := by
  unfold after
  split
  · next hnone => exact ⟨fun _ _ => rfl, fun changes h => by rw [hnone] at h; cases h⟩
  · next event hevent =>
      refine ⟨fun n hn => ?_, fun changes h => ?_⟩
      · simp only [datedAfter]
        split
        · exact Function.update_of_ne hn _ _
        · rfl
      · obtain rfl := Option.some.inj (hevent.symm.trans h)
        exact Function.update_self _ _ _

/-- Every state of a run is dated. -/
theorem run_dated (mark : κ) {log : Database → List (Replay.Write κ EngineKeys.Value)}
    {before : List (Act κ)} (hbefore : before <+: acts) :
    DatedIn primary log mark
      (Moment codec sha digest bounds keys (begun node primary standby) acts)
      ((begun node primary standby).run codec sha digest bounds keys before) := by
  have hmoment : ∀ before, before <+: acts → Moment codec sha digest bounds keys
      (begun node primary standby) acts
      (((begun node primary standby).run codec sha digest bounds keys
        before).pair.primary.copies.next 0)
      (((begun node primary standby).run codec sha digest bounds keys
        before).pair.primary.copies.next 2) := fun before h => ⟨before, h, rfl, rfl⟩
  induction before using List.reverseRecOn with
  | nil =>
      refine ⟨fun n hn => ?_, fun n hle hlt => absurd hlt (not_lt.mpr hle)⟩
      refine ⟨_, _, hmoment [] hbefore, le_rfl, ?_⟩
      have hn : n ≤ primary.copies.next 0 := hn
      change markAt primary log mark n = markAt primary log mark (primary.copies.next 0)
      rw [markAt, markAt, Nat.sub_self, Nat.sub_eq_zero_of_le hn]
  | append_singleton before act ih =>
      have hafter : (begun node primary standby).run codec sha digest bounds keys
          (before ++ [act]) =
            ((begun node primary standby).run codec sha digest bounds keys before).after codec sha
              digest bounds keys act := by
        simp [run, List.foldl_append]
      have hih := ih ((List.prefix_append before [act]).trans hbefore)
      have hnow := hmoment _ hbefore
      have hlogged := run_logged digest codec sha keys bounds node primary standby before
      have hlogged' := run_logged digest codec sha keys bounds node primary standby
        (before ++ [act])
      rw [hafter] at hnow hlogged' ⊢
      generalize (begun node primary standby).run codec sha digest bounds keys before = c at *
      have hnext := hlogged.next 0
      have hnext' := hlogged'.next 0
      have haudit := hlogged.next 2
      have haudit' := hlogged'.next 2
      have hgrows : c.pair.primary.copies.next 2 ≤
          (c.after codec sha digest bounds keys act).pair.primary.copies.next 2 := by
        rcases after_log digest codec sha keys bounds c act 2 with
          hsame | ⟨changes, -, -, hmore⟩
        · rw [hsame] at haudit'
          omega
        · rw [hmore, List.length_append] at haudit'
          omega
      have hkept := after_dated digest codec sha keys bounds c act
      have hearlier : ∀ n ≤ c.pair.primary.copies.next 0, DatedBy primary log mark
          (Moment codec sha digest bounds keys (begun node primary standby) acts) n
          ((c.after codec sha digest bounds keys act).pair.primary.copies.next 2) := by
        intro n hn
        obtain ⟨n', q', hm, hq, hmark⟩ := hih.moments n hn
        exact ⟨n', q', hm, hq.trans hgrows, hmark⟩
      rcases after_log digest codec sha keys bounds c act 0 with
        hsame | ⟨changes, hevent, hlost, hmore⟩
      · rw [hsame] at hnext'
        have heq : (c.after codec sha digest bounds keys act).pair.primary.copies.next 0 =
            c.pair.primary.copies.next 0 := by omega
        refine ⟨fun n hn => hearlier n (heq ▸ hn), fun n hle hlt => ?_⟩
        rw [heq] at hlt
        rw [hkept.1 n (by omega)]
        exact hih.dated n hle hlt
      · rw [hmore, List.length_append, List.length_singleton] at hnext'
        have heq : (c.after codec sha digest bounds keys act).pair.primary.copies.next 0 =
            c.pair.primary.copies.next 0 + 1 := by omega
        refine ⟨fun n hn => ?_, fun n hle hlt => ?_⟩
        · by_cases hn' : n ≤ c.pair.primary.copies.next 0
          · exact hearlier n hn'
          · have hlast : n = (c.after codec sha digest bounds keys
                act).pair.primary.copies.next 0 := by omega
            exact ⟨_, _, hnow, le_rfl, by rw [hlast]⟩
        · by_cases hn' : n < c.pair.primary.copies.next 0
          · rw [hkept.1 n (by omega)]
            exact hih.dated n hle hn'
          · have hlast : n = c.pair.primary.copies.next 0 := by omega
            subst hlast
            have hstill : (c.after codec sha digest bounds keys act).pair.primary.copies.next 2 =
                c.pair.primary.copies.next 2 := by
              rcases after_log digest codec sha keys bounds c act 2 with
                hsame | ⟨changes', hevent', -, -⟩
              · rw [hsame] at haudit'
                omega
              · rw [hevent] at hevent'
                cases hevent'
            rw [hkept.2 changes hevent, ← heq, ← hstill]
            exact hnow

variable {log : Database → List (Replay.Write κ EngineKeys.Value)} {mark : κ}

/-- Each step is one of the course the whole run is dated by. -/
theorem event_follows (hc : DatedIn primary log keys.kept
      (Moment codec sha digest bounds keys (begun node primary standby) acts) c)
    (hafter : DatedIn primary log keys.kept
      (Moment codec sha digest bounds keys (begun node primary standby) acts)
      (c.after codec sha digest bounds keys act))
    (hlogged : Logged primary c.pair.primary c.pair.log)
    (hlog : ∀ d, (c.after codec sha digest bounds keys act).pair.log d <+: log d)
    (hturn : c.InTurn keys act) {event : PairEvent κ EngineKeys.Value}
    (hevent : c.event digest keys act = some event) :
    (Course.dated primary log keys.kept (Moment codec sha digest bounds keys
      (begun node primary standby) acts)).Follows bounds primary c.pair event := by
  have hpair : (c.after codec sha digest bounds keys act).pair = c.pair.after bounds event := by
    simp [after_pair, hevent, Pair.run]
  cases event with
  | write d changes =>
      intro hlost
      have hwritten : c.pair.after bounds (.write d changes) = c.pair.write bounds d changes := by
        simp [Pair.after, hlost]
      refine ⟨fun hq => hq.elim, fun hne => ?_, fun n hn => ?_⟩
      · have hle : primary.copies.next d ≤ c.pair.primary.copies.next d := by
          rw [hlogged.next d]
          exact Nat.le_add_right _ _
        refine ⟨hle, ?_⟩
        obtain ⟨rest, hrest⟩ := hlog d
        rw [hpair, hwritten] at hrest
        have hmore : (c.pair.write bounds d changes).log d = c.pair.log d ++ [changes] := by
          simp [Pair.write, hne]
        rw [← hrest, hmore, hlogged.next d, Nat.add_sub_cancel_left, List.append_assoc,
          List.getElem?_append_right le_rfl]
        simp
      · have hmoments := hafter.moments
        rw [hpair, hwritten] at hmoments
        exact hmoments n hn
  | take =>
      intro connection sent frames hconnection hframes ended d changes hcopy hframe hle hwrite hd
        hmark
      subst hd
      have hact : act = .take := by
        cases act with
        | node step =>
            obtain ⟨w, -, hw⟩ := Option.map_eq_some_iff.mp hevent
            cases hw
        | take => rfl
        | _ => cases hevent
      subst hact
      have hnumber := hlogged.next 0
      have hlt := (List.getElem?_eq_some_iff.mp hwrite).1
      have hdated := hc.dated (c.pair.standby.copies.next 0) hle
        (show c.pair.standby.copies.next 0 < c.pair.primary.copies.next 0 by
          change c.pair.standby.copies.next 0 - _ < _ at hlt
          omega)
      refine ⟨_, _, hdated, ?_, rfl⟩
      obtain ⟨frame, at'⟩ := sent
      obtain rfl : frame = .copy 0 (c.pair.standby.copies.next 0) changes := hframe
      simp only [InTurn, hconnection, Option.bind_some, hframes, List.head?_cons] at hturn
      exact hturn rfl rfl hmark
  | follow => trivial
  | ship idle => trivial
  | cut => trivial
  | restart process => trivial
  | lost => trivial

theorem run_snoc (acts : List (Act κ)) (act : Act κ) :
    c.run codec sha digest bounds keys (acts ++ [act]) =
      (c.run codec sha digest bounds keys acts).after codec sha digest bounds keys act := by
  simp [run, List.foldl_append]

/-- The whole run is one of the course it is dated by. -/
theorem run_follows
    (hlog : log = ((begun node primary standby).run codec sha digest bounds keys acts).pair.log)
    (hturn : EachStep (after codec sha digest bounds keys) (InTurn keys)
      (begun node primary standby) acts) {before later : List (Act κ)}
    (hacts : acts = before ++ later) :
    EachStep (Pair.after bounds) ((Course.dated primary log keys.kept
        (Moment codec sha digest bounds keys (begun node primary standby) acts)).Follows bounds
          primary)
      ((begun node primary standby).run codec sha digest bounds keys before).pair
      (((begun node primary standby).run codec sha digest bounds keys before).eventsOver digest
        codec sha bounds keys later) := by
  induction later generalizing before with
  | nil => trivial
  | cons act later ih =>
      have hacts' : acts = (before ++ [act]) ++ later := by simp [hacts]
      have hrest := ih hacts'
      have hc : DatedIn primary log keys.kept
          (Moment codec sha digest bounds keys (begun node primary standby) acts)
          ((begun node primary standby).run codec sha digest bounds keys before) :=
        run_dated _ ⟨act :: later, hacts.symm⟩
      have hafter : DatedIn primary log keys.kept
          (Moment codec sha digest bounds keys (begun node primary standby) acts)
          ((begun node primary standby).run codec sha digest bounds keys (before ++ [act])) :=
        run_dated _ ⟨later, hacts'.symm⟩
      have hlogged := run_logged digest codec sha keys bounds node primary standby before
      have hlater : ∀ d, ((begun node primary standby).run codec sha digest bounds keys
          (before ++ [act])).pair.log d <+: log d := by
        intro d
        have hrun : (begun node primary standby).run codec sha digest bounds keys acts =
            ((begun node primary standby).run codec sha digest bounds keys (before ++ [act])).run
              codec sha digest bounds keys later := by
          rw [hacts', run, run, List.foldl_append]
          rfl
        rw [hlog, hrun]
        exact run_log digest codec sha keys bounds _ later d
      rw [hacts] at hturn
      have hact := hturn.of_append.2.head
      rw [run_snoc] at hrest hafter hlater
      rw [eventsOver]
      change InTurn keys ((begun node primary standby).run codec sha digest bounds keys before) act
        at hact
      generalize (begun node primary standby).run codec sha digest bounds keys before = c at *
      have hpair : (c.after codec sha digest bounds keys act).pair =
          (c.event digest keys act).toList.foldl (Pair.after bounds) c.pair := after_pair
      refine EachStep.append ?_ (hpair ▸ hrest)
      cases hevent : c.event digest keys act with
      | none => trivial
      | some event => exact ⟨event_follows hc hafter hlogged hlater hact hevent, trivial⟩

/-! ## Promoted or not, a standby keeps what it has forgotten -/

/-- Every record a standby that is not copying has forgotten is kept in its audit database: the
primary's as it is there, or, before its first whole copy, those it had. -/
def Lossless (keys : EngineKeys κ) (recorded old : List AuditEntry)
    (oldAudit : OrderedMap κ EngineKeys.Value) (c : CopiedNode κ) : Prop :=
  c.pair.standby.isCopying = false →
    match c.pair.copy with
    | .never => keys.Keeps old oldAudit c.pair.standby.engines
    | _ => keys.Keeps recorded (c.pair.primary.engines 2).entries c.pair.standby.engines

/-- Its row is on a standby that has forgotten a record. -/
theorem Lossless.row {recorded old : List AuditEntry} {oldAudit : OrderedMap κ EngineKeys.Value}
    (h : c.Lossless keys recorded old oldAudit) (hmark : c.pair.standby.isCopying = false)
    (hcopy : c.pair.copy ≠ .never) {n forgotten : ℕ}
    (hforgotten : keys.forgotten (c.pair.standby.engines 0).entries = .ok forgotten)
    (hn : n < forgotten) : ∃ entry, recorded[n]? = some entry ∧
      ((c.pair.standby.engines 2).entries.get (keys.record (.keptAudit, .id entry.id))).isSome := by
  have hkeeps : keys.Keeps recorded (c.pair.primary.engines 2).entries c.pair.standby.engines := by
    have h := h hmark
    split at h
    · next hnever => exact absurd hnever hcopy
    · exact h
  obtain ⟨entry, hentry, ⟨row, hrow⟩, hplaces⟩ := hkeeps forgotten hforgotten n hn
  exact ⟨entry, hentry, by rw [hplaces _ rfl, hrow]; rfl⟩

/-- Whatever is cut or stopped, a standby that takes each write that forgets a record once it has
the writes to the audit database made before it has every record it has forgotten. -/
theorem forgotten_kept {steps : List Embedded.Act}
    (hsteps : Embedded.fresh.Recovering codec sha digest steps)
    {process : ℕ} {engines : Database → Engine κ EngineKeys.Value}
    {old : List AuditEntry} {oldAudit : OrderedMap κ EngineKeys.Value}
    (hagrees : (begun (Embedded.fresh.run codec sha digest steps) primary
      (.new process engines)).Agrees keys)
    (hhistory : (StorageNode.new process engines).copies.history ≠ primary.copies.history)
    (hold : (StorageNode.new process engines).isCopying = false → keys.Keeps old oldAudit engines)
    (hmakes : EachStep (after codec sha digest bounds keys) (Makes digest)
      (begun (Embedded.fresh.run codec sha digest steps) primary (.new process engines)) acts)
    (hturn : EachStep (after codec sha digest bounds keys) (InTurn keys)
      (begun (Embedded.fresh.run codec sha digest steps) primary (.new process engines)) acts) :
    Lossless keys
      ((Embedded.fresh.recordedOver codec sha digest steps).map Prod.fst ++
        (begun (Embedded.fresh.run codec sha digest steps) primary
          (.new process engines)).recordedOver codec sha digest bounds keys acts)
      old oldAudit
      ((begun (Embedded.fresh.run codec sha digest steps) primary (.new process engines)).run codec
        sha digest bounds keys acts) := by
  obtain ⟨kept, entries, hforgets, hrecorded⟩ :=
    Embedded.run_forgets Embedded.fresh_forgets hsteps
  rw [hrecorded, List.zipIdx_map_fst]
  generalize Embedded.fresh.run codec sha digest steps = node at *
  rw [List.nil_append] at hforgets
  generalize hcourse : Course.dated primary
    ((begun node primary (.new process engines)).run codec sha digest bounds keys acts).pair.log
    keys.kept (Moment codec sha digest bounds keys (begun node primary (.new process engines))
      acts) = course
  have hfollows : EachStep (Pair.after bounds) (course.Follows bounds primary)
      (Pair.begun primary (.new process engines))
      ((begun node primary (.new process engines)).eventsOver digest codec sha bounds keys
        acts) := by
    rw [← hcourse]
    have hbefore : acts = [] ++ acts := rfl
    exact run_follows rfl hturn hbefore
  have hbegun : Pair.Kept course primary bounds (Pair.begun primary (.new process engines)) := by
    refine Pair.Kept.begun primary _ ?_
    rw [← hcourse]
    have hdated : DatedIn primary
        ((begun node primary (.new process engines)).run codec sha digest bounds keys
          acts).pair.log keys.kept
        (Moment codec sha digest bounds keys (begun node primary (.new process engines)) acts)
        ((begun node primary (.new process engines)).run codec sha digest bounds keys []) :=
      run_dated keys.kept (List.nil_prefix (l := acts))
    exact fun n hn => hdated.moments n hn
  have hwaiting : (Pair.begun primary (.new process engines)).copy = .never →
      Pair.Waiting (.new process engines) (Pair.begun primary (.new process engines)) :=
    fun _ => ⟨.refl _, fun c hc => by cases hc⟩
  have hsettled := settled hagrees hforgets hmakes
  have hfinal : ((begun node primary (.new process engines)).run codec sha digest bounds keys
      acts).Agrees keys := run_agrees hagrees acts
  have hsound := (hbegun.run _ hfollows).sound
  have hlogged := run_logged digest codec sha keys bounds node primary (.new process engines) acts
  have hpair : ((begun node primary (.new process engines)).run codec sha digest bounds keys
      acts).pair = (Pair.begun primary (.new process engines)).run bounds
        ((begun node primary (.new process engines)).eventsOver digest codec sha bounds keys
          acts) := run_pair
  intro hmark
  cases hcopy : ((begun node primary (.new process engines)).run codec sha digest bounds keys
      acts).pair.copy with
  | never =>
      rw [hpair] at hcopy hmark ⊢
      have hsame := (Pair.Waiting.run hwaiting hbegun hhistory _ hfollows hcopy).same
      exact (hold (hsame.copying.symm.trans hmark)).congr hsame.entries
  | begun =>
      rw [← hpair, hcopy] at hsound
      exact absurd (hsound.symm.trans hmark) (by decide)
  | taken ended =>
      rw [← hpair, hcopy, ← hcourse] at hsound
      have htaken : Taken _ primary _ _ ended := hsound
      intro forgotten hforgotten m hm
      obtain ⟨n, q, hmoment, hq, hmarked⟩ := htaken.marked
      have hnumber := hforgotten
      rw [EngineKeys.forgotten, hmarked] at hnumber
      obtain ⟨entry, hentry, hrow, -⟩ :=
        forgotten_settled hagrees hforgets hmakes hmoment hnumber hm
      refine ⟨entry, hentry, hfinal.audit.hasRow hrow, fun p hp => ?_⟩
      rw [hlogged.entries 2]
      exact htaken.told hsettled ⟨forgotten, hforgotten, m, hm, entry, hentry, p, hp, rfl⟩

end CopiedNode

/-! ### A record kept, forgotten and handed on -/

/-- Each kind of record, in the order of their numbers. -/
def Kind.numbered : List Kind :=
  [.chunk, .stream, .message, .journey, .claim, .audit, .held, .heldJourney, .places, .duePlaces,
    .dead, .deadMessage, .deadPlaces, .failed, .failedByJourney, .failedPlaces, .publication,
    .sequence, .origin, .processInstance, .instanceKey, .keptAudit, .keptAuditStreams,
    .keptAuditStream, .keptAuditBody, .chain, .secret] ++
  [AdministrationKind.registration, .membership, .module, .handler, .deployment,
    .operator].map .administration

theorem Kind.mem_numbered (kind : Kind) : kind ∈ numbered := by
  cases kind with
  | administration kind => cases kind <;> decide
  | _ => decide

/-- A key's own numbers. -/
def Key.listed : Key → List ℕ
  | .id n => [0, n]
  | .pair first second => [1, first, second]
  | .triple first second third => [2, first, second, third]
  | .name words => 3 :: words.toList.map Char.toNat
  | .next => [4]
  | .kept => [5]

theorem Key.listed_injective : Function.Injective Key.listed := by
  intro k k' h
  have hchars : Function.Injective (List.map Char.toNat) :=
    List.map_injective_iff.mpr fun c d => Char.toNat_inj.mp
  cases k with
  | name name =>
      cases k' with
      | name name' =>
          have hnames := hchars (List.cons.inj h).2
          rw [String.toList_injective hnames]
      | _ => cases h
  | _ => cases k' <;> simp_all [Key.listed]

/-- Records under their kind's number and their own key, index entries apart from them. -/
def EngineKeys.listed : EngineKeys (List ℕ) where
  record p := 0 :: Kind.numbered.idxOf p.1 :: p.2.listed
  entry key := 1 :: key
  record_injective := by
    intro p p' h
    obtain ⟨hkind, hkey⟩ := List.cons.inj (List.cons.inj h).2
    exact Prod.ext ((List.idxOf_inj (Kind.mem_numbered p.1)).mp hkind) (Key.listed_injective hkey)
  apart p key h := by cases h

/-- A new node's Storage node, promoted. -/
def newPrimary : StorageNode (List ℕ) EngineKeys.Value :=
  let node : StorageNode (List ℕ) EngineKeys.Value := .new 1 fun _ => .empty
  node.performAll ⟨fun _ => 1, 64⟩ (node.promote 1 7 (fun _ => 0) [])

namespace CopiedNode

/-- The node and a standby of it, both new. -/
def fresh : CopiedNode (List ℕ) := begun .fresh newPrimary (.new 2 fun _ => .empty)

/-- The node at work: what it reads and writes by the codec and the digest that serve here. -/
def ranFresh (acts : List (Act (List ℕ))) : CopiedNode (List ℕ) :=
  fresh.run .prefixed summed (fun _ => []) ⟨fun _ => 1, 64⟩ .listed acts

/-- The standby copied whole, and a record of one writer moved by the keeper. -/
def copiedThenMoved : List (Act (List ℕ)) :=
  [.follow, .take] ++ List.replicate 6 (.ship false) ++ List.replicate 3 .take ++
    [.node (.step (.group ⟨0, 3, .asWritten, none⟩
      [.audit { id := 1, facts := { writer := "a" } }])),
    .node (.keep 10 16), .node .look, .node (.write 2), .node (.write 2)]

def forgets : Act (List ℕ) := .node (.step (.group ⟨3, 3, .asWritten, none⟩ [.kept 0]))

/-- What the keeper wrote handed on before the record is forgotten. -/
def forgottenAfter : List (Act (List ℕ)) :=
  copiedThenMoved ++ List.replicate 4 (.ship false) ++ List.replicate 3 .take ++ [forgets] ++
    List.replicate 2 (.ship false) ++ [.take, .cut, .lost]

/-- The record forgotten before the next turn, which is cut once the runtime database's writes
are taken. -/
def forgottenBefore : List (Act (List ℕ)) :=
  copiedThenMoved ++ [forgets] ++ List.replicate 2 (.ship false) ++ [.take, .take, .cut, .lost]

/-- Whether a step that writes only audit records, or is the keeper's own, is one the node makes. -/
def checked (c : CopiedNode (List ℕ)) : Act (List ℕ) → Bool
  | .node act => c.node.checkedAct 16 act
  | _ => true

theorem checked_makes {c : CopiedNode (List ℕ)} {act : Act (List ℕ)} (h : c.checked act = true) :
    c.Makes digest act := by
  rintro step rfl -
  refine ⟨Embedded.checked_makes h, ?_⟩
  cases step with
  | panicked m ops struck reads => cases h
  | _ => trivial

theorem fresh_agrees : fresh.Agrees .listed := ⟨fun _ => rfl, fun _ => rfl⟩

theorem forgotten_kept_after :
    Lossless .listed (fresh.recordedOver .prefixed summed (fun _ => []) ⟨fun _ => 1, 64⟩ .listed
      forgottenAfter) [] .empty (ranFresh forgottenAfter) := by
  have hsteps : Embedded.fresh.Recovering .prefixed summed (fun _ => []) [] := trivial
  have hold : (StorageNode.new 2 fun _ => (.empty : Engine (List ℕ) EngineKeys.Value)).isCopying =
      false → EngineKeys.listed.Keeps [] .empty fun _ => .empty := by
    intro _ kept hkept n hn
    obtain rfl : kept = 0 := Except.ok.inj hkept.symm
    exact absurd hn (Nat.not_lt_zero n)
  have hchecked : EachStep (after .prefixed summed (fun _ => []) ⟨fun _ => 1, 64⟩ .listed)
      (fun c act => c.checked act = true) fresh forgottenAfter := by decide +kernel
  have hturn : EachStep (after .prefixed summed (fun _ => []) ⟨fun _ => 1, 64⟩ .listed)
      (InTurn .listed) fresh forgottenAfter := by decide +kernel
  have hhistory : (StorageNode.new 2 fun _ =>
      (.empty : Engine (List ℕ) EngineKeys.Value)).copies.history ≠ newPrimary.copies.history := by
    decide
  have hmakes : EachStep (after .prefixed summed (fun _ => []) ⟨fun _ => 1, 64⟩ .listed)
      (Makes fun _ => []) fresh forgottenAfter := hchecked.mono fun _ _ => checked_makes
  have hagrees := fresh_agrees
  generalize forgottenAfter = acts at hmakes hturn ⊢
  exact forgotten_kept hsteps hagrees hhistory hold hmakes hturn

theorem forgottenBefore_lost :
    EachStep (after .prefixed summed (fun _ => []) ⟨fun _ => 1, 64⟩ .listed) (Makes fun _ => [])
        fresh forgottenBefore ∧
      ¬Lossless .listed (fresh.recordedOver .prefixed summed (fun _ => []) ⟨fun _ => 1, 64⟩ .listed
        forgottenBefore) [] .empty (ranFresh forgottenBefore) := by
  have hchecked : EachStep (after .prefixed summed (fun _ => []) ⟨fun _ => 1, 64⟩ .listed)
      (fun c act => c.checked act = true) fresh forgottenBefore := by decide +kernel
  refine ⟨hchecked.mono fun _ _ => checked_makes, fun h => ?_⟩
  have hcopied : (match (ranFresh forgottenBefore).pair.copy with
    | .never => false
    | _ => true) = true := by decide +kernel
  have hrecorded : fresh.recordedOver .prefixed summed (fun _ => []) ⟨fun _ => 1, 64⟩ .listed
      forgottenBefore = [{ id := 1, facts := { writer := "a" } }] := by decide +kernel
  have hforgotten : EngineKeys.listed.forgotten
      ((ranFresh forgottenBefore).pair.standby.engines 0).entries = .ok 1 := by decide +kernel
  have hlost : (((ranFresh forgottenBefore).pair.standby.engines 2).entries.get
      (EngineKeys.listed.record (.keptAudit, .id 1))).isSome = false := by decide +kernel
  have hcopy : (ranFresh forgottenBefore).pair.copy ≠ .never := fun hnever => by
    rw [hnever] at hcopied
    cases hcopied
  obtain ⟨entry, hentry, hrow⟩ :=
    h.row (by decide +kernel) hcopy hforgotten Nat.zero_lt_one
  rw [hrecorded] at hentry
  obtain rfl := Option.some.inj hentry
  exact absurd (hlost.symm.trans hrow) (by decide)

end CopiedNode

end XmipPersist
