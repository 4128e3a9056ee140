import XmipPersist.Verification.Audit.Moved
import XmipPersist.Verification.Query.Runs

/-! # The administration database is read as it was last written

A record is the one last written under its kind and identifier, of the writes that came out, and
there is none once it was removed. So a question by when they were written finds them as they were.
-/

namespace XmipPersist

open Wire (Ask Query Span Secrets)

variable {x : Secrets} {k : Sealing}

/-! ## One write -/

/-- What a write leaves under a kind and identifier where `kept` was. -/
def AdministrationWrite.leaves (kind : AdministrationKind) (id : ℕ)
    (kept : Option AdministrationRecord) : AdministrationWrite x k → Option AdministrationRecord
  | .write record now none =>
      if record.kind = kind ∧ record.id = id then some { record with updatedUnixNanos := nanos now }
      else kept
  | .remove kind' id' _ none => if kind' = kind ∧ id' = id then none else kept
  | _ => kept

/-- One change is laid out, and written at its place alone. -/
theorem EngineWrite.apply_one {c : Change} {s s' : Store} {now : ℤ}
    (h : (EngineWrite.indexed [c]).apply s now = .ok s') :
    ∃ c' es before, laidOut c before (nanos now) = .ok (c', es) ∧
      s'.records = Function.update s.records c.place c'.value := by
  obtain ⟨⟨cs, es⟩, hover, happly⟩ := bind_eq_ok.mp h
  obtain rfl := Except.ok.inj happly
  simp only [writtenOver, bind_eq_ok] at hover
  obtain ⟨before, -, ⟨c', entries⟩, hlaid, ⟨rest, more⟩, hrest, hover⟩ := hover
  obtain ⟨rfl, rfl⟩ := Prod.mk.inj (Except.ok.inj hrest)
  obtain ⟨rfl, rfl⟩ := Prod.mk.inj (Except.ok.inj hover)
  refine ⟨c', entries, before, hlaid, funext fun place => ?_⟩
  have hplace : c'.place = c.place := (laidOut_writtenAs hlaid).place
  by_cases hp : c.place = place
  · subst hp
    simp [Store.applyIndexed, written_cons, hplace, written_nil]
  · simp [Store.applyIndexed, written_cons, hplace, hp, written_nil,
      Function.update_of_ne (Ne.symm hp)]

/-- A record of the administration database is stamped with the time it is written. -/
theorem laidOut_administration {kind : AdministrationKind} {key : Key} {c' : Change}
    {record : AdministrationRecord} {before : Option Content} {now : ℕ} {es : List IndexEntry}
    (h : laidOut ⟨.administration kind, key, some (Form.bytes record)⟩ before now =
      .ok (c', es)) :
    c'.value = some (Form.bytes { record with updatedUnixNanos := now }) := by
  simp only [laidOut, Searched.of, bind_eq_ok] at h
  obtain ⟨gone, -, ⟨bytes, row, id⟩, hstamped, h⟩ := h
  obtain ⟨rfl, -⟩ := Prod.mk.inj (Except.ok.inj h)
  obtain ⟨record', hrecord, hstamped⟩ := bind_eq_ok.mp hstamped
  obtain ⟨old, -, hstamped⟩ := bind_eq_ok.mp hstamped
  rw [Form.fromBytes_bytes] at hrecord
  obtain rfl := Except.ok.inj hrecord
  obtain ⟨rfl, -⟩ := Prod.mk.inj (Except.ok.inj hstamped)
  rfl

/-- One change removed leaves nothing there. -/
theorem laidOut_none {kind : Kind} {key : Key} {c' : Change} {before : Option Content} {now : ℕ}
    {es : List IndexEntry} (h : laidOut ⟨kind, key, none⟩ before now = .ok (c', es)) :
    c'.value = none :=
  (laidOut_writtenAs h).gone.mpr rfl

namespace AdministrationWrite

variable {w : AdministrationWrite x k} {s : Store} {kind : AdministrationKind} {id : ℕ}
  {kept : Option AdministrationRecord}

/-- Where the engine does not refuse it, a record is written, whatever is there. -/
theorem administered_ok (hs : s.Proper) {value : Option Content} {now : ℤ}
    (hvalue : ∀ content ∈ value, (Kind.administration kind).holds (.id id) content) :
    ∃ c' es before, laidOut ⟨.administration kind, .id id, value⟩ before (nanos now) =
        .ok (c', es) ∧ ∃ s', s.administered kind id value now none = .ok s' ∧
          s'.records = Function.update s.records (.administration kind, .id id) c'.value := by
  have hproper : (⟨.administration kind, .id id, value⟩ : Change).Proper := by
    cases value with
    | none => trivial
    | some content => exact hvalue content rfl
  obtain ⟨s', hs'⟩ := EngineWrite.apply_ok
    (w := .indexed [⟨.administration kind, .id id, value⟩]) hs
    (by simpa [EngineWrite.changes] using hproper) now
  obtain ⟨c', es, before, hlaid, hrecords⟩ := EngineWrite.apply_one hs'
  refine ⟨c', es, before, hlaid, s', ?_, hrecords⟩
  rw [Store.administered, hs']
  rfl

theorem administered_refused {value : Option Content} {now : ℤ} (e : PersistError) :
    ∃ e', s.administered kind id value now (some e) = .error e' := by
  cases happly : (EngineWrite.indexed [⟨.administration kind, .id id, value⟩]).apply s now with
  | error e' => exact ⟨e', by rw [Store.administered, happly]; rfl⟩
  | ok s' => exact ⟨e, by rw [Store.administered, happly]; rfl⟩

/-- The store once a write was asked of it: one that fails leaves it as it was. -/
def after (w : AdministrationWrite x k) (s : Store) : Store :=
  match w.made s with
  | .ok s' => s'
  | .error _ => s

/-- A secret's write leaves the other records. -/
theorem after_secret (asked : SecretWrite x k) (place : Place) (hplace : place.1 ≠ .secret) :
    (after (.secret asked) s).records place = s.records place := by
  unfold after
  split
  · next s' hmade =>
      have happly := made_ok hmade
      simp only [changes, SecretWrite.changes] at happly
      split at happly
      · obtain rfl := Except.ok.inj happly
        rfl
      · obtain ⟨c', es, before, -, hrecords⟩ := EngineWrite.apply_one happly
        rw [hrecords]
        refine Function.update_of_ne ?_ _ _
        rintro rfl
        exact hplace rfl
  · rfl

/-- What a write leaves is what is kept after it, and nothing else of the kind and identifier. -/
theorem after_leaves (hs : s.Proper)
    (hkept : s.records (.administration kind, .id id) = kept.map Form.bytes) :
    (w.after s).records (.administration kind, .id id) = (w.leaves kind id kept).map Form.bytes := by
  cases w with
  | secret asked => rw [after_secret asked _ (by simp), hkept]; rfl
  | write record now refused =>
      cases refused with
      | some e =>
          obtain ⟨e', he⟩ := @administered_refused s record.kind record.id
            (some (Form.bytes record)) now e
          simp only [after, made, he, hkept]
          rfl
      | none =>
          obtain ⟨c', es, before, hlaid, s', hs', hrecords⟩ :=
            @administered_ok s record.kind record.id hs (some (Form.bytes record)) now
              (by rintro content ⟨rfl⟩; exact ⟨rfl, rfl⟩)
          simp only [after, made, hs', hrecords, leaves]
          by_cases hplace : record.kind = kind ∧ record.id = id
          · obtain ⟨rfl, rfl⟩ := hplace
            rw [Function.update_self, laidOut_administration hlaid]
            simp
          · rw [if_neg hplace, Function.update_of_ne, hkept]
            intro he
            simp only [Prod.mk.injEq, Kind.administration.injEq, Key.id.injEq] at he
            exact hplace ⟨he.1.symm, he.2.symm⟩
  | remove kind' id' now refused =>
      cases refused with
      | some e =>
          obtain ⟨e', he⟩ := @administered_refused s kind' id' none now e
          simp only [after, made, he, hkept]
          rfl
      | none =>
          obtain ⟨c', es, before, hlaid, s', hs', hrecords⟩ :=
            @administered_ok s kind' id' hs none now (by simp)
          simp only [after, made, hs', hrecords, leaves]
          by_cases hplace : kind' = kind ∧ id' = id
          · obtain ⟨rfl, rfl⟩ := hplace
            rw [Function.update_self, laidOut_none hlaid]
            simp
          · rw [if_neg hplace, Function.update_of_ne, hkept]
            intro he
            simp only [Prod.mk.injEq, Kind.administration.injEq, Key.id.injEq] at he
            exact hplace ⟨he.1.symm, he.2.symm⟩

end AdministrationWrite

/-! ## Runs -/

namespace Databases

variable {codec : Codec} {sha : Bytes → Bytes} {digest : Publication → Bytes} {node : Databases}
  {acts : List (Act x k)}

def Act.leaves (kind : AdministrationKind) (id : ℕ) (kept : Option AdministrationRecord) :
    Act x k → Option AdministrationRecord
  | .embedded _ => kept
  | .administered write => write.leaves kind id kept

/-- What a run's acts leave under a kind and identifier. -/
def administered (acts : List (Act x k)) (kind : AdministrationKind) (id : ℕ) :
    Option AdministrationRecord :=
  acts.foldl (Act.leaves kind id) none

/-- A run leaves in the administration database what its acts leave. -/
theorem run_leaves {numbers : Set ℕ} {kind : AdministrationKind} {id : ℕ}
    {kept : Option AdministrationRecord} (hs : node.Sound numbers)
    (hmade : ∀ act ∈ acts, act.Made)
    (hfits : ∀ c ∈ node.written codec sha digest acts, c.Fits (columnsOf numbers))
    (hkept : node.administration.records (.administration kind, .id id) = kept.map Form.bytes) :
    (node.run codec sha digest acts).administration.records (.administration kind, .id id) =
      (acts.foldl (Act.leaves kind id) kept).map Form.bytes := by
  induction acts generalizing node kept with
  | nil => exact hkept
  | cons act acts ih =>
      have hnext : (node.after codec sha digest act).Sound numbers :=
        hs.after (hmade act (by simp)) fun c hc => hfits c (List.mem_append_left _ hc)
      refine ih hnext (fun act' hact => hmade act' (by simp [hact]))
        (fun c hc => hfits c (List.mem_append_right _ hc)) ?_
      cases act with
      | embedded act => exact hkept
      | administered write =>
          have hafter : (node.after codec sha digest (.administered write)).administration =
              write.after node.administration := by
            simp only [after, AdministrationWrite.after]
            cases write.made node.administration <;> rfl
          rw [hafter]
          exact AdministrationWrite.after_leaves hs.administration.proper hkept

/-- The administration database is read as it was last written, and what a question of it finds is
what was last written when it asks, in the order it was: each record once, and so many at most. -/
theorem administered_as_written (hmade : ∀ act ∈ acts, act.Made)
    (hfits : ∀ c ∈ fresh.written codec sha digest acts, c.Fits (columnsOf {16})) :
    (∀ kind id, (fresh.run codec sha digest acts).administration.administrationRecord kind id =
        .ok (administered acts kind id)) ∧
      ∀ (kind : AdministrationKind) (updated : Span), updated.fromUnixNanos ≤ u64Max →
        updated.toUnixNanos ≤ u64Max → ∃ found : List (ℕ × ℕ),
          found.Pairwise (fun a b => a.1 < b.1 ∨ a.1 = b.1 ∧ a.2 < b.2) ∧
          (∀ time id, (time, id) ∈ found ↔ ∃ record ∈ administered acts kind id,
            record.updatedUnixNanos = time ∧ updated.Holds time) ∧
          ∀ most newestFirst, (fresh.run codec sha digest acts).searched
              ⟨.administrationUpdated kind updated, most, newestFirst⟩ =
            .ok (((if newestFirst then found.reverse else found).take most).map Prod.snd) := by
  have hsound := (fresh_sound {16}).run hmade hfits
  have hrecords : ∀ kind id,
      (fresh.run codec sha digest acts).administration.records (.administration kind, .id id) =
        (administered acts kind id).map Form.bytes := fun kind id =>
    run_leaves (fresh_sound {16}) hmade hfits rfl
  refine ⟨fun kind id => ?_, fun kind updated hfirst hlast => ?_⟩
  · rw [Store.administrationRecord, hsound.administration.proper.get, hrecords]
    cases administered acts kind id <;> rfl
  · have hasked : (Ask.administrationUpdated kind updated).Fits := by
      refine ⟨?_, ?_⟩
      · intro v hv
        obtain rfl := List.mem_singleton.mp hv
        cases kind <;> decide
      · rintro span ⟨rfl⟩
        exact ⟨hfirst, hlast⟩
    obtain ⟨found, hordered, hmem, hfound⟩ :=
      hsound.administration.find_ok (Ask.read_mem (.administrationUpdated kind updated)) rfl
        hasked.asks
    refine ⟨found, hordered, fun time id => ?_, fun most newestFirst => ?_⟩
    · rw [hmem, Ask.answers_iff hsound.administration.proper]
      constructor
      · rintro ⟨record, ⟨key, hkey⟩, rfl, htime⟩
        have hholds := hsound.administration.proper _ _ hkey
        cases key with
        | id id =>
            obtain ⟨-, rfl⟩ := hholds
            rw [hrecords] at hkey
            obtain ⟨record', hlast, hsame⟩ := Option.map_eq_some_iff.mp hkey
            obtain rfl := Content.administration.inj hsame
            exact ⟨record', hlast, htime⟩
        | pair | triple | name | next | kept => exact hholds.elim
      · rintro ⟨record, hrecord, htime⟩
        have hkey := hrecords kind id
        rw [Option.mem_def.mp hrecord] at hkey
        obtain ⟨-, hid⟩ := hsound.administration.proper _ _ hkey
        exact ⟨record, ⟨_, hkey⟩, hid, htime⟩
    · rw [searched, Ask.named]
      exact congrArg Except.ok (hfound most newestFirst)

/-- Two handlers written, one of them again, and an operator; one write refused, a secret set, and
the operator removed. -/
def administering : List (Act fitting tagging) :=
  [.administered (.write ⟨.handler, 7, [1], 0⟩ 3 none),
    .administered (.write ⟨.handler, 8, [2], 0⟩ 4 none),
    .administered (.write ⟨.operator, 7, [3], 0⟩ 5 none),
    .embedded (.step (.chunk ⟨2, 0, [5, 6]⟩)),
    .administered (.write ⟨.handler, 8, [4], 0⟩ 6 (some (.engine "memory" "read only"))),
    .administered (.secret (setting 7 ⟨"ab", ab_fits⟩ false [1] 10)),
    .administered (.write ⟨.handler, 7, [5], 0⟩ 9 none),
    .administered (.remove .operator 7 11 none)]

theorem administered_as_written_handlers :
    (∀ kind id, (fresh.run ⟨fun _ => [], fun bs => bs⟩ (fun _ => []) (fun _ => [])
        administering).administration.administrationRecord kind id =
        .ok (administered administering kind id)) ∧
      ∃ found : List (ℕ × ℕ),
        found.Pairwise (fun a b => a.1 < b.1 ∨ a.1 = b.1 ∧ a.2 < b.2) ∧
        (∀ time id, (time, id) ∈ found ↔ ∃ record ∈ administered administering .handler id,
          record.updatedUnixNanos = time ∧ (⟨0, 20⟩ : Span).Holds time) ∧
        ∀ most newestFirst, (fresh.run ⟨fun _ => [], fun bs => bs⟩ (fun _ => []) (fun _ => [])
            administering).searched ⟨.administrationUpdated .handler ⟨0, 20⟩, most, newestFirst⟩ =
          .ok (((if newestFirst then found.reverse else found).take most).map Prod.snd) := by
  have hcolumns : ∀ c ∈ fresh.written ⟨fun _ => [], fun bs => bs⟩ (fun _ => []) (fun _ => [])
      administering, c.Fits {column | column ∈ [Column.kind, .updatedAt]} := by
    decide +kernel
  have hread := administered_as_written (by simp [administering, Act.Made, Embedded.Act.ops])
    fun c hc content hvalue =>
      (hcolumns c hc content hvalue).mono (columnsOf_index (Ask.read_mem
        (.administrationUpdated .handler ⟨0, 20⟩)))
  exact ⟨hread.1, hread.2 .handler ⟨0, 20⟩ (by decide) (by decide)⟩

example : (fresh.run ⟨fun _ => [], fun bs => bs⟩ (fun _ => []) (fun _ => [])
    administering).searched ⟨.administrationUpdated .handler ⟨0, 20⟩, 5, false⟩ = .ok [8, 7] := by
  decide +kernel

end Databases

end XmipPersist
