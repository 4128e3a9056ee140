import XmipPersist.Verification.AtRest.Forms
import XmipPersist.Verification.Encrypted.Openers
import XmipPersist.Verification.Query.Runs

/-! # What a node's engines hold are its records

Each write of a node is asked of a store, which keeps its records' bytes and its entries' keys; the
store seals them, and its engine keeps what is sealed. Read back through both, what is there is what
the node wrote.
-/

namespace XmipPersist

open EncryptedStore (Clear RecordChange Engine Represents)

variable {p : Primitives}

/-! ## The keys of index entries are bytes -/

theorem counted_octets (bytes : Bytes) : ∀ n ∈ counted bytes, n < 256 := by
  intro n hn
  rcases List.mem_append.mp hn with hn | hn
  · exact Nat.lt_succ_of_le (le_of_mem_bigEndian hn)
  · obtain ⟨byte, -, rfl⟩ := List.mem_map.mp hn
    exact byte.toNat_lt

theorem encoded_octets (v : Value) : ∀ n ∈ encoded v, n < 256 := by
  intro n hn
  cases v with
  | time | count | id => exact Nat.lt_succ_of_le (le_of_mem_bigEndian hn)
  | flag flag =>
      rw [List.mem_singleton.mp hn]
      cases flag <;> decide
  | text text => exact counted_octets _ n hn
  | bytes bytes => exact counted_octets _ n hn

theorem entries_octets {searched : Searched} {row : Row} {id : ℕ} {key : IndexKey}
    (h : key ∈ entries searched row id) : ∀ n ∈ key, n < 256 := by
  obtain ⟨index, hindex, htaken⟩ := List.mem_filterMap.mp h
  have hnumber : index.number < 256 := by
    revert index
    cases searched <;> simp [Searched.indexes]
  split at htaken
  · obtain ⟨values, -, rfl⟩ := Option.map_eq_some_iff.mp htaken
    intro n hn
    rw [Index.key, List.cons_append, List.mem_cons, List.mem_append] at hn
    rcases hn with rfl | hn | hn
    · exact hnumber
    · obtain ⟨v, -, hv⟩ := List.mem_flatMap.mp hn
      exact encoded_octets v n hv
    · exact Nat.lt_succ_of_le (le_of_mem_bigEndian hn)
  · cases htaken

theorem laidOut_octets {c c' : Change} {before : Option Content} {now : ℕ}
    {es : List IndexEntry} (h : laidOut c before now = .ok (c', es)) :
    ∀ e ∈ es, ∀ n ∈ e.1, n < 256 := by
  unfold laidOut at h
  split at h
  · obtain ⟨-, rfl⟩ := Prod.mk.inj (Except.ok.inj h)
    simp
  · next searched htable =>
      obtain ⟨gone, hgone, h⟩ := bind_eq_ok.mp h
      have hout : ∀ e ∈ gone, ∀ n ∈ e.1, n < 256 := by
        cases before with
        | none =>
            obtain rfl := Except.ok.inj hgone
            simp
        | some bytes =>
            obtain ⟨⟨row, id⟩, -, hgone⟩ := bind_eq_ok.mp hgone
            obtain rfl := Except.ok.inj hgone
            intro e he
            obtain ⟨key, hkey, rfl⟩ := List.mem_map.mp he
            exact entries_octets hkey
      split at h
      · obtain ⟨⟨bytes, row, id⟩, -, h⟩ := bind_eq_ok.mp h
        obtain ⟨-, rfl⟩ := Prod.mk.inj (Except.ok.inj h)
        intro e he
        rcases List.mem_append.mp he with he | he
        · exact hout e he
        · obtain ⟨key, hkey, rfl⟩ := List.mem_map.mp he
          exact entries_octets hkey
      · obtain ⟨-, rfl⟩ := Prod.mk.inj (Except.ok.inj h)
        exact hout

/-- A write that may be asked of a store: proper records, and entries whose keys are bytes. -/
structure Laid.Proper (laid : Laid) : Prop where
  changes : ∀ c ∈ laid.1, c.Proper
  octets : ∀ e ∈ laid.2, ∀ n ∈ e.1, n < 256

theorem writtenOver_octets {kept : Place → Except PersistError (Option Content)} {now : ℕ}
    {done cs cs' : List Change} {es : List IndexEntry}
    (h : writtenOver kept now done cs = .ok (cs', es)) : ∀ e ∈ es, ∀ n ∈ e.1, n < 256 := by
  induction cs generalizing done cs' es with
  | nil =>
      obtain ⟨-, rfl⟩ := Prod.mk.inj (Except.ok.inj h)
      simp
  | cons c cs ih =>
      simp only [writtenOver, bind_eq_ok] at h
      obtain ⟨before, -, ⟨c', entries⟩, hc, ⟨rest, more⟩, hrest, h⟩ := h
      obtain ⟨-, rfl⟩ := Prod.mk.inj (Except.ok.inj h)
      intro e he
      rcases List.mem_append.mp he with he | he
      · exact laidOut_octets hc e he
      · exact ih hrest e he

theorem Laid.proper_of_writtenOver {kept : Place → Except PersistError (Option Content)} {now : ℕ}
    {cs : List Change} {laid : Laid} (hcs : ∀ c ∈ cs, c.Proper)
    (h : writtenOver kept now [] cs = .ok laid) : laid.Proper :=
  ⟨writtenOver_proper h hcs, writtenOver_octets h⟩

/-! ## A store kept in the clear -/

/-- A write whose places and records are within their bounds, and the identifiers its entries
find. -/
structure Laid.Fits (laid : Laid) : Prop where
  places : ∀ c ∈ laid.1, c.place.Fits
  contents : ∀ c ∈ laid.1, ∀ content ∈ c.value, content.Bounded
  ids : ∀ e ∈ laid.2, ∀ id ∈ e.2, id < 256 ^ 16

/-- What is in the clear after a write is asked. -/
def EncryptedStore.Clear.asked (clear : Clear)
    (write : List RecordChange × List EncryptedStore.IndexEntry) : Clear :=
  (write.1.foldl Clear.record clear).indexed write.2

/-- A store's records are kept under their places' words and keys, each as bytes that are read as
it there, and its entries under their keys' bytes. -/
structure Store.KeptIn (p : Primitives) (s : Store) (clear : Clear) : Prop where
  records : Sealed.Keeps Place.kept (fun place bytes content => place.1.read p bytes = content)
    {place | place.Fits} s.records clear.records
  entries : Sealed.Keeps (List.map UInt8.toNat) (fun _ id' id => id' = id) Set.univ
    clear.entries.get s.entries.get
  octets : ∀ key id, s.entries.get key = some id → ∀ n ∈ key, n < 256

theorem Store.empty_keptIn (p : Primitives) : Store.empty.KeptIn p .empty where
  records _ _ := .none
  entries _ _ := .none
  octets := nofun

namespace Store.KeptIn

variable {s : Store} {clear : Clear}

theorem written_cons_getD (c : Change) (cs : List Change) (records : Place → Option Content) :
    (fun place => (written (c :: cs) place).getD (records place)) =
      fun place => (written cs place).getD (Function.update records c.place c.value place) := by
  funext place
  rw [written_cons]
  cases written cs place with
  | some value => rfl
  | none =>
      by_cases hplace : c.place = place
      · subst hplace
        simp
      · simp [hplace, Function.update_of_ne (Ne.symm hplace)]

/-- Records changed, each at its own place. -/
theorem changed {cs : List Change} {records : Place → Option Content}
    (h : Sealed.Keeps Place.kept (fun place bytes content => place.1.read p bytes = content)
      {place | place.Fits} records clear.records)
    (hproper : ∀ c ∈ cs, c.Proper) (hplaces : ∀ c ∈ cs, c.place.Fits)
    (hcontents : ∀ c ∈ cs, ∀ content ∈ c.value, content.Bounded) :
    Sealed.Keeps Place.kept (fun place bytes content => place.1.read p bytes = content)
      {place | place.Fits} (fun place => (written cs place).getD (records place))
      ((cs.map (Change.kept p)).foldl Clear.record clear).records := by
  induction cs generalizing records clear with
  | nil => exact h
  | cons c cs ih =>
      have hvalue : Option.Rel (fun content bytes => c.place.1.read p bytes = content) c.value
          (c.value.map (Content.kept p)) := by
        have hc := hproper c (by simp)
        cases hv : c.value with
        | none => exact .none
        | some content =>
            rw [Change.Proper, hv] at hc
            exact .some (Kind.read_kept hc (hcontents c (by simp) content hv))
      have hone : Sealed.Keeps Place.kept (fun place bytes content =>
          place.1.read p bytes = content) {place | place.Fits}
          (Function.update records c.place c.value) (clear.record (c.kept p)).records :=
        h.update (fun place hp place' hp' => Place.kept_inj hp hp') (hplaces c (by simp)) hvalue
      rw [written_cons_getD]
      exact ih hone (fun d hd => hproper d (by simp [hd])) (fun d hd => hplaces d (by simp [hd]))
        fun d hd => hcontents d (by simp [hd])

theorem octets_back {key : IndexKey} (h : ∀ n ∈ key, n < 256) :
    (key.map UInt8.ofNat).map UInt8.toNat = key := by
  rw [List.map_map]
  refine (List.map_congr_left fun n hn => ?_).trans (List.map_id _)
  exact UInt8.toNat_ofNat_of_lt' (h n hn)

theorem toNat_injective : Function.Injective (List.map UInt8.toNat) :=
  List.map_injective_iff.mpr fun _ _ h => UInt8.toNat_inj.mp h

/-- Entries set and taken out, each under its key's bytes. -/
theorem indexed {es : List IndexEntry} {kept : OrderedMap IndexKey ℕ}
    (h : Sealed.Keeps (List.map UInt8.toNat) (fun _ id' id => id' = id) Set.univ
      clear.entries.get kept.get) (hoctets : ∀ e ∈ es, ∀ n ∈ e.1, n < 256) :
    Sealed.Keeps (List.map UInt8.toNat) (fun _ id' id => id' = id) Set.univ
      (clear.indexed (es.map IndexEntry.kept)).entries.get (kept.apply es).get := by
  induction es generalizing clear kept with
  | nil => exact h
  | cons e es ih =>
      have hvalue : Option.Rel (fun id id' : ℕ => id' = id) e.2 e.2 := by
        cases e.2 with
        | none => exact .none
        | some id => exact .some rfl
      have hone : Sealed.Keeps (List.map UInt8.toNat) (fun _ id' id => id' = id) Set.univ
          (clear.indexed [e.kept]).entries.get
          (kept.change ((e.1.map UInt8.ofNat).map UInt8.toNat) e.2).get :=
        h.update (fun _ _ _ _ he => toNat_injective he) trivial hvalue
      rw [octets_back (hoctets e (by simp))] at hone
      exact ih hone fun e' he' => hoctets e' (by simp [he'])

theorem entries_changed (clear : Clear) (changes : List RecordChange) :
    (changes.foldl Clear.record clear).entries = clear.entries := by
  induction changes generalizing clear with
  | nil => rfl
  | cons change changes ih => exact ih (clear.record change)

/-- A write asked of the store is kept as it is made. -/
theorem asked (h : s.KeptIn p clear) {laid : Laid} (hproper : laid.Proper) (hfits : laid.Fits) :
    (s.applyIndexed laid.1 laid.2).KeptIn p (clear.asked (laid.kept p)) where
  records := changed h.records hproper.changes hfits.places hfits.contents
  entries := by
    have hentries := indexed h.entries hproper.octets
    simp only [Clear.asked, Clear.indexed, entries_changed] at hentries ⊢
    exact hentries
  octets := by
    intro key id hget
    by_cases hmem : key ∈ laid.2.map Prod.fst
    · obtain ⟨e, he, rfl⟩ := List.mem_map.mp hmem
      exact hproper.octets e he
    · rw [Store.applyIndexed, OrderedMap.get_apply_of_notMem _ hmem] at hget
      exact h.octets key id hget

end Store.KeptIn

/-! ## The writes of a node -/

section

variable {codec : Codec} {sha : Bytes → Bytes} {digest : Publication → Bytes}

theorem Writer.wrote_proper {w : Writer} {m : Moment} {ops : List Op}
    (hmade : ∀ op ∈ ops, op.Made) {laid : Laid} (h : w.wrote digest m ops = some laid) :
    laid.Proper := by
  simp only [Writer.wrote] at h
  split at h
  · cases h
  · split at h
    · cases h
    · cases hl : w.laying m (decideEach digest m (Batch.over' w.store w.next) ops).2 with
      | error e =>
          rw [hl] at h
          cases h
      | ok made =>
          rw [hl] at h
          obtain rfl := Option.some.inj h
          obtain ⟨extra, hover, hextra⟩ := laying_ok hl
          have hdecided : (decideEach digest m (Batch.over' w.store w.next) ops).2.Changing :=
            decideEach_changing hmade (by simp [Batch.Changing, Batch.over'])
          refine Laid.proper_of_writtenOver (fun c hc => ?_) hover
          rcases List.mem_append.mp hc with hc | hc
          · exact hdecided c hc
          · exact (hextra c hc).1

theorem EngineWrite.laid_proper {w : EngineWrite} (hmade : w.Made) {audit : Store} {now : ℤ}
    {laid : Laid} (h : w.laid audit now = .ok laid) : laid.Proper := by
  cases w with
  | deferred c =>
      obtain rfl := Except.ok.inj h
      exact ⟨hmade.proper, by simp⟩
  | indexed changes => exact Laid.proper_of_writtenOver hmade.proper h

theorem Embedded.wrote_proper {node : Embedded} {act : Embedded.Act} (hpending : node.Pending)
    (hmade : ∀ op ∈ act.ops, op.Made) {database : Standby.Database} {laid : Laid}
    (h : node.wrote digest act = some (database, laid)) : laid.Proper := by
  have hgroup : ∀ (m : Moment) (ops : List Op), (∀ op ∈ ops, op.Made) →
      (node.writer.wrote digest m ops).map ((0 : Standby.Database), ·) = some (database, laid) →
        laid.Proper := by
    intro m ops hops hw
    obtain ⟨made, hwrote, heq⟩ := Option.map_eq_some_iff.mp hw
    obtain ⟨-, rfl⟩ := Prod.mk.inj heq
    exact Writer.wrote_proper hops hwrote
  cases act with
  | step step =>
      cases step with
      | group m ops => exact hgroup m ops hmade h
      | chunk chunk =>
          obtain ⟨-, rfl⟩ := Prod.mk.inj (Option.some.inj h)
          refine ⟨fun c hc => ?_, by simp⟩
          rw [List.mem_singleton.mp hc]
          exact ⟨rfl, rfl⟩
      | stream last stream now =>
          obtain ⟨-, rfl⟩ := Prod.mk.inj (Option.some.inj h)
          refine ⟨fun c hc => ?_, by simp⟩
          rcases List.mem_pair.mp hc with rfl | rfl
          · exact ⟨rfl, rfl⟩
          · exact rfl
      | restart => cases h
  | panicked m ops struck reads =>
      cases struck with
      | deciding decided numbered => cases h
      | written => exact hgroup m ops hmade h
  | write now =>
      simp only [Embedded.wrote] at h
      split at h
      · next number upto chunk next rest hkeeping =>
          obtain ⟨made, hlaid, heq⟩ := Option.map_eq_some_iff.mp h
          obtain ⟨-, rfl⟩ := Prod.mk.inj heq
          have hnext := hpending _ hkeeping _ rfl next (by simp)
          cases hmade' : next.laid node.audit now with
          | error e =>
              rw [hmade'] at hlaid
              cases hlaid
          | ok made' =>
              rw [hmade'] at hlaid
              obtain rfl := Option.some.inj hlaid
              exact EngineWrite.laid_proper hnext hmade'
      · cases h
  | keep most chunk => cases h
  | look => cases h
  | cut => cases h

variable {x : Wire.Secrets} {k : Sealing}

theorem AdministrationWrite.laid_eq {w : AdministrationWrite x k} {s : Store} :
    match w.laid s with
    | some laid => w.made s = .ok (s.applyIndexed laid.1 laid.2) ∧ laid.Proper
    | none => ∃ e, w.made s = .error e := by
  unfold AdministrationWrite.laid
  cases hmade : w.made s with
  | error e => exact ⟨e, rfl⟩
  | ok s' =>
      have happly := w.made_ok hmade
      cases hover : writtenOver s.get (nanos w.now) [] (w.changes s) with
      | error e =>
          simp only [EngineWrite.apply, hover] at happly
          cases happly
      | ok laid =>
          simp only [EngineWrite.apply, hover] at happly
          obtain rfl := Except.ok.inj happly
          exact ⟨rfl, Laid.proper_of_writtenOver (w.changes_made s).proper hover⟩

namespace Databases

variable {node : Databases} {act : Act x k} {acts : List (Act x k)} {clear : Clear}

theorem wrote_proper (hpending : node.embedded.Pending) (hmade : act.Made)
    {database : Schema.Database} {laid : Laid}
    (h : node.wrote digest act = some (database, laid)) : laid.Proper := by
  cases act with
  | embedded act =>
      obtain ⟨⟨number, made⟩, hwrote, heq⟩ := Option.map_eq_some_iff.mp h
      obtain ⟨-, rfl⟩ := Prod.mk.inj heq
      exact Embedded.wrote_proper hpending hmade hwrote
  | administered write =>
      obtain ⟨made, hlaid, heq⟩ := Option.map_eq_some_iff.mp h
      obtain ⟨-, rfl⟩ := Prod.mk.inj heq
      have hmade' := @AdministrationWrite.laid_eq x k write node.administration
      rw [hlaid] at hmade'
      exact hmade'.2

/-- Each act leaves a database as what it lays out there leaves it. -/
theorem after_store (database : Schema.Database) :
    (node.after codec sha digest act).store database =
      match (node.wrote digest act).filter fun w => w.1 = database with
      | some (_, laid) => (node.store database).applyIndexed laid.1 laid.2
      | none => node.store database := by
  cases act with
  | embedded act =>
      have hlays : node.embedded.Lays (node.embedded.after codec sha digest act)
          (node.embedded.wrote digest act) := Embedded.after_lays node.embedded act
      simp only [wrote]
      cases hwrote : node.embedded.wrote digest act with
      | none =>
          rw [hwrote] at hlays
          cases database with
          | runtime => exact hlays.1
          | administration => rfl
          | audit => exact hlays.2
      | some made =>
          obtain ⟨number, laid⟩ := made
          rw [hwrote] at hlays
          rcases hlays with ⟨rfl, hruntime, haudit⟩ | ⟨rfl, hruntime, haudit⟩
          · cases database with
            | runtime => exact hruntime
            | administration => rfl
            | audit => exact haudit
          · cases database with
            | runtime => exact hruntime
            | administration => rfl
            | audit => exact haudit
  | administered write =>
      have hmade := @AdministrationWrite.laid_eq x k write node.administration
      simp only [wrote, after]
      cases hlaid : write.laid node.administration with
      | none =>
          rw [hlaid] at hmade
          obtain ⟨e, he⟩ := hmade
          rw [he]
          rfl
      | some laid =>
          rw [hlaid] at hmade
          rw [hmade.1]
          cases database <;> rfl

/-- A run keeps in the clear what it leaves in a database. -/
theorem run_keptIn {database : Schema.Database} (hpending : node.embedded.Pending)
    (hmade : ∀ act ∈ acts, act.Made) (h : (node.store database).KeptIn p clear)
    (hfits : ∀ laid ∈ node.writes codec sha digest database acts, laid.Fits) :
    ((node.run codec sha digest acts).store database).KeptIn p
      (((node.writes codec sha digest database acts).map (Laid.kept p)).foldl Clear.asked
        clear) := by
  induction acts generalizing node clear with
  | nil => exact h
  | cons act acts ih =>
      have hact := hmade act (by simp)
      have hnext : (node.after codec sha digest act).embedded.Pending := by
        cases act with
        | embedded act => exact hpending.after act
        | administered write =>
            simp only [after]
            split <;> exact hpending
      have hstore := @after_store codec sha digest x k node act database
      rw [writes] at hfits ⊢
      cases hwrote : (node.wrote digest act).filter fun w => w.1 = database with
      | none =>
          rw [hwrote] at hstore hfits
          refine ih hnext (fun act' hact' => hmade act' (by simp [hact'])) ?_ hfits
          rw [hstore]
          exact h
      | some made =>
          obtain ⟨d, laid⟩ := made
          rw [hwrote] at hstore hfits
          have hproper : laid.Proper :=
            wrote_proper hpending hact (Option.filter_eq_some_iff.mp hwrote).1
          refine ih hnext (fun act' hact' => hmade act' (by simp [hact'])) ?_
            fun laid' hlaid' => hfits laid' (List.mem_append_right _ hlaid')
          rw [hstore]
          exact h.asked hproper (hfits laid (by simp))

end Databases

/-! ## The engines -/

namespace EncryptedStore

variable {keys : DataKeys} {store : EncryptedStore keys} {places : Set (String × Bytes)}
  {engine engine' : Engine} {clear : Clear}

theorem represents_empty (name : String) :
    Represents store places ⟨name, .empty⟩ .empty where
  records _ _ := .none
  entries _ _ := .none

/-- What a store writes to its engine is kept there sealed. -/
theorem Written.represents {writes : List (List RecordChange × List IndexEntry)}
    (h : store.Written engine writes engine') (hapart : Apart keys store.lookup places)
    (hnames : ∀ w ∈ writes, ∀ c ∈ w.1, (c.kind, c.key) ∈ places)
    (hids : ∀ w ∈ writes, ∀ e ∈ w.2, ∀ id ∈ e.2, id < 256 ^ 16)
    (hkept : Represents store places engine clear) :
    Represents store places engine' (writes.foldl Clear.asked clear) := by
  induction h generalizing clear with
  | nil engine => exact hkept
  | @cons engine engine' last drawn changes entries writes made rest ih =>
      have hperformed : Performed store places ⟨engine, fun _ => none, []⟩ ⟨clear, []⟩
          (Shared.failing ⟨engine, fun _ => none, []⟩ store drawn none
            (.applyIndexed changes entries)) (.applyIndexed changes entries)
          (Shared.perform ⟨engine, fun _ => none, []⟩ store drawn none
            (.applyIndexed changes entries)) := by
        refine perform_performed drawn none hapart hkept .nil ?_ (hids (changes, entries) (by simp))
        rintro name ⟨change, hc, rfl⟩
        exact hnames (changes, entries) (by simp) change hc
      rw [Shared.perform, made] at hperformed
      exact ih (fun w hw => hnames w (by simp [hw])) (fun w hw => hids w (by simp [hw]))
        hperformed.2.2.2.1

end EncryptedStore

namespace Databases

open EncryptedStore (Apart dataKey own_dataKey)

/-- A record is read from the bytes kept at its place. -/
theorem keptIn_read {s : Store} {clear : Clear} (h : s.KeptIn p clear) {place : Place}
    (hplace : place.Fits) :
    (clear.records place.kept).map (place.1.read p) = s.records place := by
  have hrel := h.records place hplace
  cases hbytes : clear.records place.kept with
  | none => exact (h.records.read_none hplace hbytes).symm
  | some bytes =>
      obtain ⟨content, hcontent, hread⟩ := h.records.read_some hplace hbytes
      rw [hcontent, Option.map_some, hread]

/-- A range of the entries is the range of their keys' bytes. -/
theorem keptIn_range {s : Store} {clear : Clear} (h : s.KeptIn p clear) (first last : Bytes)
    (most : ℕ) (reverse : Bool) :
    (clear.entries.range first last most reverse).map (fun e => (e.1.map UInt8.toNat, e.2)) =
      s.entries.range (first.map UInt8.toNat) (last.map UInt8.toNat) most reverse := by
  have hmono : StrictMono (List.map UInt8.toNat) := fun a b hab =>
    List.map_lt (fun _ _ hlt => UInt8.lt_iff_toNat_lt.mp hlt) hab
  have hclosed : ∀ key id, s.entries.get key = some id → first.map UInt8.toNat ≤ key →
      key ≤ last.map UInt8.toNat → key ∈ Set.range (List.map UInt8.toNat) :=
    fun key id hget _ _ => ⟨_, Store.KeptIn.octets_back (h.octets key id hget)⟩
  have hfound := h.entries.range hmono hclosed most reverse
  rw [← List.forall₂_eq_eq_eq, List.forall₂_map_left_iff]
  exact hfound.imp fun e found he => Prod.ext he.1.symm he.2.symm

/-- Whatever a node wrote of one of its databases, sealed by a store over an engine of its own: the
store reads back from the engine each record as the node has it there, and each range of its
indexes. -/
theorem records_at_rest {acts : List (Act x k)} (database : Schema.Database) {keys : DataKeys}
    {store : EncryptedStore keys} {name : String} {wrapped : Bytes} {engine : Engine}
    {places : Set Place} (hmade : ∀ act ∈ acts, act.Made) (hplaces : ∀ place ∈ places, place.Fits)
    (hapart : Apart keys store.lookup (Place.kept '' places))
    (hfits : ∀ laid ∈ fresh.writes codec sha digest database acts,
      laid.Fits ∧ ∀ c ∈ laid.1, c.place ∈ places)
    (hwritten : store.Written (Engine.with' ⟨name, .empty⟩ dataKey (some wrapped))
      ((fresh.writes codec sha digest database acts).map (Laid.kept p)) engine) :
    (∀ place ∈ places, ∃ found, store.getIn engine none place.kept.1 place.kept.2 = .ok found ∧
        found.map (place.1.read p) =
          ((fresh.run codec sha digest acts).store database).records place) ∧
      ∀ first last most reverse,
        (store.scanIndexIn engine none first last most reverse).map
            (List.map fun e => (e.1.map UInt8.toNat, e.2)) =
          .ok (((fresh.run codec sha digest acts).store database).entries.range
            (first.map UInt8.toNat) (last.map UInt8.toNat) most reverse) := by
  have hempty : (fresh.store database).KeptIn p .empty := by
    cases database <;> exact Store.empty_keptIn p
  have hkept : ((fresh.run codec sha digest acts).store database).KeptIn p _ :=
    run_keptIn (Embedded.fresh_sound ∅).pending hmade hempty fun laid hlaid => (hfits laid hlaid).1
  have hbegun : EncryptedStore.Represents store (Place.kept '' places)
      (Engine.with' ⟨name, .empty⟩ dataKey (some wrapped)) .empty :=
    (EncryptedStore.represents_empty name).ownKept hapart own_dataKey (some wrapped)
  have hsealed := hwritten.represents hapart (fun w hw c hc => ?_) (fun w hw e he id hid => ?_)
    hbegun
  · refine ⟨fun place hplace => ?_, fun first last most reverse => ?_⟩
    · exact ⟨_, hsealed.getIn (Set.mem_image_of_mem _ hplace),
        keptIn_read hkept (hplaces place hplace)⟩
    · rw [hsealed.scanIndexIn]
      exact congrArg Except.ok (keptIn_range hkept first last most reverse)
  · obtain ⟨laid, hlaid, rfl⟩ := List.mem_map.mp hw
    obtain ⟨change, hchange, rfl⟩ := List.mem_map.mp hc
    exact ⟨change.place, (hfits laid hlaid).2 change hchange, rfl⟩
  · obtain ⟨laid, hlaid, rfl⟩ := List.mem_map.mp hw
    obtain ⟨entry, hentry, rfl⟩ := List.mem_map.mp he
    exact (hfits laid hlaid).1.ids entry hentry id hid

/-- A chunk, a Journey, and the chunk once more. -/
def resting : List (Act fitting tagging) :=
  [.embedded (.step (.chunk ⟨2, 0, [5, 6]⟩)),
    .embedded (.step (.group ⟨9, 3, .asWritten, none⟩
      [.put .journey (.id 1) (Form.bytes { journey := 1, body := [7] : JourneyRecord })])),
    .embedded (.step (.chunk ⟨2, 0, [8]⟩))]

end Databases

end

namespace EncryptedStore

/-- Keys of one byte seal whatever they are given. -/
theorem Plain.written (key : UInt8) (writes : List (List RecordChange × List IndexEntry))
    (engine : Engine) :
    ∃ engine', (⟨key, key⟩ : EncryptedStore plain).Written engine writes engine' := by
  have hfor : ∀ place value, ∃ sealed,
      (⟨key, key⟩ : EncryptedStore plain).sealedFor 0 place value = .ok sealed := by
    intro place value
    cases value <;> exact ⟨_, rfl⟩
  have hrecords : ∀ changes n, ∃ sealed,
      (⟨key, key⟩ : EncryptedStore plain).sealed (fun _ => 0) n changes = .ok sealed := by
    intro changes
    induction changes with
    | nil => exact fun _ => ⟨_, rfl⟩
    | cons change changes ih =>
        intro n
        obtain ⟨value, hvalue⟩ := hfor (place change.kind change.key).bytes change.value
        obtain ⟨rest, hrest⟩ := ih (n + 1)
        rw [EncryptedStore.sealed, hvalue, hrest]
        exact ⟨_, rfl⟩
  have hentries : ∀ entries n, ∃ sealed,
      (⟨key, key⟩ : EncryptedStore plain).sealedEntries (fun _ => 0) n entries = .ok sealed := by
    intro entries
    induction entries with
    | nil => exact fun _ => ⟨_, rfl⟩
    | cons entry entries ih =>
        intro n
        obtain ⟨value, hvalue⟩ := hfor (index ++ entry.1) (entry.2.map (Octets.number 16))
        obtain ⟨rest, hrest⟩ := ih (n + 1)
        rw [sealedEntries, hvalue, hrest]
        exact ⟨_, rfl⟩
  induction writes generalizing engine with
  | nil => exact ⟨engine, .nil engine⟩
  | cons write writes ih =>
      obtain ⟨batch, hbatch⟩ := hrecords write.1 0
      obtain ⟨indexed, hindexed⟩ := hentries write.2 write.1.length
      have hmade : (⟨key, key⟩ : EncryptedStore plain).applyIndexed (fun _ => 0) engine none
          write.1 write.2 = .ok { engine with kept := engine.kept.apply (batch ++ indexed) } := by
        rw [applyIndexed, EncryptedStore.indexed, hbatch, hindexed]
        rfl
      obtain ⟨last, hlast⟩ := ih { engine with kept := engine.kept.apply (batch ++ indexed) }
      exact ⟨last, .cons hmade hlast⟩

end EncryptedStore

namespace Databases

open EncryptedStore (Apart dataKey place_bytes)

theorem records_at_rest_resting :
    ∃ engine : Engine,
      (∀ place ∈ ({(.chunk, .pair 2 0), (.journey, .id 1)} : Set Place), ∃ found,
        (⟨5, 5⟩ : EncryptedStore EncryptedStore.plain).getIn engine none place.kept.1
            place.kept.2 = .ok found ∧
          found.map (place.1.read Octets.primitives) =
            ((fresh.run ⟨fun _ => [], fun bs => bs⟩ (fun _ => []) (fun _ => []) resting).store
              .runtime).records place) ∧
        ∀ first last most reverse,
          ((⟨5, 5⟩ : EncryptedStore EncryptedStore.plain).scanIndexIn engine none first last most
              reverse).map (List.map fun e => (e.1.map UInt8.toNat, e.2)) =
            .ok (((fresh.run ⟨fun _ => [], fun bs => bs⟩ (fun _ => []) (fun _ => [])
              resting).store .runtime).entries.range (first.map UInt8.toNat)
                (last.map UInt8.toNat) most reverse) := by
  obtain ⟨engine, hengine⟩ := EncryptedStore.Plain.written 5
    ((fresh.writes ⟨fun _ => [], fun bs => bs⟩ (fun _ => []) (fun _ => []) .runtime resting).map
      (Laid.kept Octets.primitives)) (Engine.with' ⟨"memory", .empty⟩ dataKey (some [3, 5]))
  refine ⟨engine, records_at_rest .runtime ?_ ?_ ?_ ?_ hengine⟩
  · have hjourney : ∃ record : JourneyRecord, 1 = record.journey ∧
        Form.bytes { journey := 1, body := [7] : JourneyRecord } = Form.bytes record :=
      ⟨_, rfl, rfl⟩
    simpa [resting, Act.Made, Embedded.Act.ops, Op.Made] using hjourney
  · rintro place (rfl | rfl)
    · simp [Place.Fits, Kind.widths, Key.numbers]
    · simp [Place.Fits, Kind.widths, Key.numbers]
  · have hplaces : Place.kept '' {(.chunk, .pair 2 0), (.journey, .id 1)} =
        {("chunk", chunkKey 2 0), ("journey", Octets.number 16 1)} := by
      rw [Set.image_pair]
      rfl
    rw [hplaces]
    constructor
    · rintro p (rfl | rfl) q (rfl | rfl) h
      · rfl
      · simp only [place_bytes] at h
        exact absurd h (by decide +kernel)
      · simp only [place_bytes] at h
        exact absurd h (by decide +kernel)
      · rfl
    · rintro p (rfl | rfl) ⟨rest, hrest⟩ <;> exact absurd (List.cons.inj hrest).1 (by decide)
    · rintro p (rfl | rfl) ⟨rest, hrest⟩ <;> exact absurd (List.cons.inj hrest).1 (by decide)
  · have hwrites : fresh.writes ⟨fun _ => [], fun bs => bs⟩ (fun _ => []) (fun _ => []) .runtime
        resting =
          [([⟨.chunk, .pair 2 0, some (.chunk ⟨2, 0, [5, 6]⟩)⟩], []),
            ([⟨.journey, .id 1, some (.journey
                ⟨1, [7], { createdUnixNanos := 9, updatedUnixNanos := 9 }⟩)⟩],
              [([1, 0, 0, 0, 0, 0, 0, 0, 0, 0, 0, 0, 9, 0, 0, 0, 0, 0, 0, 0, 0, 0, 0, 0, 0, 0, 0,
                0, 1], some 1)]),
            ([⟨.chunk, .pair 2 0, some (.chunk ⟨2, 0, [8]⟩)⟩], [])] := by
      decide +kernel
    have hchunk : Place.Fits (.chunk, .pair 2 0) := by
      simp [Place.Fits, Kind.widths, Key.numbers]
    rw [hwrites]
    simp only [List.mem_cons, List.not_mem_nil, or_false]
    rintro laid (rfl | rfl | rfl)
    · refine ⟨⟨?_, ?_, by simp⟩, by simp [Change.place]⟩
      · simpa [Change.place] using hchunk
      · simp [Content.Bounded, StreamChunk.writeForm, Sink.fits]
    · refine ⟨⟨?_, ?_, by simp⟩, by simp [Change.place]⟩
      · simp [Change.place, Place.Fits, Kind.widths, Key.numbers]
      · simp only [List.mem_singleton, forall_eq, Option.mem_some_iff, forall_eq', Content.Bounded,
          JourneyRecord.writeForm, JourneyFacts.writeForm, Sink.optional, Sink.flag, Sink.fits_all,
          List.forall_mem_cons]
        simp [Sink.fits]
    · refine ⟨⟨?_, ?_, by simp⟩, by simp [Change.place]⟩
      · simpa [Change.place] using hchunk
      · simp [Content.Bounded, StreamChunk.writeForm, Sink.fits]

end Databases

end XmipPersist
