import XmipPersist.Library.Steps
import XmipPersist.Model.OnDisk
import XmipPersist.Verification.Audit.Kept
import XmipPersist.Verification.Claim.Repeat

/-! # Nothing is kept that did not durably happen

The keeper reads the runtime database where a batch is readable before it is synced, and what it
keeps is durable at once. A crash then takes back the batch and leaves what is kept of it, unless
the record was in what a crash leaves when the keeper read it.
-/

namespace XmipPersist

variable {digest : Publication → Bytes} {codec : Codec} {sha : Bytes → Bytes}

/-! ## What the keeper writes of a record it read -/

/-- A row kept of a record: its act as the record said it. -/
structure KeptAudit.Of (codec : Codec) (sha : Bytes → Bytes) (entry : AuditEntry)
    (row : KeptAudit) : Prop where
  id : row.id = entry.id
  streams : row.streams = entry.carriedStreams
  facts : row.facts.said = entry.facts.said
  bodyDigest : row.facts.bodyDigest = sha (entry.bodyBytes codec)

theorem KeptAudit.Of.timeless {entry : AuditEntry} {row row' : KeptAudit}
    (h : row.Of codec sha entry) (hsame : row.timeless = row'.timeless) :
    row'.Of codec sha entry := by
  have hfacts : row'.timeless.facts = row.timeless.facts := congrArg KeptAudit.facts hsame.symm
  refine ⟨?_, ?_, ?_, ?_⟩
  · rw [← h.id]
    exact (congrArg KeptAudit.id hsame).symm
  · rw [← h.streams]
    exact (congrArg KeptAudit.streams hsame).symm
  · have hsaid : ∀ r : KeptAudit, r.timeless.facts.said = r.facts.said := fun _ => rfl
    rw [← hsaid row', hfacts, hsaid, h.facts]
  · have hdigest : row'.timeless.facts.bodyDigest = row.timeless.facts.bodyDigest :=
      congrArg AuditFacts.bodyDigest hfacts
    rw [← h.bodyDigest]
    exact hdigest

/-- Wherever a change writes a row, it is one of this record. -/
def Change.RowOf (codec : Codec) (sha : Bytes → Bytes) (entry : AuditEntry) (c : Change) : Prop :=
  c.kind = .keptAudit → ∃ row : KeptAudit, c.key = .id entry.id ∧
    c.value = some (.keptAudit row) ∧ row.Of codec sha entry

theorem forall₂_exists_left {α β : Type} {R : α → β → Prop} {xs : List α} {ys : List β}
    (h : List.Forall₂ R xs ys) {y : β} (hy : y ∈ ys) : ∃ x ∈ xs, R x y := by
  have hflip : List.Forall₂ (fun b a => R a b) ys xs := List.Forall₂.flip h
  exact forall₂_exists hflip hy

namespace Keeper

variable {runtime audit : Store} {entry : AuditEntry} {number chunk : ℕ}
  {ws : List EngineWrite}

theorem link_of {streams : List StreamRecord} {head : Change} {kept : KeptAudit}
    (h : link codec sha audit (row codec sha chunk entry) streams = .ok (head, kept)) :
    head.kind = .chain ∧ kept.Of codec sha entry := by
  simp only [link, bind_eq_ok] at h
  obtain ⟨last, -, h⟩ := h
  obtain ⟨rfl, rfl⟩ := Prod.mk.inj (Except.ok.inj h)
  refine ⟨rfl, rfl, rfl, ?_, rfl⟩
  simp only [AuditFacts.said, KeptAudit.linked, KeptAudit.after, row]

/-- What the keeper is to write of the record it read: its row, and no other. -/
theorem writes_rows (h : writes codec sha chunk runtime audit number = .ok ws) :
    ∃ entry, runtime.get (.audit, .id number) = .ok (some (.audit entry)) ∧
      ∀ w ∈ ws, ∀ c ∈ w.changes, c.RowOf codec sha entry := by
  obtain ⟨entry, hentry, hwrites⟩ := writes_spec h
  refine ⟨entry, hentry, ?_⟩
  rcases hwrites with ⟨-, rfl⟩ | ⟨-, chunks, streams, head, kept, hchunks, hlink, rfl⟩
  · simp
  · obtain ⟨hhead, hkept⟩ := link_of hlink
    intro w hw c hc hkind
    rcases List.mem_append.mp hw with hw | hw
    · rcases List.mem_append.mp hw with hw | hw
      · have hstream := (streamsKept_plain hchunks w hw c hc).1
        rw [hstream] at hkind
        cases hkind
      · obtain ⟨index, hindex, rfl⟩ := List.mem_mapIdx.mp hw
        obtain rfl := List.mem_singleton.mp hc
        cases hkind
    · obtain rfl := List.mem_singleton.mp hw
      rcases List.mem_append.mp hc with hc | hc
      · obtain ⟨stream, -, rfl⟩ := List.mem_map.mp hc
        cases hkind
      · rcases List.mem_pair.mp hc with rfl | rfl
        · rw [hhead] at hkind
          cases hkind
        · exact ⟨kept, rfl, rfl, hkept⟩

end Keeper

/-! ## What a crash leaves -/

/-- A state that a crash leaves has this record. -/
def Synced.Leaves (disk : Synced Store) (entry : AuditEntry) : Prop :=
  ∃ k ≤ disk.kept, ∃ n, (disk.after k).get (.audit, .id n) = .ok (some (.audit entry))

/-- A write of those the database is the last of put this record. -/
def Synced.Wrote (disk : Synced Store) (entry : AuditEntry) : Prop :=
  ∃ k < disk.size, ∃ n, (disk.after k).get (.audit, .id n) ≠ .ok (some (.audit entry)) ∧
    (disk.after (k + 1)).get (.audit, .id n) = .ok (some (.audit entry))

namespace Synced.Leaves

variable {disk : Synced Store} {entry : AuditEntry}

theorem write (h : disk.Leaves entry) (s : Store) : (disk.write s).Leaves entry := by
  obtain ⟨k, hk, n, hn⟩ := h
  refine ⟨k, hk, n, ?_⟩
  rwa [Synced.after_write disk s (hk.trans disk.kept_le_size)]

theorem sync (h : disk.Leaves entry) (began : ℕ) : (disk.sync began).Leaves entry := by
  obtain ⟨k, hk, hn⟩ := h
  exact ⟨k, hk.trans (le_max_left _ _), hn⟩

theorem crash (h : disk.Leaves entry) : disk.crash.Leaves entry := by
  obtain ⟨k, hk, n, hn⟩ := h
  exact ⟨k, hk, n, by rwa [Synced.after_crash disk hk]⟩

/-- A database opened without it: one of its writes put it there. -/
theorem wrote (h : disk.Leaves entry)
    (hfirst : ∀ n, (disk.after 0).get (.audit, .id n) ≠ .ok (some (.audit entry))) :
    disk.Wrote entry := by
  obtain ⟨k, hk, n, hn⟩ := h
  have hsize := hk.trans disk.kept_le_size
  clear hk
  induction k with
  | zero => exact absurd hn (hfirst n)
  | succ k ih =>
      by_cases hbefore : (disk.after k).get (.audit, .id n) = .ok (some (.audit entry))
      · exact ih hbefore (Nat.le_of_succ_le hsize)
      · exact ⟨k, hsize, n, hbefore, hn⟩

end Synced.Leaves

namespace OnDisk

variable {d : OnDisk} {act : Act} {acts : List Act}

section Kept

variable (codec : Codec) (sha : Bytes → Bytes)

/-- A row at its place, of a record that a crash leaves. -/
def Rests (d : OnDisk) (key : Key) (content : Content) : Prop :=
  ∃ row entry, content = .keptAudit row ∧ key = .id entry.id ∧ row.Of codec sha entry ∧
    d.node.disk.Leaves entry

/-- Every row the audit database was ever left with, and every row the keeper is to write, is of a
record that a crash leaves. -/
structure Sound (d : OnDisk) : Prop where
  opened : d.node.disk.after 0 = .empty
  rows : ∀ k ≤ d.audit.size, ∀ key content,
    (d.audit.after k).records (.keptAudit, key) = some content → d.Rests codec sha key content
  writes : ∀ keeping writes, d.keeping = some keeping → keeping.writes = some writes →
    ∀ w ∈ writes, ∀ c ∈ w.changes, c.kind = .keptAudit →
      ∃ content, c.value = some content ∧ d.Rests codec sha c.key content

/-- A keeper that reads its record reads one that a crash leaves. -/
def ReadsSynced (d : OnDisk) : Act → Prop
  | .look => ∀ keeping ∈ d.keeping, keeping.writes.isNone →
      (d.node.disk.after d.node.disk.kept).get (.audit, .id keeping.number) =
        d.node.disk.now.get (.audit, .id keeping.number)
  | _ => True

instance (d : OnDisk) : DecidablePred d.ReadsSynced
  | .look => inferInstanceAs (Decidable (∀ keeping ∈ d.keeping, keeping.writes.isNone →
      (d.node.disk.after d.node.disk.kept).get (.audit, .id keeping.number) =
        d.node.disk.now.get (.audit, .id keeping.number)))
  | .event _ | .keep _ _ | .write _ | .told | .cut => .isTrue trivial

/-- Every row kept is of a record that a write of the runtime database's put, one it is still the
last of. -/
def Happened (d : OnDisk) : Prop :=
  ∀ id content, d.audit.now.get (.keptAudit, .id id) = .ok (some content) →
    ∃ row entry, content = .keptAudit row ∧ row.id = id ∧ row.Of codec sha entry ∧
      d.node.disk.Wrote entry

end Kept

theorem Rests.leaves {d' : OnDisk} {key : Key} {content : Content}
    (h : d.Rests codec sha key content)
    (hleaves : ∀ entry, d.node.disk.Leaves entry → d'.node.disk.Leaves entry) :
    d'.Rests codec sha key content := by
  obtain ⟨row, entry, hcontent, hkey, hof, hrests⟩ := h
  exact ⟨row, entry, hcontent, hkey, hof, hleaves entry hrests⟩

/-- Nothing but a crash takes a state back, and not even one takes one back that it leaves. -/
theorem after_leaves (n : Node) (event : Event) :
    (n.after digest event).disk.after 0 = n.disk.after 0 ∧
      ∀ entry, n.disk.Leaves entry → (n.after digest event).disk.Leaves entry := by
  have hsame : ∀ {n' : Node}, n'.disk = n.disk → n'.disk.after 0 = n.disk.after 0 ∧
      ∀ entry, n.disk.Leaves entry → n'.disk.Leaves entry := by
    intro n' h
    rw [h]
    exact ⟨rfl, fun _ h => h⟩
  cases event with
  | group m ops =>
      change (n.group digest m ops).disk.after 0 = _ ∧
        ∀ entry, _ → (n.group digest m ops).disk.Leaves entry
      unfold Node.group
      split
      · exact hsame rfl
      · exact hsame rfl
      · exact ⟨Synced.after_write _ _ (Nat.zero_le _), fun entry h => h.write _⟩
  | hand =>
      refine hsame ?_
      change n.hand.disk = n.disk
      unfold Node.hand
      split <;> rfl
  | take more =>
      refine hsame ?_
      change (n.take more).disk = n.disk
      unfold Node.take
      split <;> rfl
  | begins =>
      refine hsame ?_
      change n.begins.disk = n.disk
      unfold Node.begins
      split <;> rfl
  | ends synced =>
      change (n.ends synced).disk.after 0 = _ ∧
        ∀ entry, _ → (n.ends synced).disk.Leaves entry
      unfold Node.ends
      split
      · exact hsame rfl
      · split
        · exact ⟨rfl, fun entry h => h.sync _⟩
        · exact hsame rfl
  | chunk chunk => exact ⟨Synced.after_write _ _ (Nat.zero_le _), fun entry h => h.write _⟩
  | stream last stream now =>
      exact ⟨Synced.after_write _ _ (Nat.zero_le _), fun entry h => h.write _⟩
  | crash => exact ⟨Synced.after_crash _ (Nat.zero_le _), fun entry h => h.crash⟩

theorem fresh_sound : fresh.Sound codec sha where
  opened := rfl
  rows k hk key content h := by
    obtain rfl : k = 0 := Nat.le_zero.mp hk
    cases h
  writes := nofun

/-- A keeper with no more to write than before. -/
theorem Sound.keeper (h : d.Sound codec sha) {keeping : Option Keeping}
    (hkeeping : ∀ k writes, keeping = some k → k.writes = some writes →
      d.keeping = some k) : ({ d with keeping } : OnDisk).Sound codec sha :=
  ⟨h.opened, h.rows, fun k writes hk hwrites =>
    h.writes k writes (hkeeping k writes hk hwrites) hwrites⟩

theorem keep_sound (h : d.Sound codec sha) (most chunk : ℕ) :
    ({ d with keeping := (d.embedded.keep most chunk).keeping } : OnDisk).Sound codec sha := by
  refine h.keeper fun k writes hk hwrites => ?_
  unfold Embedded.keep at hk
  split at hk
  · simp only at hk
    split at hk
    · obtain rfl := Option.some.inj hk
      cases hwrites
    · cases hk
  · exact hk

theorem told_sound (h : d.Sound codec sha) : d.told.Sound codec sha := by
  unfold told
  split
  · next keeping hkeeping =>
      split
      · refine h.keeper fun k writes hk hwrites => ?_
        unfold Embedded.told at hk
        split at hk
        · split at hk
          · obtain rfl := Option.some.inj hk
            cases hwrites
          · cases hk
        · cases hk
      · exact h
  · exact h

/-- What the keeper reads of a record that a crash leaves, it is to write a row of. -/
theorem look_sound (h : d.Sound codec sha) (hsynced : d.ReadsSynced .look) :
    ({ d with keeping := (d.embedded.look codec sha).keeping } : OnDisk).Sound codec sha := by
  refine ⟨h.opened, h.rows, fun k writes hk hwrites => ?_⟩
  unfold Embedded.look at hk
  split at hk
  · next number upto chunk hbefore =>
      split at hk
      · next ws hread =>
          obtain rfl := Option.some.inj hk
          obtain rfl := Option.some.inj hwrites
          obtain ⟨entry, hentry, hrows⟩ := Keeper.writes_rows hread
          have hkept := hsynced _ hbefore rfl
          intro w hw c hc hkind
          obtain ⟨row, hkey, hvalue, hof⟩ := hrows w hw c hc hkind
          exact ⟨_, hvalue, row, entry, rfl, hkey, hof, d.node.disk.kept, le_rfl, number,
            hkept.trans hentry⟩
      · cases hk
  · exact h.writes k writes hk hwrites

/-- What a write leaves at a row's place was there, or is what it wrote but for the keeper's
time. -/
theorem apply_row {w : EngineWrite} {audit s : Store} {now : ℤ} (h : w.apply audit now = .ok s)
    {key : Key} {content : Content} (hs : s.records (.keptAudit, key) = some content) :
    audit.records (.keptAudit, key) = some content ∨
      ∃ c ∈ w.changes, c.place = (.keptAudit, key) ∧
        c.value.map Content.bare = some content.bare := by
  cases w with
  | deferred c =>
      obtain rfl := Except.ok.inj h
      simp only [Store.applyIndexed, written_cons, written_nil, Option.none_or] at hs
      by_cases hc : c.place = (.keptAudit, key)
      · rw [if_pos hc] at hs
        have hvalue : c.value = some content := hs
        exact .inr ⟨c, by simp [EngineWrite.changes], hc, by rw [hvalue]; rfl⟩
      · rw [if_neg hc] at hs
        exact .inl hs
  | indexed cs =>
      simp only [EngineWrite.apply, bind_eq_ok] at h
      obtain ⟨⟨laid, entries⟩, hlaid, h⟩ := h
      obtain rfl := Except.ok.inj h
      simp only [Store.applyIndexed] at hs
      cases hw : written laid (.keptAudit, key) with
      | none =>
          rw [hw] at hs
          exact .inl hs
      | some value =>
          rw [hw] at hs
          obtain ⟨c', hc', hplace, hvalue⟩ := exists_of_written hw
          obtain ⟨c, hc, hsame, hbare⟩ := forall₂_exists_left (writtenOver_laid hlaid) hc'
          refine .inr ⟨c, hc, by rw [← hsame, hplace], ?_⟩
          rw [← hbare, hvalue, show value = some content from hs]
          rfl

theorem write_sound (h : d.Sound codec sha) (now : ℤ) : (d.write now).Sound codec sha := by
  unfold write
  split
  · next number upto chunk next rest hk =>
      split
      · next s happly =>
          have hpending := h.writes _ _ hk rfl
          have hnew : ∀ key content, s.records (.keptAudit, key) = some content →
              d.Rests codec sha key content := by
            intro key content hs
            rcases apply_row happly hs with hbefore | ⟨c, hc, hplace, hbare⟩
            · exact h.rows _ le_rfl key content hbefore
            · obtain ⟨hkind, hkey⟩ := Prod.mk.inj hplace
              obtain ⟨found, hvalue, row, entry, rfl, hid, hof, hleaves⟩ :=
                hpending next (by simp) c hc hkind
              rw [hvalue] at hbare
              obtain ⟨row', rfl, hsame⟩ := Content.row_of_bare (Option.some.inj hbare).symm
              exact ⟨row', entry, rfl, by rw [← hkey, hid], hof.timeless hsame, hleaves⟩
          have hrows : ∀ k ≤ (next.onto d.audit s).size, ∀ key content,
              ((next.onto d.audit s).after k).records (.keptAudit, key) = some content →
                d.Rests codec sha key content := by
            intro k hk key content hcontent
            have hsize : (next.onto d.audit s).size = d.audit.size + 1 := by
              cases next <;> simp [EngineWrite.onto]
            have hafter : (next.onto d.audit s).after k = (d.audit.write s).after k := by
              cases next <;> rfl
            rw [hafter] at hcontent
            by_cases hlast : k = d.audit.size + 1
            · have hnow : (d.audit.write s).after k = s := by
                rw [hlast, ← Synced.size_write d.audit s]
                exact Synced.now_write d.audit s
              rw [hnow] at hcontent
              exact hnew key content hcontent
            · have hle : k ≤ d.audit.size := by omega
              rw [Synced.after_write _ _ hle] at hcontent
              exact h.rows k hle key content hcontent
          refine ⟨h.opened, hrows, ?_⟩
          rintro keeping writes ⟨⟩ ⟨⟩ w hw
          exact hpending w (List.mem_cons_of_mem _ hw)
      · exact h.keeper nofun
  · exact h

theorem crash_sound (h : d.Sound codec sha) : d.crash.Sound codec sha := by
  have hstep : (d.node.after (fun _ => []) .crash).disk.after 0 = d.node.disk.after 0 ∧
      ∀ entry, d.node.disk.Leaves entry → (d.node.after (fun _ => []) .crash).disk.Leaves entry :=
    after_leaves d.node .crash
  obtain ⟨hopened, hleaves⟩ := hstep
  refine ⟨hopened.trans h.opened, fun k hk key content hcontent => ?_, nofun⟩
  have hkept : k ≤ d.audit.kept := by simpa [crash] using hk
  have hbefore : (d.audit.after k).records (.keptAudit, key) = some content := by
    rw [← Synced.after_crash d.audit hkept]
    exact hcontent
  exact (h.rows k (hkept.trans d.audit.kept_le_size) key content hbefore).leaves hleaves

/-- Each step keeps every row kept of a record that a crash leaves. -/
theorem after_sound (h : d.Sound codec sha) (hsynced : d.ReadsSynced act) :
    (d.after codec sha digest act).Sound codec sha := by
  have hevent : ∀ event, Sound codec sha { d with node := d.node.after digest event } := by
    intro event
    obtain ⟨hopened, hleaves⟩ :
        (d.node.after digest event).disk.after 0 = d.node.disk.after 0 ∧ _ :=
      after_leaves d.node event
    refine ⟨hopened.trans h.opened, fun k hk key content hcontent =>
      (h.rows k hk key content hcontent).leaves hleaves, ?_⟩
    intro k writes hk hwrites w hw c hc hkind
    obtain ⟨content, hvalue, hrests⟩ := h.writes k writes hk hwrites w hw c hc hkind
    exact ⟨content, hvalue, hrests.leaves hleaves⟩
  cases act with
  | event event =>
      cases event with
      | crash => exact crash_sound h
      | group m ops => exact hevent _
      | hand => exact hevent _
      | take more => exact hevent _
      | begins => exact hevent _
      | ends synced => exact hevent _
      | chunk chunk => exact hevent _
      | stream last stream now => exact hevent _
  | keep most chunk => exact keep_sound h most chunk
  | look => exact look_sound h hsynced
  | write now => exact write_sound h now
  | told => exact told_sound h
  | cut => exact h.keeper nofun

theorem Sound.happened (h : d.Sound codec sha) : d.Happened codec sha := by
  intro id content hget
  have hrecords : d.audit.now.records (.keptAudit, .id id) = some content := by
    unfold Store.get at hget
    split at hget
    · cases hget
    · exact Except.ok.inj hget
  obtain ⟨row, entry, hcontent, hkey, hof, hleaves⟩ := h.rows _ le_rfl _ _ hrecords
  refine ⟨row, entry, hcontent, hof.id.trans (Key.id.inj hkey).symm, hof, hleaves.wrote fun n => ?_⟩
  rw [h.opened]
  exact nofun

/-- In every run of the node from nothing whose keeper reads only records that a crash would leave,
every row kept is of a record whose write the runtime database holds, and holds after a crash. -/
theorem audit_happened (hruns : EachStep (after codec sha digest) ReadsSynced fresh acts) :
    (fresh.run codec sha digest acts).Happened codec sha ∧
      (fresh.run codec sha digest acts).crash.Happened codec sha := by
  have h : (fresh.run codec sha digest acts).Sound codec sha :=
    hruns.invariant fresh_sound fun d act hd => after_sound hd
  exact ⟨h.happened, (crash_sound h).happened⟩

/-- A Publication written, and what the keeper makes of its record before it is synced. -/
def keptUnsynced : List Act :=
  [.event (.group ⟨0, 3, .asWritten, none⟩ [.publish onePublished]),
    .keep 10 16, .look, .write 1, .write 1]

/-- A Publication synced before its record is kept, and a crash after it is forgotten. -/
def keptSynced : List Act :=
  [.event (.group ⟨0, 3, .asWritten, none⟩ [.publish onePublished]),
    .event .hand, .event (.take 0), .event .begins, .event (.ends true),
    .keep 10 16, .look, .write 1, .write 1,
    .event (.group ⟨2, 3, .asWritten, none⟩ [.kept 0]),
    .event .hand, .event (.take 0), .event .begins, .event (.ends true), .told, .event .crash]

theorem audit_happened_synced :
    (fresh.run ⟨fun _ => [], id⟩ summed audited keptSynced).Happened ⟨fun _ => [], id⟩ summed ∧
      (fresh.run ⟨fun _ => [], id⟩ summed audited keptSynced).crash.Happened
        ⟨fun _ => [], id⟩ summed :=
  audit_happened (by decide +kernel)

/-- The row kept of a Publication outlives the crash that takes the Publication back. -/
theorem audit_undone :
    ¬∀ (codec : Codec) (sha : Bytes → Bytes) (digest : Publication → Bytes) (acts : List Act),
      (fresh.run codec sha digest acts).crash.Happened codec sha := by
  intro hall
  have hhappened := hall ⟨fun _ => [], id⟩ summed audited keptUnsynced
  have hsize : (fresh.run ⟨fun _ => [], id⟩ summed audited keptUnsynced).node.disk.kept = 0 := by
    decide +kernel
  have hrow : ((fresh.run ⟨fun _ => [], id⟩ summed audited keptUnsynced).crash.audit.now.records
      (.keptAudit, .id 9)).any fun content => content.timed := by
    decide +kernel
  generalize fresh.run ⟨fun _ => [], id⟩ summed audited keptUnsynced = d at hhappened hsize hrow
  obtain ⟨content, hcontent, htimed⟩ := (Option.any_eq_true _ _).mp hrow
  have hget : d.crash.audit.now.get (.keptAudit, .id 9) = .ok (some content) := by
    rw [Store.get, hcontent]
    cases content <;> first | rfl | cases htimed
  obtain ⟨row, entry, -, -, -, k, hk, -⟩ := hhappened 9 content hget
  have hnone : d.crash.node.disk.size = 0 := by
    rw [← hsize]
    exact Synced.size_crash _
  omega

end OnDisk

end XmipPersist
