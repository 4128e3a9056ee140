import XmipPersist.Model.Client
import XmipPersist.Verification.Durability.Answers

/-! # What an answered Publication says of its statement's chunks

A chunk is unsynced until the Publication's sync. A statement goes on over a fresh connection
when its Storage node was started again in between, so a Publication may be answered though what
the statement wrote before was lost. Where no request is asked of such a Storage node, an answered
Publication says that all of its statement is kept, and a statement of which anything was lost
fails as it asks again.
-/

namespace XmipPersist

variable {digest : Publication → Bytes}

/-! ## The writes a Storage node keeps -/

/-- Whatever happens at a Storage node, a crash aside, it has what it had. -/
theorem Node.after_keeps (digest : Publication → Bytes) (n : Node) {e : Event} (h : e ≠ .crash) :
    n.disk.size ≤ (n.after digest e).disk.size ∧ n.disk.kept ≤ (n.after digest e).disk.kept ∧
      ∀ k ≤ n.disk.size, (n.after digest e).disk.after k = n.disk.after k := by
  have hsame : n.disk.size ≤ n.disk.size ∧ n.disk.kept ≤ n.disk.kept ∧
      ∀ k ≤ n.disk.size, n.disk.after k = n.disk.after k := ⟨le_rfl, le_rfl, fun _ _ => rfl⟩
  have hwrite : ∀ state, n.disk.size ≤ (n.disk.write state).size ∧
      n.disk.kept ≤ (n.disk.write state).kept ∧
        ∀ k ≤ n.disk.size, (n.disk.write state).after k = n.disk.after k := fun state =>
    ⟨by simp, le_rfl, fun k hk => n.disk.after_write state hk⟩
  cases e with
  | group m ops =>
      simp only [Node.after, Node.group]
      split
      · exact hsame
      · exact hsame
      · exact hwrite _
  | hand =>
      simp only [Node.after, Node.hand]
      split <;> exact hsame
  | take more =>
      simp only [Node.after, Node.take]
      split <;> exact hsame
  | begins =>
      simp only [Node.after, Node.begins]
      split <;> exact hsame
  | ends synced =>
      simp only [Node.after, Node.ends]
      split
      · exact hsame
      · cases synced with
        | false => exact hsame
        | true => exact ⟨le_rfl, le_max_left _ _, fun _ _ => rfl⟩
  | chunk chunk => exact hwrite _
  | stream last stream now => exact hwrite _
  | crash => exact absurd rfl h

/-! ## What a statement wrote -/

/-- What a request leaves in the store. -/
def Request.Left (s : Store) : Request → Prop
  | .chunk c => s.records (.chunk, .pair c.stream c.index) = some (Form.bytes c)
  | .stream last record =>
      s.records (.chunk, .pair last.stream last.index) = some (Form.bytes last) ∧
        ∃ time, s.records (.stream, .id record.stream) =
          some (Form.bytes { record with writtenUnixNanos := time })
  | .publish _ => True

theorem left_chunk (s : Store) (chunk : StreamChunk) :
    Request.Left (s.applyIndexed [Writer.chunkChange chunk] []) (.chunk chunk) := by
  simp [Request.Left, Store.applyIndexed, written_cons, Change.place, Writer.chunkChange]

theorem left_stream (s : Store) (last : StreamChunk) (stream : StreamRecord) (now : ℤ) :
    Request.Left (s.applyIndexed (Writer.streamChanges last stream now) [])
      (.stream last stream) := by
  constructor
  · simp [Store.applyIndexed, Writer.streamChanges, written_cons, Change.place,
      Writer.chunkChange]
  · exact ⟨nanos now, by simp [Store.applyIndexed, Writer.streamChanges, written_cons,
      Change.place]⟩

/-- An event at the Storage node, or the requests decided with the Publication, as the storage
operations make them. -/
def Happening.Made : Happening → Prop
  | .node e => e.Made
  | .ask _ _ pre post => (∀ op ∈ pre, op.Made) ∧ ∀ op ∈ post, op.Made
  | _ => True

namespace Asking

/-- Every chunk of the statement and its Stream's record is kept: written, and not written after
what the last completed sync kept. -/
def Kept (s : Statement) (a : Asking) : Prop :=
  a.wrote.map Prod.fst = s.writes ∧
    ∀ e ∈ a.wrote, ∃ n, e.2 = some n ∧ n ≤ a.node.disk.kept ∧ e.1.Left (a.node.disk.after n)

/-- A request of the statement that a stop took back. -/
def Lost (a : Asking) : Prop := ∃ e ∈ a.wrote, e.2 = none

instance decidableLost (a : Asking) : Decidable a.Lost :=
  inferInstanceAs (Decidable (∃ e ∈ a.wrote, e.2 = none))

/-- Something the statement wrote waits for a sync. -/
def Unsynced (a : Asking) : Prop := ∃ e ∈ a.wrote, ∃ n, e.2 = some n ∧ a.node.disk.kept < n

/-- The statement has a request to ask, and the one writer time for a Publication. -/
def Asks (a : Asking) : Prop :=
  (a.progress = .asking ∨ a.progress = .again) ∧
    ∀ asked, a.rest = [.publish asked] → a.node.unhanded = none

/-- The Storage node runs as a primary that is reached: over a connection kept since it was
started, which one asking again leaves alone, or as one of no epoch before the latest met. -/
def Reaches (a : Asking) : Prop :=
  ∃ standing, a.standing = some standing ∧ standing.primary = true ∧
    ((a.progress = .asking ∧ a.idle.getLast? = some a.starts) ∨ a.epoch ≤ standing.epoch)

/-- A Publication asked in a group that finds nothing left to do, itself among it. -/
def Repeats (digest : Publication → Bytes) (a : Asking) (m : Moment) (pre post : List Op)
    (asked : Publication) : Prop :=
  (∀ op ∈ pre ++ .publish asked :: post,
    op.Spent digest m a.node.batch ∨ op.Refused digest a.node.batch) ∧
      (Op.publish asked).Spent digest m a.node.batch

/-- Where something of the statement was lost, what it asks reaches no Storage node; and while
something of it waits for a sync, its Publication is no repeat of one written before. -/
def Meets (digest : Publication → Bytes) (a : Asking) : Happening → Prop
  | .ask _ m pre post => (a.Lost → a.Asks → ¬a.Reaches) ∧
      (a.Unsynced → a.Asks → ∀ asked, a.rest = [.publish asked] →
        ¬a.Repeats digest m pre post asked)
  | _ => True

/-- What a happening comes to for the statement: once it is answered, all of it is kept; where
anything of it was lost its next request fails it, and a failed one stays so; and a request that
writes fails it only where it reaches no Storage node. -/
structure Fares (digest : Publication → Bytes) (s : Statement) (a : Asking)
    (happening : Happening) : Prop where
  kept : ∀ claims, (a.after digest happening).progress = .answered claims →
    (a.after digest happening).Kept s
  lost : ∀ now m pre post, happening = .ask now m pre post → a.Lost → a.Asks →
    (a.after digest happening).progress = .failed
  failed : a.progress = .failed → (a.after digest happening).progress = .failed
  reached : ∀ now m pre post request next rest, happening = .ask now m pre post →
    a.progress = .asking → a.rest = request :: next :: rest →
      ((a.after digest happening).progress = .failed ↔ ¬a.Reaches)

/-! ## What a run keeps -/

/-- A statement whose answer says all of it is kept. -/
structure Sound (s : Statement) (a : Asking) : Prop where
  requests : a.wrote.map Prod.fst ++ a.rest = s.requests
  left : ∀ e ∈ a.wrote, ∀ n, e.2 = some n → n ≤ a.node.disk.size ∧
    e.1.Left (a.node.disk.after n)
  ordered : a.node.Ordered
  written : a.node.Written
  more : a.rest ≠ []
  asked : a.progress ≠ .asking → a.progress ≠ .failed → ∃ asked, a.rest = [.publish asked]
  lost : a.Lost → a.progress = .asking ∨ a.progress = .again ∨ a.progress = .failed
  waits : ∀ position kept claims, a.progress = .waiting position kept claims →
    ∀ e ∈ a.wrote, ∀ n, e.2 = some n → n ≤ position
  synced : (∃ claims, a.progress = .answered claims) → ¬a.Unsynced

theorem some_of_not_lost {a : Asking} (h : ¬a.Lost) {e : Request × Option ℕ} (he : e ∈ a.wrote) :
    ∃ n, e.2 = some n := by
  cases hn : e.2 with
  | none => exact absurd ⟨e, he, hn⟩ h
  | some n => exact ⟨n, rfl⟩

/-- What is answered is kept. -/
theorem Sound.kept {s : Statement} {a : Asking} (h : a.Sound s) {claims : List Claim}
    (ha : a.progress = .answered claims) : a.Kept s := by
  obtain ⟨asked, hrest⟩ := h.asked (by simp [ha]) (by simp [ha])
  have hlost : ¬a.Lost := fun hlost => by
    rcases h.lost hlost with hp | hp | hp <;> simp [ha] at hp
  constructor
  · have hrequests := h.requests
    rw [hrest, Statement.requests] at hrequests
    exact (List.append_inj' hrequests rfl).1
  · intro e he
    obtain ⟨n, hn⟩ := some_of_not_lost hlost he
    refine ⟨n, hn, ?_, (h.left e he n hn).2⟩
    by_contra hlate
    exact h.synced ⟨claims, ha⟩ ⟨e, he, n, hn, not_le.mp hlate⟩

/-- The Publication is the last thing a statement asks. -/
theorem Sound.publish_last {s : Statement} {a : Asking} (h : a.Sound s) {asked : Publication}
    {rest : List Request} (hrest : a.rest = .publish asked :: rest) : rest = [] := by
  rcases List.eq_nil_or_concat rest with rfl | ⟨others, last, rfl⟩
  · rfl
  · have hrequests := h.requests
    rw [hrest, Statement.requests, List.concat_eq_append, ← List.cons_append,
      ← List.append_assoc] at hrequests
    have hmem : Request.publish asked ∈ s.writes := by
      rw [← (List.append_inj' hrequests rfl).1]
      simp
    simp [Statement.writes] at hmem

theorem begun_sound (s : Statement) {n : Node} (hn : n.Ordered) (hw : n.Written)
    (standing : NodeStanding) (idle : List ℕ) (starts epoch : ℕ) :
    (begun s n standing idle starts epoch).Sound s :=
  ⟨by simp [begun], by simp [begun], hn, hw, by simp [begun, Statement.requests],
    by simp [begun], by simp [begun], by simp [begun], by simp [begun]⟩

/-- The pool, the epoch met and the Storage node's own standing are no part of it. -/
structure Same (a b : Asking) : Prop where
  node : b.node = a.node
  rest : b.rest = a.rest
  wrote : b.wrote = a.wrote
  progress : b.progress = a.progress

theorem Same.lost {a b : Asking} (h : Same a b) : b.Lost ↔ a.Lost := by
  rw [Lost, Lost, h.wrote]

theorem Same.unsynced {a b : Asking} (h : Same a b) : b.Unsynced ↔ a.Unsynced := by
  rw [Unsynced, Unsynced, h.wrote, h.node]

theorem Sound.of_same {s : Statement} {a b : Asking} (h : a.Sound s) (hs : Same a b) :
    b.Sound s := by
  have hlost := hs.lost
  have hunsynced := hs.unsynced
  obtain ⟨hnode, hrest, hwrote, hprogress⟩ := hs
  constructor
  · rw [hwrote, hrest]; exact h.requests
  · rw [hwrote, hnode]; exact h.left
  · rw [hnode]; exact h.ordered
  · rw [hnode]; exact h.written
  · rw [hrest]; exact h.more
  · rw [hprogress, hrest]; exact h.asked
  · rw [hprogress, hlost]; exact h.lost
  · rw [hprogress, hwrote]; exact h.waits
  · rw [hprogress, hunsynced]; exact h.synced

theorem fresh_same {a a' : Asking} (h : a.fresh = some a') : Same a a' := by
  unfold fresh at h
  split at h
  · cases h
  · split at h
    · cases h
      exact ⟨rfl, rfl, rfl, rfl⟩
    · cases h

theorem askNode_same {a a' : Asking} {kept : Bool} (h : a.askNode = some (kept, a')) :
    Same a a' := by
  have hfresh : ∀ {b : Asking}, ({ a with idle := a.idle.dropLast } : Asking).fresh = some b →
      Same a b := by
    intro b hb
    obtain ⟨hnode, hrest, hwrote, hprogress⟩ := fresh_same hb
    exact ⟨hnode, hrest, hwrote, hprogress⟩
  unfold askNode at h
  split at h
  · split at h
    · split at h
      · cases h
        exact ⟨rfl, rfl, rfl, rfl⟩
      · cases h
    · obtain ⟨b, hb, heq⟩ := Option.map_eq_some_iff.mp h
      cases heq
      exact hfresh hb
  · obtain ⟨b, hb, heq⟩ := Option.map_eq_some_iff.mp h
    cases heq
    exact hfresh hb

theorem fresh_isSome {a : Asking} : a.fresh.isSome = true ↔
    ∃ standing, a.standing = some standing ∧ standing.primary = true ∧
      a.epoch ≤ standing.epoch := by
  unfold fresh
  cases hs : a.standing with
  | none => simp
  | some standing =>
      simp only [Option.some.injEq, exists_eq_left']
      split
      · next h => simpa using h
      · next h => simpa using h

/-- A request reaches the Storage node over a connection kept since it was started, or afresh. -/
theorem askNode_isSome {a : Asking} : a.askNode.isSome = true ↔
    ∃ standing, a.standing = some standing ∧ standing.primary = true ∧
      (a.idle.getLast? = some a.starts ∨ a.epoch ≤ standing.epoch) := by
  have hfresh : (({ a with idle := a.idle.dropLast } : Asking).fresh.map fun a => (false, a)).isSome
      = true ↔ ∃ standing, a.standing = some standing ∧ standing.primary = true ∧
        a.epoch ≤ standing.epoch := by
    rw [Option.isSome_map, fresh_isSome]
  unfold askNode
  split
  · next opened standing hlast hstanding =>
      by_cases hopened : opened = a.starts
      · simp [hopened, hlast, hstanding]
      · rw [if_neg hopened, hfresh]
        simp [hlast, hopened]
  · next hnone =>
      rw [hfresh]
      constructor
      · rintro ⟨standing, hs, hprimary, hepoch⟩
        exact ⟨standing, hs, hprimary, .inr hepoch⟩
      · rintro ⟨standing, hs, hprimary, hlast | hepoch⟩
        · exact absurd hs (hnone a.starts standing hlast)
        · exact ⟨standing, hs, hprimary, hepoch⟩

theorem askNode_of_not_reaches {a : Asking} (h : ¬a.Reaches) (hp : a.progress = .asking) :
    a.askNode = none := by
  rw [← Option.not_isSome_iff_eq_none, askNode_isSome]
  rintro ⟨standing, hs, hprimary, hway⟩
  exact h ⟨standing, hs, hprimary, hway.imp_left fun hlast => ⟨hp, hlast⟩⟩

theorem fresh_of_not_reaches {a : Asking} (h : ¬a.Reaches) : a.fresh = none := by
  rw [← Option.not_isSome_iff_eq_none, fresh_isSome]
  rintro ⟨standing, hs, hprimary, hepoch⟩
  exact h ⟨standing, hs, hprimary, .inr hepoch⟩

/-- A statement that asks where it reaches nothing fails. -/
theorem Sound.ask_of_not_reaches {s : Statement} {a : Asking} (h : a.Sound s) (hasks : a.Asks)
    (hreaches : ¬a.Reaches) (now : ℤ) (m : Moment) (pre post : List Op) :
    (a.ask digest now m pre post).progress = .failed := by
  obtain ⟨hp | hp, hu⟩ := hasks
  · have hnone := askNode_of_not_reaches hreaches hp
    unfold Asking.ask
    cases hr : a.rest with
    | nil => exact absurd hr h.more
    | cons request rest =>
        cases request with
        | chunk chunk => simp [hp, hnone]
        | stream last stream => simp [hp, hnone]
        | publish asked =>
            obtain rfl := h.publish_last hr
            simp [hp, hnone, hu asked hr]
  · obtain ⟨asked, hr⟩ := h.asked (by simp [hp]) (by simp [hp])
    unfold Asking.ask
    simp [hp, hr, hu asked hr, fresh_of_not_reaches hreaches]

/-! ## One step -/

theorem Sound.fail {s : Statement} {a : Asking} (h : a.Sound s) :
    ({ a with progress := .failed } : Asking).Sound s :=
  ⟨h.requests, h.left, h.ordered, h.written, h.more, by simp, by simp, by simp, by simp⟩

theorem Sound.writes {s : Statement} {a : Asking} (h : a.Sound s) {request : Request}
    {rest : List Request} (hrest : a.rest = request :: rest) (hprogress : a.progress = .asking)
    (hwrites : ∀ asked, request ≠ .publish asked) {e : Event} {state : Store} (hmade : e.Made)
    (he : a.node.after digest e = { a.node with disk := a.node.disk.write state })
    (hleft : request.Left state) : (a.writes digest request e rest).Sound s := by
  have hrequests := h.requests
  rw [hrest] at hrequests
  constructor
  · simpa [Asking.writes, give] using hrequests
  · intro entry hentry
    simp only [Asking.writes, give, he]
    rcases List.mem_append.mp hentry with hentry | hentry
    · intro n hn
      obtain ⟨hle, hl⟩ := h.left entry hentry n hn
      refine ⟨by simp only [Synced.size_write]; omega, ?_⟩
      rw [Synced.after_write _ _ hle]
      exact hl
    · rw [List.mem_singleton.mp hentry]
      have hnow : (a.node.disk.write state).after (a.node.disk.size + 1) = state := by
        rw [← Synced.size_write a.node.disk state]
        exact Synced.now_write _ _
      intro n hn
      obtain rfl := Option.some.inj hn
      exact ⟨by simp, by rw [hnow]; exact hleft⟩
  · exact Node.after_ordered h.ordered e
  · exact Node.after_written h.written h.ordered hmade
  · intro hnil
    have hnil' : rest = [] := hnil
    rw [hnil', Statement.requests] at hrequests
    exact hwrites s.publication (List.singleton_inj.mp (List.append_inj' hrequests rfl).2)
  · simp [Asking.writes, give, hprogress]
  · simp [Asking.writes, give, hprogress]
  · simp [Asking.writes, give, hprogress]
  · simp [Asking.writes, give, hprogress]

/-- An event at the Storage node leaves what was written where it was. -/
theorem Sound.at_event {s : Statement} {a : Asking} (h : a.Sound s) {e : Event}
    (he : e ≠ .crash) (hmade : e.Made) {progress : Progress}
    (hasked : progress ≠ .asking → progress ≠ .failed → ∃ asked, a.rest = [.publish asked])
    (hlost : a.Lost → progress = .asking ∨ progress = .again ∨ progress = .failed)
    (hwaits : ∀ position kept claims, progress = .waiting position kept claims →
      ∀ entry ∈ a.wrote, ∀ n, entry.2 = some n → n ≤ position)
    (hsynced : (∃ claims, progress = .answered claims) →
      ∀ entry ∈ a.wrote, ∀ n, entry.2 = some n → n ≤ (a.node.after digest e).disk.kept) :
    ({ a with node := a.node.after digest e, progress } : Asking).Sound s := by
  obtain ⟨hsize, -, hafter⟩ := Node.after_keeps digest a.node he
  refine ⟨h.requests, fun entry hentry n hn => ?_, Node.after_ordered h.ordered e,
    Node.after_written h.written h.ordered hmade, h.more, hasked, hlost, hwaits, ?_⟩
  · obtain ⟨hle, hl⟩ := h.left entry hentry n hn
    exact ⟨hle.trans hsize, (hafter n hle).symm ▸ hl⟩
  · rintro hanswered ⟨entry, hentry, n, hn, hlate⟩
    exact absurd (hsynced hanswered entry hentry n hn) (not_le.mpr hlate)

/-- A Publication answered in a group that leaves nothing to write is a repeat of one written
before. -/
theorem repeats_of_kept {a : Asking} (hw : a.node.Written) {m : Moment} {pre post : List Op}
    {asked : Publication} {held : List Claim}
    (hd : (a.node.writer.committed digest m (pre ++ .publish asked :: post)).durable = .kept)
    (hanswer : (a.node.writer.committed digest m
      (pre ++ .publish asked :: post)).answers[pre.length]? = some (.ok (.claims held))) :
    a.Repeats digest m pre post asked := by
  have hmem : (Op.publish asked, .ok (.claims held)) ∈ (pre ++ Op.publish asked :: post).zip
      (a.node.writer.committed digest m (pre ++ .publish asked :: post)).answers := by
    obtain ⟨hlt, hget⟩ := List.getElem?_eq_some_iff.mp hanswer
    rw [List.mem_iff_getElem]
    exact ⟨pre.length, by simpa using hlt, by simp [hget]⟩
  exact Node.spent_of_kept (hw.proper a.node.disk.size le_rfl) hd hmem

theorem Sound.publishes {s : Statement} {a : Asking} (h : a.Sound s) {asked : Publication}
    (hrest : a.rest = [.publish asked]) (kept : Bool) {m : Moment} {pre post : List Op}
    (hpre : ∀ op ∈ pre, op.Made) (hpost : ∀ op ∈ post, op.Made) (hlost : ¬a.Lost)
    (hrepeats : a.Repeats digest m pre post asked → ¬a.Unsynced) :
    (a.publishes digest kept asked m pre post).Sound s := by
  have hmade : Event.Made (.group m (pre ++ .publish asked :: post)) := by
    intro op hop
    rcases List.mem_append.mp hop with hop | hop
    · exact hpre op hop
    · rcases List.mem_cons.mp hop with rfl | hop
      · trivial
      · exact hpost op hop
  have hgroup := Node.after_keeps digest a.node
    (e := .group m (pre ++ .publish asked :: post)) (by simp)
  unfold Asking.publishes
  simp only
  split
  · next held hanswer hd =>
      have hnot := hrepeats (repeats_of_kept h.written hd hanswer)
      refine (h.at_event (e := .group m (pre ++ .publish asked :: post)) (by simp) hmade
        (fun _ _ => ⟨asked, hrest⟩) (fun hl => absurd hl hlost) (by simp) ?_).of_same
          ⟨rfl, rfl, rfl, rfl⟩
      intro _ entry hentry n hn
      by_contra hlate
      exact hnot ⟨entry, hentry, n, hn, (hgroup.2.1.trans_lt (not_le.mp hlate))⟩
  · next held _ hd =>
      refine h.at_event (e := .group m (pre ++ .publish asked :: post)) (by simp) hmade
        (fun _ _ => ⟨asked, hrest⟩) (fun hl => absurd hl hlost) ?_ (by simp)
      intro position kept' claims hp entry hentry n hn
      cases hp
      exact (h.left entry hentry n hn).1.trans (Nat.le_succ _)
  · exact (h.at_event (e := .group m (pre ++ .publish asked :: post)) (by simp) hmade
      (by simp) (by simp) (by simp) (by simp)).of_same ⟨rfl, rfl, rfl, rfl⟩

theorem reaches_of_askNode {a : Asking} (hp : a.progress = .asking)
    (h : a.askNode.isSome = true) : a.Reaches := by
  by_contra hnot
  rw [askNode_of_not_reaches hnot hp] at h
  cases h

theorem Sound.ask {s : Statement} {a : Asking} (h : a.Sound s) {now : ℤ} {m : Moment}
    {pre post : List Op} (hmade : (Happening.ask now m pre post).Made)
    (hmeets : a.Meets digest (.ask now m pre post)) :
    (a.ask digest now m pre post).Sound s := by
  obtain ⟨hreaches, hsynced⟩ := hmeets
  unfold Asking.ask
  split
  · next chunk rest hprogress hrest =>
      split
      · next kept a' hreach =>
          have hsame := askNode_same hreach
          exact (h.of_same hsame).writes (hsame.rest.trans hrest)
            (hsame.progress.trans hprogress) (by simp) trivial rfl (left_chunk _ _)
      · exact h.fail
  · next last stream rest hprogress hrest =>
      split
      · next kept a' hreach =>
          have hsame := askNode_same hreach
          exact (h.of_same hsame).writes (hsame.rest.trans hrest)
            (hsame.progress.trans hprogress) (by simp) trivial rfl (left_stream _ _ _ _)
      · exact h.fail
  · next asked hprogress hrest hu =>
      split
      · next kept a' hreach =>
          have hsame := askNode_same hreach
          have hasks : a.Asks := ⟨.inl hprogress, fun _ _ => hu⟩
          refine (h.of_same hsame).publishes (hsame.rest.trans hrest) kept hmade.1 hmade.2 ?_ ?_
          · rw [hsame.lost]
            exact fun hlost =>
              hreaches hlost hasks (reaches_of_askNode hprogress (by simp [hreach]))
          · rw [hsame.unsynced]
            intro hrepeats hunsynced
            refine hsynced hunsynced hasks asked hrest ?_
            rw [Repeats, hsame.node] at hrepeats
            exact hrepeats
      · exact h.fail
  · next asked hprogress hrest hu =>
      split
      · next a' hreach =>
          have hsame := fresh_same hreach
          have hasks : a.Asks := ⟨.inr hprogress, fun _ _ => hu⟩
          refine (h.of_same hsame).publishes (hsame.rest.trans hrest) false hmade.1 hmade.2 ?_ ?_
          · rw [hsame.lost]
            refine fun hlost => hreaches hlost hasks ?_
            by_contra hnot
            rw [fresh_of_not_reaches hnot] at hreach
            cases hreach
          · rw [hsame.unsynced]
            intro hrepeats hunsynced
            refine hsynced hunsynced hasks asked hrest ?_
            rw [Repeats, hsame.node] at hrepeats
            exact hrepeats
      · exact h.fail
  · exact h

theorem Sound.nodeAfter {s : Statement} {a : Asking} (h : a.Sound s) {e : Event}
    (he : e ≠ .crash) (hmade : e.Made) : (a.nodeAfter digest e).Sound s := by
  have hkept := (Node.after_keeps digest a.node he).2.1
  have hkeep : a.told e = a.progress → (a.nodeAfter digest e).Sound s := by
    intro htold
    rw [Asking.nodeAfter, htold]
    refine h.at_event he hmade h.asked h.lost h.waits ?_
    intro hanswered entry hentry n hn
    by_contra hlate
    exact h.synced hanswered ⟨entry, hentry, n, hn, hkept.trans_lt (not_le.mp hlate)⟩
  cases e with
  | ends synced =>
      cases hprogress : a.progress with
      | waiting position kept claims =>
          by_cases htaken : a.node.began.isSome ∧ position ∈ a.node.taken.map Pending.position
          · obtain ⟨asked, hrest⟩ := h.asked (by simp [hprogress]) (by simp [hprogress])
            have htold : a.told (.ends synced) = if synced then .answered claims else .failed := by
              simp only [told, hprogress, htaken, and_self, if_true]
            have hlost : ¬a.Lost := fun hlost => by
              rcases h.lost hlost with hp | hp | hp <;> simp [hprogress] at hp
            rw [Asking.nodeAfter, htold]
            refine h.at_event he hmade (fun _ _ => ⟨asked, hrest⟩) (fun hl => absurd hl hlost)
              ?_ ?_
            · intro _ _ _ hp
              cases synced <;> simp at hp
            · rintro ⟨claims', hp⟩ entry hentry n hn
              cases synced with
              | false => simp at hp
              | true =>
                  -- The sync that told it began after its batch, and so after every request.
                  obtain ⟨began, hbegan⟩ := Option.isSome_iff_exists.mp htaken.1
                  obtain ⟨pending, hpending, hposition⟩ := List.mem_map.mp htaken.2
                  have hbefore := ((h.ordered.began began hbegan).2 pending hpending).1
                  have hsizes := (h.ordered.began began hbegan).1
                  have hwaits := h.waits position kept claims hprogress entry hentry n hn
                  simp only [Node.after, Node.ends, hbegan, if_true, Synced.kept_sync]
                  omega
          · exact hkeep (by simp only [told, hprogress, htaken, if_false])
      | asking => exact hkeep (by simp only [told, hprogress])
      | again => exact hkeep (by simp only [told, hprogress])
      | answered claims => exact hkeep (by simp only [told, hprogress])
      | failed => exact hkeep (by simp only [told, hprogress])
  | group m ops => exact hkeep rfl
  | hand => exact hkeep rfl
  | take more => exact hkeep rfl
  | begins => exact hkeep rfl
  | chunk chunk => exact hkeep rfl
  | stream last stream now => exact hkeep rfl
  | crash => exact absurd rfl he

theorem mem_stop_wrote {a : Asking} {e : Request × Option ℕ} {n : ℕ} (h : e ∈ a.stop.wrote)
    (hn : e.2 = some n) : n ≤ a.node.disk.kept ∧ (e.1, some n) ∈ a.wrote := by
  obtain ⟨before, hbefore, rfl⟩ := List.mem_map.mp h
  obtain ⟨hat, hle⟩ := Option.filter_eq_some_iff.mp hn
  exact ⟨by simpa using hle, by rw [← hat]; exact hbefore⟩

/-- A stop takes back what was not synced, and leaves the rest as it was. -/
theorem Sound.stop {s : Statement} {a : Asking} (h : a.Sound s) : a.stop.Sound s := by
  constructor
  · have hfirst : a.stop.wrote.map Prod.fst = a.wrote.map Prod.fst := by
      simp [Asking.stop, Function.comp_def]
    rw [hfirst]
    exact h.requests
  · intro e he n hn
    obtain ⟨hle, hmem⟩ := mem_stop_wrote he hn
    refine ⟨by simpa [Asking.stop, Node.crash] using hle, ?_⟩
    have hafter : a.stop.node.disk.after n = a.node.disk.after n := Synced.after_crash _ hle
    rw [hafter]
    exact (h.left _ hmem n rfl).2
  · exact Node.crash_ordered
  · exact h.written.crash
  · exact h.more
  · intro hne hnf
    refine h.asked ?_ ?_
    · intro hp; simp [Asking.stop, cut, hp] at hne
    · intro hp; simp [Asking.stop, cut, hp] at hnf
  · rintro ⟨e, he, hnone⟩
    cases hprogress : a.progress with
    | waiting position kept claims => cases kept <;> simp [Asking.stop, cut, hprogress]
    | asking => simp [Asking.stop, cut, hprogress]
    | again => simp [Asking.stop, cut, hprogress]
    | failed => simp [Asking.stop, cut, hprogress]
    | answered claims =>
        -- All of what was answered is synced, and a stop takes none of it back.
        obtain ⟨before, hbefore, rfl⟩ := List.mem_map.mp he
        obtain ⟨n, hn, hle, -⟩ := (h.kept hprogress).2 before hbefore
        exact absurd hle (by simpa [hn] using hnone)
  · intro position kept claims hp
    cases hprogress : a.progress with
    | waiting position' kept' claims' => cases kept' <;> simp [Asking.stop, cut, hprogress] at hp
    | asking => simp [Asking.stop, cut, hprogress] at hp
    | again => simp [Asking.stop, cut, hprogress] at hp
    | answered claims' => simp [Asking.stop, cut, hprogress] at hp
    | failed => simp [Asking.stop, cut, hprogress] at hp
  · rintro - ⟨e, he, n, hn, hlate⟩
    obtain ⟨hle, -⟩ := mem_stop_wrote he hn
    simp only [Asking.stop, Node.crash, Synced.kept_crash] at hlate
    omega

theorem Sound.after {s : Statement} {a : Asking} (h : a.Sound s) {happening : Happening}
    (hmade : happening.Made) (hmeets : a.Meets digest happening) :
    (a.after digest happening).Sound s := by
  cases happening with
  | node e =>
      change (a.atNode digest e).Sound s
      unfold atNode
      split
      · exact h
      · exact h
      · next he => exact h.nodeAfter he hmade
  | stop =>
      simp only [Asking.after]
      split
      · exact h.stop
      · exact h
  | start standing =>
      simp only [Asking.after]
      split
      · exact h
      · exact h.of_same ⟨rfl, rfl, rfl, rfl⟩
  | pool idle =>
      simp only [Asking.after]
      split
      · exact h.of_same ⟨rfl, rfl, rfl, rfl⟩
      · exact h
  | ask now m pre post => exact h.ask hmade hmeets

/-- A failed statement asks nothing more. -/
theorem failed_after {a : Asking} (h : a.progress = .failed) (happening : Happening) :
    (a.after digest happening).progress = .failed := by
  cases happening with
  | node e =>
      change (a.atNode digest e).progress = .failed
      unfold atNode
      split
      · exact h
      · exact h
      · simp only [Asking.nodeAfter, told]
        split
        · rw [h]
        · exact h
  | stop =>
      simp only [Asking.after]
      split
      · simp [Asking.stop, cut, h]
      · exact h
  | start standing =>
      simp only [Asking.after]
      split <;> exact h
  | pool idle =>
      simp only [Asking.after]
      split <;> exact h
  | ask now m pre post =>
      change (a.ask digest now m pre post).progress = .failed
      unfold Asking.ask
      simp [h]

/-- A request that writes fails exactly where it reaches no Storage node. -/
theorem Sound.ask_failed_iff {s : Statement} {a : Asking} (h : a.Sound s)
    (hp : a.progress = .asking) {request next : Request} {rest : List Request}
    (hrest : a.rest = request :: next :: rest) (now : ℤ) (m : Moment) (pre post : List Op) :
    (a.ask digest now m pre post).progress = .failed ↔ ¬a.Reaches := by
  have hasks : a.Asks := ⟨.inl hp, fun asked hasked => by simp [hrest] at hasked⟩
  refine ⟨fun hfailed hreaches => ?_, fun hnot => h.ask_of_not_reaches hasks hnot now m pre post⟩
  obtain ⟨standing, hs, hprimary, hway⟩ := hreaches
  have hsome : a.askNode.isSome = true :=
    askNode_isSome.mpr ⟨standing, hs, hprimary, hway.imp_left And.right⟩
  obtain ⟨⟨kept, b⟩, hreach⟩ := Option.isSome_iff_exists.mp hsome
  have hprogress : b.progress = .asking := (askNode_same hreach).progress.trans hp
  unfold Asking.ask at hfailed
  cases request with
  | chunk chunk => simp [hp, hrest, hreach, Asking.writes, give, hprogress] at hfailed
  | stream last stream => simp [hp, hrest, hreach, Asking.writes, give, hprogress] at hfailed
  | publish asked => cases h.publish_last hrest

theorem Sound.fares {s : Statement} {a : Asking} (h : a.Sound s) {happening : Happening}
    (hmade : happening.Made) (hmeets : a.Meets digest happening) :
    a.Fares digest s happening := by
  refine ⟨fun claims hp => (h.after hmade hmeets).kept hp, ?_, fun hp => failed_after hp _, ?_⟩
  · rintro now m pre post rfl hlost hasks
    exact h.ask_of_not_reaches hasks (hmeets.1 hlost hasks) now m pre post
  · rintro now m pre post request next rest rfl hp hrest
    exact h.ask_failed_iff hp hrest now m pre post

end Asking

/-- In every run of a statement, whatever its Storage node and the other requests do in between:
an answered Publication says that all of it is kept, and otherwise it fails, where no request of a
statement of which something was lost reaches a Storage node, and no Publication of one that waits
for a sync repeats one written before. -/
theorem statement_kept (s : Statement) {store : Store} (hstore : store.Proper) (next : ℕ)
    {events : List Event} (hevents : ∀ e ∈ events, e.Made) (standing : NodeStanding)
    (idle : List ℕ) (starts epoch : ℕ) {hs : List Happening} (hmade : ∀ h ∈ hs, h.Made)
    (hmeets : EachStep (Asking.after digest) (Asking.Meets digest)
      (Asking.begun s ((Node.opened store next).run digest events) standing idle starts epoch)
      hs) :
    EachStep (Asking.after digest) (Asking.Fares digest s)
      (Asking.begun s ((Node.opened store next).run digest events) standing idle starts epoch)
      hs := by
  have hordered : ((Node.opened store next).run digest events).Ordered :=
    Node.run_ordered (Node.opened_ordered store next) events
  have hwritten : ((Node.opened store next).run digest events).Written :=
    Node.run_written (Node.opened_written hstore next) (Node.opened_ordered store next) hevents
  have hbegun := Asking.begun_sound s hordered hwritten standing idle starts epoch
  revert hmeets hbegun
  generalize Asking.begun s ((Node.opened store next).run digest events) standing idle starts
    epoch = a
  intro hmeets hbegun
  induction hs generalizing a with
  | nil => trivial
  | cons h hs ih =>
      have hh : h.Made := hmade h (by simp)
      exact ⟨hbegun.fares hh hmeets.head, ih (fun other hother => hmade other (by simp [hother]))
        _ hmeets.tail (hbegun.after hh hmeets.head)⟩

/-- A Stream of two chunks, published. -/
def twoChunks : Statement where
  chunks := [⟨1, 1, [1]⟩]
  last := ⟨1, 2, [2]⟩
  stream := ⟨1, 2, 2, [], 0⟩
  publication := onePublished

/-- It is asked over a kept connection, and its Storage node started again after the first
chunk, or not. -/
def askedThrough (restart : List Happening) : List Happening :=
  let ask : Happening := .ask 0 ⟨0, 3, .asWritten, none⟩ [] []
  ask :: restart ++ [ask, ask, .node .hand, .node (.take 0), .node .begins, .node (.ends true)]

def atFresh : Asking := Asking.begun twoChunks (.opened .empty 0) ⟨true, 3⟩ [0] 0 3

/-- Asked of a Storage node that runs on, and of one that is a standby once it is started again. -/
theorem statement_kept_unbroken :
    EachStep (Asking.after audited) (Asking.Fares audited twoChunks) atFresh
        (askedThrough []) ∧
      EachStep (Asking.after audited) (Asking.Fares audited twoChunks) atFresh
        (askedThrough [.stop, .start ⟨false, 3⟩]) := by
  have hevents : ∀ e ∈ ([] : List Event), e.Made := by simp
  have hmade : ∀ h ∈ askedThrough [.stop, .start ⟨false, 3⟩], h.Made := by
    simp [askedThrough, Happening.Made, Event.Made]
  have hunbroken : EachStep (Asking.after audited) (Asking.Meets audited) atFresh
      (askedThrough []) := by
    refine ⟨⟨fun hlost => ?_, fun _ _ _ hrest => ?_⟩, ⟨fun hlost => ?_, fun _ _ _ hrest => ?_⟩,
      ⟨fun hlost => ?_, fun _ _ asked hrest hrepeats => ?_⟩, trivial, trivial, trivial, trivial,
      trivial⟩
    · exact absurd hlost (by decide)
    · cases hrest
    · exact absurd hlost (by decide)
    · cases hrest
    · exact absurd hlost (by decide)
    · cases hrest
      cases hrepeats.2
  have hbroken : EachStep (Asking.after audited) (Asking.Meets audited) atFresh
      (askedThrough [.stop, .start ⟨false, 3⟩]) := by
    refine ⟨⟨fun hlost => ?_, fun _ _ _ hrest => ?_⟩, trivial, trivial,
      ⟨fun _ _ hreaches => ?_, fun _ _ _ hrest => ?_⟩,
      ⟨fun _ hasks => ?_, fun _ hasks => ?_⟩, trivial, trivial, trivial, trivial, trivial⟩
    · exact absurd hlost (by decide)
    · cases hrest
    · obtain ⟨standing, hstanding, hprimary, -⟩ := hreaches
      cases hstanding
      cases hprimary
    · cases hrest
    · rcases hasks.1 with hp | hp <;> cases hp
    · rcases hasks.1 with hp | hp <;> cases hp
  exact ⟨statement_kept twoChunks Store.empty_proper 0 hevents ⟨true, 3⟩ [0] 0 3
      (fun h hh => hmade h (by simp [askedThrough] at hh ⊢; tauto)) hunbroken,
    statement_kept twoChunks Store.empty_proper 0 hevents ⟨true, 3⟩ [0] 0 3 hmade hbroken⟩

/-- Started again after the first chunk, the Storage node lost it, and the Publication is
answered over a fresh connection all the same. -/
theorem statement_lost :
    let a := atFresh.run audited (askedThrough [.stop, .start ⟨true, 3⟩])
    a.progress = .answered [⟨2, "first", 7, 10, 12884901889⟩] ∧ ¬a.Kept twoChunks ∧
      a.node.disk.now.records (.chunk, .pair 1 1) = none := by
  intro a
  refine ⟨by decide, ?_, by decide⟩
  intro h
  have hfirst : a.wrote[0]? = some (.chunk ⟨1, 1, [1]⟩, none) := by decide
  obtain ⟨n, hn, -⟩ := h.2 _ (List.mem_of_getElem? hfirst)
  cases hn

end XmipPersist
