import XmipPersist.Verification.Queue.Standing

/-! # A dead Message is replayed once

Its entry is kept by the first Publication that carries it, and the first Replay after that writes
what it asks and takes the entry out. Every other Publication and Replay of it leaves all as it was.
-/

namespace XmipPersist

variable {digest : Publication → Bytes}

/-! ## Over a run -/

/-- The same request is never written under another one's marker: two Publications of one Message
that are known by the same bytes are one. -/
def ToldApart (digest : Publication → Bytes) (heard : List Ruling) : Prop :=
  ∀ r ∈ heard, ∀ s ∈ heard, ∀ asked other, r.op = .publish asked → s.op = .publish other →
    asked.message.message = other.message.message → digest asked = digest other → asked = other

section Markers

variable {x y : Except PersistError (Option Content)} {rs : List Ruling} {message : ℕ}

theorem Ruling.Holds.marker_cases {r : Ruling} (h : r.Holds digest) (message : ℕ) :
    r.stage.read (markerPlace message) = r.before.read (markerPlace message) ∨
      ∃ asked, r.op = .publish asked ∧ asked.message.message = message ∧
        r.stage.read (markerPlace message) = .ok (some (.digest (digest asked))) := by
  by_cases hpublish : ∃ asked, r.op = .publish asked
  · obtain ⟨asked, hop⟩ := hpublish
    by_cases hmessage : asked.message.message = message
    · subst hmessage
      exact .inr ⟨asked, hop, rfl, (h.publish hop).1⟩
    · left
      obtain ⟨m, op, done, b, stage⟩ := r
      subst hop
      obtain ⟨decided, b', hdecide, hrest⟩ := Decision.bind_ok_iff.mp h.ran
      have hsame := Publication.decide_others hdecide hmessage
      cases decided with
      | before held =>
          cases hrest
          exact hsame
      | now held =>
          obtain ⟨_, b'', haudit, hrest⟩ := Decision.bind_ok_iff.mp hrest
          cases hrest
          have hkept := (audit_writes asked.audit b' () stage haudit).marker (by decide) message
          exact hkept.trans hsame
  · have hkinds := Op.kinds_unmarked h.made fun asked hop => hpublish ⟨asked, hop⟩
    exact .inl (h.adds.marker hkinds message)

theorem Follows.marked (h : Follows (markerPlace message) (.ok none) rs y)
    (hrs : ∀ r ∈ rs, r.Holds digest) :
    y = .ok none ∨ ∃ r ∈ rs, ∃ asked, r.op = .publish asked ∧ asked.message.message = message ∧
      y = .ok (some (.digest (digest asked))) := by
  refine h.keeps (I := fun y => y = .ok none ∨ ∃ r ∈ rs, ∃ asked, r.op = .publish asked ∧
    asked.message.message = message ∧ y = .ok (some (.digest (digest asked)))) (.inl rfl) ?_
  intro r hr hbefore
  rcases (hrs r hr).marker_cases message with hsame | ⟨asked, hop, hmessage, hmarker⟩
  · rw [hsame]
    exact hbefore
  · exact .inr ⟨r, hr, asked, hop, hmessage, hmarker⟩

end Markers

/-- How a Dead Message Queue stands for a Message once some operations came out: the first
Publication that carries its entry keeps it, and the first Replay after that takes it out. -/
def Dead.since (q id : ℕ) (rs : List Ruling) : Once (ℕ × Content) :=
  Once.since (Ruling.keeps q id) (Ruling.replays q id) rs

theorem Dead.since_first {q id : ℕ} {before later : List Ruling} {r : Ruling} {dead : DeadMessage}
    (hbefore : ∀ s ∈ before, s.op.carries q id = none) (hr : r.op.carries q id = some dead) :
    Dead.since q id (before ++ r :: later) =
      if ∃ s ∈ later, s.replays q id then .taken
      else .entered (r.before.view.placing q dead) := by
  have hkeeps : r.keeps q id = some (r.before.view.placing q dead) := by rw [Ruling.keeps, hr]; rfl
  refine Once.since_first (fun s hs => ?_) hkeeps
  rw [Ruling.keeps, hbefore s hs]
  rfl

/-- How many Replays of a Message answered that it was replayed now. -/
def Dead.nows (q id : ℕ) (rs : List Ruling) : ℕ :=
  rs.countP fun r => r.replays q id ∧ r.done = .replayed .now

section Rulings

variable {r : Ruling} {q id : ℕ}

theorem Ruling.keeps_of_replays (h : r.replays q id) : r.keeps q id = none := by
  obtain ⟨m, op, done, b, stage⟩ := r
  cases op with
  | replay asked => rfl
  | _ => exact h.elim

theorem Ruling.Holds.standing (h : r.Holds digest) (hb : r.before.staged.InOrder)
    (hagain : r.op.Again r.before.staged q id) :
    r.stage.view.standing q id =
      (r.before.view.standing q id).after (Ruling.keeps q id) (Ruling.replays q id) r := by
  have hstands : r.stage.view.standing q id = _ := Op.decide_standing h.made hb hagain h.ran
  rw [Batch.view_staged] at hstands
  by_cases hreplays : r.replays q id
  · have hop : r.op.replays q id := hreplays
    rw [hstands, if_pos hop, Once.after_of_takes _ _ hreplays (keeps_of_replays hreplays)]
  · have hop : ¬r.op.replays q id := hreplays
    rw [hstands, if_neg hop, Once.after_of_enters _ _ hreplays]
    rfl

theorem Ruling.Holds.replayed (h : r.Holds digest) (hb : r.before.staged.InOrder)
    (hreplays : r.replays q id) : r.done = .replayed (.of (r.before.view.standing q id)) := by
  obtain ⟨m, op, done, b, stage⟩ := r
  cases op with
  | replay asked =>
      obtain ⟨rfl, rfl⟩ := hreplays
      obtain ⟨b', hrun, -⟩ := asked.asked_run digest hb m
      have hran := h.ran
      simp only at hran hrun
      rw [hrun, Batch.view_staged] at hran
      cases hran
      rfl
  | _ => exact hreplays.elim

end Rulings

theorem Op.again_of_heard {before after : List Ruling} {r : Ruling} {q id : ℕ}
    (hold : ∀ s ∈ before ++ r :: after, s.Holds digest)
    (hdigest : ToldApart digest (before ++ r :: after))
    (hfollows : ∀ message, Follows (markerPlace message) (.ok none) before
      (r.before.read (markerPlace message)))
    (hstands : r.before.view.standing q id = Dead.since q id before) :
    r.op.Again r.before.staged q id := by
  have hr := hold r (by simp)
  obtain ⟨m, op, done, b, stage⟩ := r
  cases op with
  | publish asked =>
      intro hmarker hcarries hnever
      have hread := (hfollows asked.message.message).marked fun s hs => hold s (by simp [hs])
      rcases hread with hnone | ⟨s, hs, other, hop, hmessage, hfound⟩
      · exact hmarker hnone
      · obtain ⟨decided, b', hdecide, -⟩ := Decision.bind_ok_iff.mp hr.ran
        have hsame : digest other = digest asked := by
          rcases Publication.decide_ok hdecide with ⟨hown, -⟩ | ⟨hnone, -⟩
          · have hfound' := Option.some.inj (Except.ok.inj (hfound.symm.trans hown))
            exact Content.digest.inj hfound'
          · exact absurd hnone hmarker
        have hother : other = asked := hdigest s (by simp [hs])
          ⟨m, .publish asked, done, b, stage⟩ (by simp) other asked hop rfl hmessage hsame
        rw [Batch.view_staged, hstands] at hnever
        have hkeeps := Once.since_eq_never.mp hnever s hs
        rw [Ruling.keeps, hop, hother, Option.map_eq_none_iff] at hkeeps
        exact hcarries hkeeps
  | _ => trivial

namespace Writer

variable {steps : List Step} {m : Moment} {pre : List Op}

/-- How every queue stands of a Message, and how often it was replayed, as the operations that
came out say. -/
def Replays (rs : List Ruling) (v : View) : Prop :=
  v.Queued ∧ ∀ q id, v.standing q id = Dead.since q id rs ∧
    Dead.nows q id rs = (Dead.since q id rs).times

theorem heard_replays (hmade : ∀ s ∈ steps, s.Made) (hpre : ∀ op ∈ pre, op.Made)
    (hdigest : ToldApart digest (fresh.heard digest steps m pre)) :
    Replays (fresh.ruled digest steps) (fresh.run digest steps).store.view ∧
      Replays (fresh.heard digest steps m pre)
        ((fresh.run digest steps).deciding digest m pre).view := by
  have hproper : fresh.store.Proper := Store.empty_proper
  have hempty : Replays [] fresh.store.view := by
    have hqueued : fresh.store.view.Queued := (Store.empty_sound ∅).queued
    refine ⟨hqueued, fun q id => ⟨?_, rfl⟩⟩
    exact Numbered.standing_never.mpr rfl
  refine heard_keeps hmade hpre hproper hempty fun before r after hsplit hr hbefore hinv => ?_
  obtain ⟨hqueued, hstands⟩ := hinv
  have horder : r.before.staged.InOrder := ⟨hbefore, by rw [Batch.view_staged]; exact hqueued⟩
  refine ⟨(Op.decide_ordering hr.made r.moment _ _ _ hr.ran horder).inOrder.queued,
    fun q id => ?_⟩
  have hhold : ∀ s ∈ fresh.heard digest steps m pre, s.Holds digest := heard_hold hmade hpre
  have hfollows : ∀ message, Follows (markerPlace message) (.ok none) before
      (r.before.read (markerPlace message)) := fun message => by
    have hruled : (markerPlace message).1.ruled := by
      simp [markerPlace, Kind.ruled, Kind.plain, Searched.of]
    have hall : Follows (markerPlace message) (.ok none) (fresh.heard digest steps m pre) _ :=
      heard_follows hmade hpre hproper hruled
    rw [hsplit] at hall
    exact hall.split.1
  rw [hsplit] at hhold hdigest
  have hagain := Op.again_of_heard hhold hdigest hfollows (hstands q id).1
  have hstanding : r.stage.view.standing q id = Dead.since q id (before ++ [r]) := by
    rw [hr.standing horder hagain, (hstands q id).1, Dead.since, Dead.since, Once.since_snoc]
  refine ⟨hstanding, ?_⟩
  have hsnoc : Dead.since q id (before ++ [r]) =
      (Dead.since q id before).after (Ruling.keeps q id) (Ruling.replays q id) r :=
    Once.since_snoc _ _ _ _
  rw [hsnoc, Dead.nows, List.countP_append, List.countP_singleton]
  have hnows : before.countP (fun r => r.replays q id ∧ r.done = .replayed .now) =
      (Dead.since q id before).times := (hstands q id).2
  rw [hnows]
  by_cases hreplays : r.replays q id
  · have hdone := hr.replayed horder hreplays
    rw [(hstands q id).1] at hdone
    rw [Once.after_of_takes _ _ hreplays (Ruling.keeps_of_replays hreplays), hdone]
    cases Dead.since q id before <;> simp [hreplays, Replayed.of, Once.take, Once.times]
  · rw [Once.after_of_enters _ _ hreplays]
    simp [hreplays]

end Writer

/-! ## As it is read -/

def DeadEntry.of : Once (ℕ × Content) → DeadEntry
  | .entered (_, .dead entry) => .kept entry
  | .taken => .replayed
  | _ => .never

section Read

variable {s : Store} {q id : ℕ}

theorem Store.dead_view (s : Store) (q n : ℕ) (hs : s.Proper) :
    (s.view.queue .dead q).entry n = s.records (.dead, .pair q n) ∧
      ∀ content, s.records (.dead, .pair q n) = some content → ∃ entry, content = .dead entry := by
  have hentry : ∀ content, s.records (.dead, .pair q n) = some content →
      ∃ entry, content = .dead entry := fun content hcontent => by
    have hholds := hs _ _ hcontent
    cases content <;> first | exact hholds.elim | exact ⟨_, rfl⟩
  refine ⟨?_, hentry⟩
  change (s.records (.dead, .pair q n)).map Content.bare = s.records (.dead, .pair q n)
  cases hfound : s.records (.dead, .pair q n) with
  | none => rfl
  | some content =>
      obtain ⟨entry, rfl⟩ := hentry content hfound
      rfl

theorem Store.dead_place (hs : s.Proper) (hqueued : s.view.Queued) (n : ℕ) (content : Content) :
    s.records (.dead, .pair q n) = some content ∧ content.about = id ↔
      s.view.standing q id = .entered (n, content) := by
  rw [View.standing, Numbered.standing_entered, (hqueued .dead q).find_eq_some,
    (s.dead_view q n hs).1]

theorem Dead.readOne_ok (hs : s.Proper) (hqueued : s.view.Queued) :
    (Dead.readOne q id).on s = .ok (.of (s.view.standing q id)) := by
  have hplace : (reads fun s => s.get (.deadMessage, .pair q id)).run (fun _ => s) =
      .ok (s.records (.deadMessage, .pair q id), fun _ => s) := by
    change (s.get (.deadMessage, .pair q id)).map _ = _
    rw [hs.get]
    rfl
  have hindex : (s.view.queue .dead q).index id =
      Content.placing (s.records (.deadMessage, .pair q id)) := by
    change Content.placing ((s.records (.deadMessage, .pair q id)).map Content.bare) = _
    cases s.records (.deadMessage, .pair q id) with
    | none => rfl
    | some content => cases content <;> rfl
  have htaken : (s.view.queue .dead q).index id = some none →
      s.view.standing q id = .taken := fun hnone => by
    have hfind := Numbered.find_of_index (q := s.view.queue .dead q) (b := id) (by simp [hnone])
    rw [View.standing, Numbered.standing, hfind, hnone]
    simp
  rw [Reads.on, Dead.readOne, Decision.run_bind_ok hplace]
  cases hfound : s.records (.deadMessage, .pair q id) with
  | none =>
      have hnever : s.view.standing q id = .never :=
        Numbered.standing_never.mpr (by rw [hindex, hfound]; rfl)
      rw [hnever]
      rfl
  | some content =>
      have hholds := hs _ _ hfound
      cases content with
      | number n =>
          have hat : (s.view.queue .dead q).index id = some (some n) := by
            rw [hindex, hfound]
            rfl
          obtain ⟨content, hentry, habout⟩ := ((hqueued .dead q).index id n).mp hat
          rw [(s.dead_view q n hs).1] at hentry
          obtain ⟨entry, rfl⟩ := (s.dead_view q n hs).2 content hentry
          rw [(Store.dead_place hs hqueued n (.dead entry)).mp ⟨hentry, habout⟩]
          have hread : (reads fun s => s.get (.dead, .pair q n) >>= decoded (α := Dead)).run
              (fun _ => s) = .ok (some entry, fun _ => s) := by
            change (s.get (.dead, .pair q n) >>= decoded (α := Dead)).map _ = _
            rw [hs.get, hentry]
            rfl
          simp only [Decision.run_bind_ok hread]
          rfl
      | nothing =>
          rw [htaken (by rw [hindex, hfound]; rfl)]
          rfl
      | _ => exact hholds.elim

end Read

/-! ## Replayed once -/

/-- What holds of a Replay asked after a run, of the operations `heard` that came out before it:
its Message's entry is read as they left it, at one place in its queue, as many Replays answered
Now as took it out, and this one writes where the entry is kept, and nothing where it is not. -/
structure ReplayedOnce (digest : Publication → Bytes) (w : Writer) (steps : List Step) (m : Moment)
    (pre : List Op) (asked : Replay) (post : List Op) : Prop where
  kept : (Dead.readOne asked.queue asked.message).on (w.run digest steps).store =
    .ok (.of (Dead.since asked.queue asked.message (w.ruled digest steps)))
  place : ∀ n content,
    (w.run digest steps).store.records (.dead, .pair asked.queue n) = some content ∧
        content.about = asked.message ↔
      Dead.since asked.queue asked.message (w.ruled digest steps) = .entered (n, content)
  nows : Dead.nows asked.queue asked.message (w.heard digest steps m pre) =
    (Dead.since asked.queue asked.message (w.heard digest steps m pre)).times
  answered :
    match Dead.since asked.queue asked.message (w.heard digest steps m pre) with
    | .never =>
        Inert digest (w.run digest steps) m pre (.replay asked) (.ok (.replayed .absent)) post
    | .taken =>
        Inert digest (w.run digest steps) m pre (.replay asked) (.ok (.replayed .before)) post
    | .entered _ => ∃ stage, asked.Written ((w.run digest steps).deciding digest m pre) stage ∧
        Among digest (w.run digest steps) m pre (.replay asked) (.replayed .now) stage post

/-- Over every run, a dead Message's entry is kept by the first Publication that carries it and
replayed by the first Replay after that: one answers Now and writes, every other one answers
Absent or Before and writes nothing, and no Publication keeps the entry again. -/
theorem replayed_once {steps : List Step} (hmade : ∀ s ∈ steps, s.Made) {m : Moment}
    {pre : List Op} (hpre : ∀ op ∈ pre, op.Made)
    (hdigest : ToldApart digest (Writer.fresh.heard digest steps m pre)) (asked : Replay)
    (post : List Op) : ReplayedOnce digest Writer.fresh steps m pre asked post := by
  have hproper : Writer.fresh.store.Proper := Store.empty_proper
  obtain ⟨⟨hqueued, hran⟩, hqueued', hheard⟩ := Writer.heard_replays hmade hpre hdigest
  have hran := (hran asked.queue asked.message).1
  obtain ⟨hstands, hnows⟩ := hheard asked.queue asked.message
  have hrun : (Writer.fresh.run digest steps).store.Proper := Writer.run_proper hmade hproper
  have hdeciding : ((Writer.fresh.run digest steps).deciding digest m pre).staged.InOrder :=
    ⟨Writer.deciding_proper hmade hpre hproper, by rw [Batch.view_staged]; exact hqueued'⟩
  refine ⟨?_, fun n content => ?_, hnows, ?_⟩
  · rw [← hran]
    exact Dead.readOne_ok hrun hqueued
  · rw [← hran]
    exact Store.dead_place hrun hqueued n content
  · obtain ⟨stage, hasked, hwritten, hsame⟩ := asked.asked_run digest hdeciding m
    rw [Batch.view_staged, hstands] at hasked hwritten hsame
    cases hsince : Dead.since asked.queue asked.message
        (Writer.fresh.heard digest steps m pre) with
    | never =>
        rw [hsince] at hasked hsame
        rw [hsame (by simp)] at hasked
        have hstill : Still digest m _ (.replay asked) (.ok (.replayed .absent)) := hasked
        exact inert_of_still post hstill
    | taken =>
        rw [hsince] at hasked hsame
        rw [hsame (by simp)] at hasked
        have hstill : Still digest m _ (.replay asked) (.ok (.replayed .before)) := hasked
        exact inert_of_still post hstill
    | entered at' =>
        rw [hsince] at hasked hwritten
        have hwrote := hwritten ⟨at', rfl⟩
        exact ⟨stage, ⟨hwrote.journeys, hwrote.held, hwrote.audit, hwrote.next⟩,
          among_of_decided post hasked⟩

def deadPublished : Publication where
  message := { message := 1 }
  dead := some { queue := 5, message := 1 }
  audit := { id := 9 }

def onlyDead : Op → Bool
  | .publish asked => decide (asked = deadPublished)
  | _ => true

/-- Published, replayed and published again with the same entry, a Message's Replay asked again
answers that it was replayed before. -/
theorem replayed_once_again :
    ReplayedOnce (fun _ => []) Writer.fresh deadThenReplayed ⟨2, 3, .asWritten, none⟩
      [.publish deadPublished] { queue := 5, message := 1, audit := { id := 10 } } [] := by
  refine replayed_once (by simp [deadThenReplayed, Step.Made, Op.Made]) (by simp [Op.Made]) ?_ _ _
  have hone : ∀ r ∈ Writer.fresh.heard (fun _ => []) deadThenReplayed ⟨2, 3, .asWritten, none⟩
      [.publish deadPublished], ∀ asked, r.op = .publish asked → asked = deadPublished := by
    have hall : (Writer.fresh.heard (fun _ => []) deadThenReplayed ⟨2, 3, .asWritten, none⟩
        [.publish deadPublished]).all (fun r => onlyDead r.op) = true := by decide +kernel
    intro r hr asked hop
    have hr' := List.all_eq_true.mp hall r hr
    simpa [onlyDead, hop] using hr'
  intro r hr s hs asked other hop hop' _ _
  rw [hone r hr asked hop, hone s hs other hop']

end XmipPersist
