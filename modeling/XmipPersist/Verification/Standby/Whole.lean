import XmipPersist.Library.Steps
import XmipPersist.Verification.Standby.Copied

/-! # Whole copies over runs of a primary and its standby

In every run of one primary and one standby, whatever the primary writes meanwhile and wherever
the connection is cut, a whole copy that was taken is caught up once the writes made before its
scans ended are. Until then it is no state the primary's databases held, though the mark that
keeps it from being promoted is gone.
-/

namespace XmipPersist.Standby

open StorageNode Replay

variable {κ ν : Type} [LinearOrder κ] {bounds : Bounds κ ν} {start primary : StorageNode κ ν}
  {log : Database → List (Write κ ν)} {r : Receiver κ ν} {shipping shipping' : Shipping κ}
  {course : Course κ ν}

/-! ## What the primary ships -/

variable (bounds) in
/-- What a step of the shipping sends keeps what the frames before it left. -/
theorem ships_arrives (hlogged : Logged start primary log) (hlogs : course.Logs start log)
    (hbefore : course.before (primary.copies.next 0) (primary.copies.next 2))
    (hs : Sound course start log r.standby r.copy) (hsend : Sending course start log r shipping)
    {idle : Bool} {sent : List (Shipped κ ν)}
    (h : primary.ships bounds shipping idle = .ok (shipping', sent)) :
    Arrives (Receiver.take bounds) (course.Allows start log)
      (fun r => Sound course start log r.standby r.copy)
      (fun r => Sound course start log r.standby r.copy ∧ Sending course start log r shipping') r
      (sent.map fun frame => ⟨frame, primary.copies.next⟩) := by
  obtain ⟨epoch, phase, next⟩ := shipping
  cases phase with
  | begins d =>
      obtain ⟨rfl, rfl⟩ := Prod.mk.inj (Except.ok.inj h)
      exact ⟨hs, hsend.1.begins hsend.2 hlogged epoch⟩
  | scans d passed =>
      have hscanning : Scanning course start log r next d passed := hsend
      have hcopying := hscanning.copying
      have hle := hscanning.start_le
      have hge := hscanning.next_le
      have hlen := hlogged.next d
      rw [hlogged.next 2] at hbefore
      simp only [ships, hlogged.entries d] at h
      split at h
      · next hnone =>
          obtain ⟨rfl, rfl⟩ := Prod.mk.inj (Except.ok.inj h)
          have hpage := OrderedMap.page_of_lastOf_none hnone
          have hcaught := hscanning.scanned.caughtUp (by omega) (by decide) hpage
          have hcopied : CopiedTo course.quiet start log d (next d) (primary.copies.next d)
              (r.standby.engines d).entries := by
            refine ⟨hle, hge, by omega, ?_, fun hq => by rw [hscanning.still hq, hlen]⟩
            rwa [show primary.copies.next d - start.copies.next d = (log d).length by omega]
          have hat : next d ≤ primary.copies.next d := by omega
          match d with
          | 0 =>
              obtain ⟨r', htake, hcopying', hempty⟩ := hcopying.ends bounds
                (show ∀ e, e < (1 : Database) ↔ e ≤ 0 by decide) hcopied hat hbefore
              have hmark : Sound course start log r'.standby r'.copy := by
                rw [hcopying'.copy]
                exact hcopying'.marked
              exact Arrives.one htake hmark ⟨hmark, hcopying', hempty⟩
          | 1 =>
              obtain ⟨r', htake, hcopying', hempty⟩ := hcopying.ends bounds
                (show ∀ e, e < (2 : Database) ↔ e ≤ 1 by decide) hcopied hat hbefore
              have hmark : Sound course start log r'.standby r'.copy := by
                rw [hcopying'.copy]
                exact hcopying'.marked
              exact Arrives.one htake hmark ⟨hmark, hcopying', hempty⟩
          | 2 =>
              obtain ⟨r', htake, hsound, hlevel⟩ :=
                hcopying.whole_taken bounds hcopied (hscanning.before rfl)
              exact Arrives.one htake hsound ⟨hsound, hlevel⟩
      · next l hlast =>
          obtain ⟨rfl, rfl⟩ := Prod.mk.inj (Except.ok.inj h)
          obtain ⟨r', htake, hcopying', hended, hentries⟩ := hcopying.page bounds
            ((effect (start.engines d).entries (log d) (log d).length).page passed pageMost)
            primary.copies.next
          have hmark : Sound course start log r'.standby r'.copy := by
            rw [hcopying'.copy]
            exact hcopying'.marked
          refine Arrives.one htake hmark ⟨hmark, hcopying', hle, hge, hscanning.still, ?_, ?_⟩
          · rw [hended]
            exact hscanning.before
          · rw [hentries]
            exact hscanning.scanned.page (by omega) hlast
  | turns =>
      simp only [ships] at h
      split at h
      · cases h
      · obtain ⟨rfl, rfl⟩ := Prod.mk.inj (Except.ok.inj h)
        exact ⟨hs, hsend⟩
  | hands d handed =>
      have hlevel : Level r next := hsend
      simp only [ships] at h
      split at h
      · cases h
      · next copies hsince =>
          obtain ⟨rfl, rfl⟩ := Prod.mk.inj (Except.ok.inj h)
          have ⟨hkept, hnum⟩ := Copies.since_ok hsince
          have hcopies := arrives_copies bounds primary.copies.next hnum
            (fun w hw => hlogged.kept d w (hkept w hw)) hlogs hs
            (show Level r (Function.update next d (next d)) by rwa [Function.update_eq_self])
          rw [List.map_append, List.map_map, next_of_numbered hnum]
          refine hcopies.append fun r' ⟨hs', hlevel'⟩ => ?_
          have hsend' : ∀ r'' : Receiver κ ν,
              Level r'' (Function.update next d (next d + copies.length)) →
              Sending course start log r'' ⟨epoch,
                following d (fun d => .hands d (handed || !copies.isEmpty)) .turns,
                Function.update next d (next d + copies.length)⟩ := by
            intro r'' hl
            match d with
            | 0 => exact hl
            | 1 => exact hl
            | 2 => exact hl
          split
          · have hbeat := heard_same bounds r'.standby r'.standby epoch
            have htake : r'.take bounds ⟨.beat epoch, primary.copies.next⟩ =
                (⟨r'.standby.performAll bounds (r'.standby.heard epoch), r'.whole, r'.ended,
                  r'.copy⟩, true) := rfl
            refine Arrives.one htake (hs'.same hbeat) ⟨hs'.same hbeat, hsend' _ ?_⟩
            refine ⟨hlevel'.1, fun ended hc => ?_⟩
            simp only [hbeat.copies]
            exact hlevel'.2 ended hc
          · exact ⟨hs', hsend' _ hlevel'⟩

variable (bounds) in
/-- A whole copy begun: marked, and every database empty. -/
theorem take_whole (r : Receiver κ ν) (history epoch k₀ k₁ k₂ : ℕ) (at' : Database → ℕ) :
    ∃ r', r.take bounds ⟨.whole history epoch [k₀, k₁, k₂], at'⟩ = (r', true) ∧
      r'.standby.isCopying = true ∧ (∀ d, (r'.standby.engines d).entries = .empty) ∧
      r'.whole = some ⟨history, fun _ => none⟩ ∧ r'.copy = .begun := by
  have htake : r.take bounds ⟨.whole history epoch [k₀, k₁, k₂], at'⟩ =
      (⟨r.standby.performAll bounds ([.mark, .restart 0 fun _ => 1] ++
        (wiped ![k₀, k₁, k₂] ++ r.standby.heard epoch)), some ⟨history, fun _ => none⟩, r.ended,
        .begun⟩, true) := by
    simp only [Receiver.take, taking, Receiver.endedAfter, Receiver.copyAfter]
  refine ⟨_, htake, ?_, fun d => ?_, rfl, rfl⟩
  · rw [performAll_append, performAll_append, (heard_same bounds _ _ _).copying, wiped_copying]
    exact begun_copying r.standby
  · rw [performAll_append, performAll_append, (heard_same bounds _ _ _).entries, wiped_entries]

variable (bounds) in
/-- What a primary that is asked sends first: nothing, or a whole copy's start. -/
theorem opened_arrives {standby : StorageNode κ ν} {last : WholeCopy}
    (hlogged : Logged start primary log) (hs : Sound course start log standby last) :
    Arrives (Receiver.take bounds) (course.Allows start log)
      (fun r => Sound course start log r.standby r.copy)
      (fun r => Sound course start log r.standby r.copy ∧
        ∀ s, (Connection.opened primary standby.asks).shipping = some s →
          Sending course start log r s)
      ⟨standby, none, fun _ => 0, last⟩ (Connection.opened primary standby.asks).frames := by
  simp only [Connection.opened]
  split
  · next shipping frames hok =>
      simp only [accepts] at hok
      split at hok
      · cases hok
      · split at hok
        · cases hok
        · split at hok
          · obtain ⟨rfl, rfl⟩ := Prod.mk.inj (Except.ok.inj hok)
            refine ⟨hs, fun s hsome => ?_⟩
            obtain rfl := Option.some.inj hsome
            exact ⟨rfl, fun _ _ => rfl⟩
          · split at hok
            · next k₀ k₁ k₂ _ _ _ =>
                obtain ⟨rfl, rfl⟩ := Prod.mk.inj (Except.ok.inj hok)
                obtain ⟨r', htake, hmark, hempty, hwhole, hcopy⟩ := take_whole bounds
                  ⟨standby, none, fun _ => 0, last⟩ primary.copies.history primary.epoch k₀ k₁ k₂
                  primary.copies.next
                have hsound : Sound course start log r'.standby r'.copy := by
                  rw [hcopy]
                  exact hmark
                refine Arrives.one htake hsound ⟨hsound, fun s hsome => ?_⟩
                obtain rfl := Option.some.inj hsome
                refine ⟨⟨hcopy, hmark, ⟨_, hwhole, hlogged.history, fun e => ?_⟩,
                  fun e he => absurd he (Fin.not_lt_zero e), fun h => absurd h (lt_irrefl _),
                  fun e he => absurd he (Fin.not_lt_zero e), fun e _ => hempty e⟩, hempty 0⟩
                simp
            · cases hok
  · exact Arrives.stops rfl

/-- A frame that ends its following leaves what a standby is after its last whole copy. -/
theorem take_stops {sent : Sent κ ν} (hs : Sound course start log r.standby r.copy)
    (h : (r.take bounds sent).2 = false) :
    Sound course start log (r.take bounds sent).1.standby (r.take bounds sent).1.copy := by
  obtain ⟨frame, at'⟩ := sent
  cases frame with
  | beat epoch => simp [Receiver.take, taking] at h
  | entries d page => simp [Receiver.take, taking] at h
  | declined reason => exact hs
  | copy d number changes =>
      by_cases hn : number = r.standby.copies.next d
      · simp [Receiver.take, taking, hn] at h
      · simpa [Receiver.take, taking, hn, Receiver.copyAfter] using hs
  | copied d next =>
      cases hw : r.whole with
      | none => simpa [Receiver.take, taking, hw, Receiver.copyAfter] using hs
      | some whole =>
          by_cases hall : ∀ e, (Function.update whole.next d (some next) e).isSome
          · simp [Receiver.take, taking, hw, hall] at h
          · simp [Receiver.take, taking, hw, hall] at h
  | whole history epoch keys =>
      rcases keys with _ | ⟨k₀, _ | ⟨k₁, _ | ⟨k₂, _ | ⟨k₃, keys⟩⟩⟩⟩
      · exact begun_copying _
      · exact begun_copying _
      · exact begun_copying _
      · simp [Receiver.take, taking] at h
      · exact begun_copying _

/-! ## What every run keeps -/

/-- What is kept in every run: the primary is as its log leaves it, in its course, the standby
sound after its last whole copy, and the frames on their way leave it so. -/
structure Pair.Kept (course : Course κ ν) (start : StorageNode κ ν) (bounds : Bounds κ ν)
    (pair : Pair κ ν) : Prop where
  logged : Logged start pair.primary pair.log
  logs : course.Logs start pair.log
  before : course.before (pair.primary.copies.next 0) (pair.primary.copies.next 2)
  sound : Sound course start pair.log pair.standby pair.copy
  arrives : ∀ c, pair.connection = some c →
    Arrives (Receiver.take bounds) (course.Allows start pair.log)
      (fun r => Sound course start pair.log r.standby r.copy)
      (fun r => Sound course start pair.log r.standby r.copy ∧
        ∀ s, c.shipping = some s → Sending course start pair.log r s)
      (pair.receiver c) c.frames

/-- The database being read for a whole copy. -/
def Connection.scanned (c : Connection κ ν) : Option Database :=
  match c.shipping with
  | some ⟨_, .scans d _, _⟩ => some d
  | _ => none

/-- No write lands in a database while a whole copy of it is read. -/
def Pair.Quiet (pair : Pair κ ν) : PairEvent κ ν → Prop
  | .write d _ => pair.connection.bind Connection.scanned ≠ some d
  | _ => True

instance (pair : Pair κ ν) : DecidablePred pair.Quiet
  | .write d _ => inferInstanceAs (Decidable (pair.connection.bind Connection.scanned ≠ some d))
  | .follow => .isTrue trivial
  | .ship _ => .isTrue trivial
  | .take => .isTrue trivial
  | .cut => .isTrue trivial
  | .restart _ => .isTrue trivial
  | .lost => .isTrue trivial

variable (bounds) in
/-- A step in its course: where it has to be, no write lands in a database that is read, each
write is the one of its number and after those it is after, and a frame is taken that may be. -/
def Course.Follows (course : Course κ ν) (start : StorageNode κ ν) (pair : Pair κ ν) :
    PairEvent κ ν → Prop
  | .write d changes => pair.lost = false → (course.quiet → pair.Quiet (.write d changes)) ∧
      (changes ≠ [] → course.made d (pair.primary.copies.next d) changes) ∧
        course.before ((pair.write bounds d changes).primary.copies.next 0)
          ((pair.write bounds d changes).primary.copies.next 2)
  | .take => ∀ c sent frames, pair.connection = some c → c.frames = sent :: frames →
      course.Allows start pair.log (pair.receiver c) sent
  | _ => True

theorem Course.still_follows {quiet : Prop} {pair : Pair κ ν} {event : PairEvent κ ν}
    (h : quiet → pair.Quiet event) : (Course.still quiet).Follows bounds start pair event := by
  cases event with
  | write d changes => exact fun _ => ⟨h, fun _ => trivial, trivial⟩
  | take => exact fun _ _ _ _ _ _ _ _ _ _ _ _ => trivial
  | _ => trivial

/-- The writes of a log, and one more. -/
theorem Course.Logs.logging (h : course.Logs start log) (hlogged : Logged start primary log)
    {d : Database} {changes : Write κ ν}
    (hmade : changes ≠ [] → course.made d (primary.copies.next d) changes) :
    course.Logs start (logging log d changes) := by
  intro e i write hi
  by_cases hnil : changes = []
  · rw [show Standby.logging log d changes = log by simp [Standby.logging, hnil]] at hi
    exact h e i write hi
  · simp only [Standby.logging, hnil, if_false] at hi
    by_cases he : e = d
    · subst he
      rw [Function.update_self] at hi
      by_cases hlt : i < (log e).length
      · rw [List.getElem?_append_left hlt] at hi
        exact h e i write hi
      · rw [List.getElem?_append_right (by omega), List.getElem?_singleton] at hi
        have hi' : i = (log e).length ∧ changes = write := by
          split at hi
          · exact ⟨by omega, Option.some.inj hi⟩
          · cases hi
        have hnext := hlogged.next e
        rw [hi'.1, ← hnext, ← hi'.2]
        exact hmade hnil
    · rw [Function.update_of_ne he] at hi
      exact h e i write hi

namespace Pair

variable {pair : Pair κ ν}

theorem Kept.begun (primary standby : StorageNode κ ν)
    (hbefore : course.before (primary.copies.next 0) (primary.copies.next 2)) :
    Kept course primary bounds (begun primary standby) where
  logged := .start primary
  logs d i write h := by cases h
  before := hbefore
  sound := trivial
  arrives c hc := by cases hc

theorem Kept.write (h : Kept course start bounds pair) {d : Database} {changes : Write κ ν}
    (hlost : pair.lost = false) (hfollows : course.Follows bounds start pair (.write d changes)) :
    Kept course start bounds (pair.write bounds d changes) where
  logged := h.logged.write d changes
  logs := h.logs.logging h.logged (hfollows hlost).2.1
  before := (hfollows hlost).2.2
  sound := h.sound.logging d changes
  arrives c hc := by
    have hallows : ∀ r sent, course.Allows start (logging pair.log d changes) r sent →
        course.Allows start pair.log r sent := by
      intro r sent hframe ended e write hcopy hsent hle hwrite
      refine hframe ended e write hcopy hsent hle ?_
      exact getElem?_logging hwrite
    refine (h.arrives c hc).mono hallows (fun r hr => hr.logging d changes) fun r hr => ?_
    refine ⟨hr.1.logging d changes, fun s hs => ?_⟩
    refine (hr.2 s hs).logging d changes fun hq passed hphase => (hfollows hlost).1 hq ?_
    obtain ⟨epoch, phase, next⟩ := s
    obtain rfl : phase = .scans d passed := hphase
    have hscanned : c.scanned = some d := by simp only [Connection.scanned, hs]
    have hconnection : pair.connection = some c := hc
    rw [hconnection]
    exact hscanned

theorem Kept.stopped (h : Kept course start bounds pair) :
    Kept course start bounds (pair.stopped bounds) where
  logged := h.logged
  logs := h.logs
  before := h.before
  sound := h.sound.same (takeUp_same bounds _ _ _ _)
  arrives c hc := by cases hc

theorem Kept.follow (h : Kept course start bounds pair) :
    Kept course start bounds (pair.follow bounds) := by
  simp only [Pair.follow]
  split
  · have hs := h.sound.same (takeUp_same bounds pair.standby pair.standby
      (.standby 0) pair.primary.standing.epoch)
    refine ⟨h.logged, h.logs, h.before, hs, fun c hc => ?_⟩
    obtain rfl := Option.some.inj hc
    have hopened := opened_arrives bounds h.logged hs
    simp only [Connection.opened] at hopened ⊢
    split at hopened <;> exact hopened
  · exact h

theorem Kept.ship (h : Kept course start bounds pair) (idle : Bool) :
    Kept course start bounds { pair with
      connection := pair.connection.map fun c => c.ship bounds pair.primary idle } := by
  refine ⟨h.logged, h.logs, h.before, h.sound, fun c hc => ?_⟩
  obtain ⟨c₀, hc₀, rfl⟩ := Option.map_eq_some_iff.mp hc
  have harrives := h.arrives c₀ hc₀
  simp only [Connection.ship]
  split
  · exact harrives
  · next shipping hshipping =>
      split
      · next next' sent hok =>
          refine harrives.append fun r hr => ?_
          have hsent := ships_arrives bounds h.logged h.logs h.before hr.1 (hr.2 _ hshipping) hok
          exact hsent.mono (fun _ _ h => h) (fun _ h => h) fun r hr => ⟨hr.1, fun s hs => by
            obtain rfl := Option.some.inj hs
            exact hr.2⟩
      · exact harrives.append fun r _ => Arrives.stops rfl

theorem Kept.take (h : Kept course start bounds pair) {c : Connection κ ν}
    (hc : pair.connection = some c) (hfollows : course.Follows bounds start pair .take) :
    Kept course start bounds (pair.take bounds c) := by
  have harrives := h.arrives c hc
  simp only [Pair.take]
  split
  · exact h
  · next sent frames hframes =>
      rw [hframes] at harrives
      have hallows := hfollows c sent frames hc hframes
      have hsound : Sound course start pair.log ((pair.receiver c).take bounds sent).1.standby
          ((pair.receiver c).take bounds sent).1.copy := by
        cases hgoes : ((pair.receiver c).take bounds sent).2 with
        | true => exact (harrives.next hgoes hallows).1
        | false => exact take_stops h.sound hgoes
      split
      · next hgoes =>
          refine ⟨h.logged, h.logs, h.before, hsound, fun c' hc' => ?_⟩
          obtain rfl := Option.some.inj hc'
          exact (harrives.next hgoes hallows).2
      · exact ⟨h.logged, h.logs, h.before, hsound.same (takeUp_same bounds _ _ _ _),
          fun c' hc' => by cases hc'⟩

theorem Kept.after (h : Kept course start bounds pair) (event : PairEvent κ ν)
    (hfollows : course.Follows bounds start pair event) :
    Kept course start bounds (pair.after bounds event) := by
  cases event with
  | write d changes =>
      simp only [Pair.after]
      split
      · exact h
      · next hlost => exact h.write (by simpa using hlost) hfollows
  | follow =>
      simp only [Pair.after]
      split
      · exact h
      · exact h.follow
  | ship idle =>
      simp only [Pair.after]
      split
      · exact h
      · exact h.ship idle
  | take =>
      simp only [Pair.after]
      split
      · exact h
      · next c hc => exact h.take hc hfollows
  | cut =>
      simp only [Pair.after]
      split
      · exact h.stopped
      · exact h
  | restart process =>
      exact ⟨h.logged, h.logs, h.before, h.sound.restart process, fun c hc => by cases hc⟩
  | lost => exact ⟨h.logged, h.logs, h.before, h.sound, h.arrives⟩

theorem Kept.run (h : Kept course start bounds pair) (events : List (PairEvent κ ν))
    (hfollows : EachStep (Pair.after bounds) (course.Follows bounds start) pair events) :
    Kept course start bounds (pair.run bounds events) := by
  induction events generalizing pair with
  | nil => exact h
  | cons event events ih => exact ih (h.after event hfollows.1) hfollows.2

/-! ## A whole copy caught up -/

/-- Once it has every write made before the scan of a database ended, a standby copied whole
holds in it what the primary's writes numbered below its next leave, and nothing else. -/
theorem caught_up (bounds : Bounds κ ν) (primary standby : StorageNode κ ν)
    (events : List (PairEvent κ ν)) {ended : Database → ℕ}
    (h : ((begun primary standby).run bounds events).copy = .taken ended) {d : Database}
    (hd : ended d ≤ ((begun primary standby).run bounds events).standby.copies.next d) :
    ∃ n, ((begun primary standby).run bounds events).standby.copies.next d =
        primary.copies.next d + n ∧
      n ≤ (((begun primary standby).run bounds events).log d).length ∧
      (((begun primary standby).run bounds events).standby.engines d).entries =
        effect (primary.engines d).entries (((begun primary standby).run bounds events).log d)
          n := by
  have hbegun : Kept (.still False) primary bounds (begun primary standby) :=
    Kept.begun primary standby trivial
  have hkept := hbegun.run events (EachStep.of_forall
    (fun _ _ => Course.still_follows fun hq => hq.elim) _ _)
  have hsound := hkept.sound
  rw [h] at hsound
  have hcopied := hsound.copied d
  have hle := hcopied.start_le
  have hge := hcopied.next_le
  exact ⟨_, by omega, by omega, hcopied.caughtUp.eq (by omega)⟩

/-! ### A whole copy with a write in the middle of its scan -/

def someBounds : Bounds ℕ ℕ := ⟨fun _ => 1, 64⟩

/-- A Storage node new to its cluster. -/
def newNode : StorageNode ℕ ℕ := .new 2 fun _ => .empty

/-- Another, promoted in its first epoch. -/
def newPrimary : StorageNode ℕ ℕ :=
  let node : StorageNode ℕ ℕ := .new 1 fun _ => .empty
  node.performAll someBounds (node.promote 1 7 (fun _ => 0) [])

/-- The new node copied whole: a write lands before the scan of the runtime database passes one
of its keys and after it passed the other. -/
def copiedAmid : List (PairEvent ℕ ℕ) :=
  [.write 0 [(1, some 1)], .follow, .take, .ship false, .ship false,
    .write 0 [(0, some 5), (5, some 5)], .ship false, .ship false, .ship false, .ship false,
    .ship false, .ship false, .take, .take, .take, .take, .take]

/-- The write made meanwhile taken too. -/
def copiedOn : List (PairEvent ℕ ℕ) := copiedAmid ++ [.ship false, .ship false, .take]

theorem caught_up_amid :
    ∃ n, ((begun newPrimary newNode).run someBounds copiedOn).standby.copies.next 0 = 1 + n ∧
      n ≤ (((begun newPrimary newNode).run someBounds copiedOn).log 0).length ∧
      (((begun newPrimary newNode).run someBounds copiedOn).standby.engines 0).entries =
        effect (newPrimary.engines 0).entries
          (((begun newPrimary newNode).run someBounds copiedOn).log 0) n :=
  caught_up someBounds newPrimary newNode copiedOn rfl (d := 0) (by decide)

/-! ## What may be promoted -/

/-- Where the standby is not marked as copying, each of its databases is as the primary's was
after some of its writes. -/
def Held (pair : Pair κ ν) (first : Database → Engine κ ν) : Prop :=
  pair.standby.isCopying = false → ∀ d, ∃ n ≤ (pair.log d).length,
    (pair.standby.engines d).entries = effect (first d).entries (pair.log d) n

/-- The copy taken, the node may be promoted with a part of a write its primary made while it
was scanned. -/
theorem copiedAmid_not_held :
    ¬((begun newPrimary newNode).run someBounds (copiedAmid ++ [.lost])).Held
      newPrimary.engines := by
  intro h
  have ⟨n, hn, he⟩ := h rfl 0
  have hlen : (((begun newPrimary newNode).run someBounds (copiedAmid ++ [.lost])).log 0).length
      = 2 := by decide
  have h₀ := congrArg (fun m => m.get 0) he
  have h₅ := congrArg (fun m => m.get 5) he
  have hcases : n = 0 ∨ n = 1 ∨ n = 2 := by omega
  rcases hcases with rfl | rfl | rfl
  · exact absurd h₅ (by decide)
  · exact absurd h₅ (by decide)
  · exact absurd h₀ (by decide)

/-- Before its first whole copy: as it started, with a whole copy or a refusal on its way. -/
structure Waiting (node : StorageNode κ ν) (pair : Pair κ ν) : Prop where
  same : Same node pair.standby
  sent : ∀ c, pair.connection = some c → ∃ sent frames, c.frames = sent :: frames ∧
    ((∃ history epoch keys, sent.frame = .whole history epoch keys) ∨
      ∃ reason, sent.frame = .declined reason)

/-- A standby of another history is sent a whole copy's start first, or a refusal. -/
theorem opened_sent {primary : StorageNode κ ν} {asked : Follow}
    (h : asked.history ≠ primary.copies.history) :
    ∃ sent frames, (Connection.opened primary asked).frames = sent :: frames ∧
      ((∃ history epoch keys, sent.frame = .whole history epoch keys) ∨
        ∃ reason, sent.frame = .declined reason) := by
  have hfollows : primary.copies.follows asked.history asked.next = .error .another := by
    simp [Copies.follows, h]
  simp only [Connection.opened]
  split
  · next shipping frames hok =>
      simp only [accepts, hfollows] at hok
      split at hok
      · cases hok
      · split at hok
        · cases hok
        · split at hok
          · obtain ⟨rfl, rfl⟩ := Prod.mk.inj (Except.ok.inj hok)
            exact ⟨_, _, rfl, .inl ⟨_, _, _, rfl⟩⟩
          · cases hok
  · next reason hrefused => exact ⟨_, _, rfl, .inr ⟨reason, rfl⟩⟩

theorem positioned_congr {engines engines' : Database → Engine κ ν}
    (h : ∀ d, (engines' d).position = (engines d).position) :
    positioned engines' = positioned engines := by
  simp only [positioned, h]

/-- A whole copy once begun is never forgotten. -/
theorem copyAfter_never {w : Option Whole} {sent : Sent κ ν}
    (h : r.copyAfter w sent = .never) :
    r.copy = .never ∧ ∀ history epoch keys, sent.frame ≠ .whole history epoch keys := by
  obtain ⟨frame, at'⟩ := sent
  cases frame with
  | whole history epoch keys => cases h
  | copied d next =>
      simp only [Receiver.copyAfter] at h
      split at h
      · cases h
      · exact ⟨h, fun _ _ _ hf => by cases hf⟩
  | beat epoch => exact ⟨h, fun _ _ _ hf => by cases hf⟩
  | copy d number changes => exact ⟨h, fun _ _ _ hf => by cases hf⟩
  | entries d page => exact ⟨h, fun _ _ _ hf => by cases hf⟩
  | declined reason => exact ⟨h, fun _ _ _ hf => by cases hf⟩

theorem take_never {sent : Sent κ ν} (h : (r.take bounds sent).1.copy = .never) :
    r.copy = .never ∧ ∀ history epoch keys, sent.frame ≠ .whole history epoch keys := by
  simp only [Receiver.take] at h
  split at h <;> exact copyAfter_never h

theorem Waiting.take {node : StorageNode κ ν} {c : Connection κ ν}
    (hw : pair.copy = .never → Waiting node pair) (hc : pair.connection = some c)
    (hnever : (pair.take bounds c).copy = .never) : Waiting node (pair.take bounds c) := by
  cases hframes : c.frames with
  | nil =>
      have htake : pair.take bounds c = pair := by simp [Pair.take, hframes]
      rw [htake] at hnever ⊢
      exact hw hnever
  | cons sent frames =>
      have hcopy : (pair.take bounds c).copy = ((pair.receiver c).take bounds sent).1.copy := by
        simp only [Pair.take, hframes]
        split <;> rfl
      have ⟨hbefore, hwhole⟩ := take_never (hcopy ▸ hnever)
      have h := hw hbefore
      obtain ⟨sent', frames', hsent, hkind⟩ := h.sent c hc
      obtain ⟨rfl, rfl⟩ := List.cons.inj (hframes.symm.trans hsent)
      rcases hkind with ⟨history, epoch, keys, hkind⟩ | ⟨reason, hkind⟩
      · exact absurd hkind (hwhole history epoch keys)
      · obtain ⟨frame, at'⟩ := sent
        obtain rfl : frame = .declined reason := hkind
        have htake : pair.take bounds c = pair.stopped bounds := by
          simp only [Pair.take, hframes]
          rfl
        rw [htake]
        exact ⟨h.same.trans (takeUp_same bounds _ _ _ _), fun c hc => by cases hc⟩

/-- What has had no whole copy is as it started. -/
theorem Waiting.after {process : ℕ} {engines : Database → Engine κ ν}
    (hw : pair.copy = .never → Waiting (.new process engines) pair)
    (hhistory : (new process engines).copies.history ≠ pair.primary.copies.history)
    (event : PairEvent κ ν) (hnever : (pair.after bounds event).copy = .never) :
    Waiting (.new process engines) (pair.after bounds event) := by
  cases event with
  | write d changes =>
      simp only [Pair.after] at hnever ⊢
      split
      · next hlost => exact hw (by simpa [hlost] using hnever)
      · next hlost =>
          have h := hw (by simpa [hlost, Pair.write] using hnever)
          exact ⟨h.same, h.sent⟩
  | follow =>
      simp only [Pair.after] at hnever ⊢
      split
      · next hno => exact hw (by simpa [hno] using hnever)
      · next hno =>
          have hcopy : (pair.follow bounds).copy = pair.copy := by
            simp only [Pair.follow]
            split <;> rfl
          have h := hw (by rw [← hcopy]; simpa [hno] using hnever)
          simp only [Pair.follow]
          split
          · have hsame := h.same.trans (takeUp_same bounds pair.standby pair.standby
              (.standby 0) pair.primary.standing.epoch)
            refine ⟨hsame, fun c hc => ?_⟩
            obtain rfl := Option.some.inj hc
            refine opened_sent ?_
            have hcopies := hsame.copies
            simp only [asks, hcopies]
            exact hhistory
          · exact h
  | ship idle =>
      simp only [Pair.after] at hnever ⊢
      split
      · next hlost => exact hw (by simpa [hlost] using hnever)
      · next hlost =>
          have h := hw (by simpa [hlost] using hnever)
          refine ⟨h.same, fun c hc => ?_⟩
          obtain ⟨c₀, hc₀, rfl⟩ := Option.map_eq_some_iff.mp hc
          obtain ⟨sent, frames, hframes, hkind⟩ := h.sent c₀ hc₀
          simp only [Connection.ship]
          split
          · exact ⟨sent, frames, hframes, hkind⟩
          · split <;> exact ⟨sent, _, by simp only [hframes, List.cons_append]; rfl, hkind⟩
  | take =>
      simp only [Pair.after] at hnever ⊢
      split
      · next hnone => exact hw (by simpa [hnone] using hnever)
      · next c hc =>
          simp only [hc] at hnever
          exact Waiting.take hw hc hnever
  | cut =>
      simp only [Pair.after] at hnever ⊢
      split
      · next hsome =>
          have h := hw (by simpa [hsome, Pair.stopped] using hnever)
          exact ⟨h.same.trans (takeUp_same bounds _ _ _ _), fun c hc => by cases hc⟩
      · next hsome => exact hw (by simpa [hsome] using hnever)
  | restart process' =>
      have h := hw hnever
      have hposition := positioned_congr h.same.position
      exact ⟨⟨hposition, h.same.entries, h.same.position, h.same.copying⟩,
        fun c hc => by cases hc⟩
  | lost =>
      have h := hw hnever
      exact ⟨h.same, h.sent⟩

theorem Waiting.run {process : ℕ} {engines : Database → Engine κ ν}
    (hw : pair.copy = .never → Waiting (.new process engines) pair)
    (hkept : Kept course start bounds pair)
    (hhistory : (new process engines).copies.history ≠ start.copies.history)
    (events : List (PairEvent κ ν))
    (hfollows : EachStep (Pair.after bounds) (course.Follows bounds start) pair events)
    (hnever : (pair.run bounds events).copy = .never) :
    Waiting (.new process engines) (pair.run bounds events) := by
  induction events generalizing pair with
  | nil => exact hw hnever
  | cons event events ih =>
      have hafter := hkept.after event hfollows.1
      refine ih (fun hn => ?_) hafter hfollows.2 hnever
      exact Waiting.after hw (by rwa [hkept.logged.history]) event hn

/-- In a run of a primary and a Storage node that follows another history, no write landing in a
database while a whole copy of it is read, what may be promoted holds in each of its databases
what the primary's held after some of its writes, as it does where it starts so. -/
theorem promotable_held (bounds : Bounds κ ν) (primary : StorageNode κ ν) (process : ℕ)
    (engines : Database → Engine κ ν)
    (hhistory : (new process engines).copies.history ≠ primary.copies.history)
    (hstart : (begun primary (new process engines)).Held primary.engines)
    (events : List (PairEvent κ ν))
    (hquiet : EachStep (Pair.after bounds) Quiet (begun primary (new process engines)) events) :
    ((begun primary (new process engines)).run bounds events).Held primary.engines := by
  have hbegun : Kept (.still True) primary bounds (begun primary (new process engines)) :=
    Kept.begun primary _ trivial
  have hfollows : EachStep (Pair.after bounds) ((Course.still True).Follows bounds primary)
      (begun primary (new process engines)) events :=
    hquiet.mono fun _ _ hq => Course.still_follows fun _ => hq
  have hkept := hbegun.run events hfollows
  have hwaiting : (begun primary (new process engines)).copy = .never →
      Waiting (new process engines) (begun primary (new process engines)) :=
    fun _ => ⟨.refl _, fun c hc => by cases hc⟩
  intro hmark d
  have hsound := hkept.sound
  cases hcopy : ((begun primary (new process engines)).run bounds events).copy with
  | never =>
      have h := Waiting.run hwaiting hbegun hhistory events hfollows hcopy
      have ⟨n, hn, he⟩ := hstart (h.same.copying.symm.trans hmark) d
      obtain rfl : n = 0 := Nat.le_zero.mp hn
      exact ⟨0, Nat.zero_le _, (h.same.entries d).trans he⟩
  | begun =>
      rw [hcopy] at hsound
      have hmarked : _ = true := hsound
      rw [hmarked] at hmark
      cases hmark
  | taken ended =>
      rw [hcopy] at hsound
      have hcopied := hsound.copied d
      have hstill := hcopied.still trivial
      have hge := hcopied.next_le
      exact ⟨_, by omega, hcopied.caughtUp.eq (by omega)⟩

/-- The new node copied whole while nothing is written, a write landing after. -/
def copiedQuietly : List (PairEvent ℕ ℕ) :=
  [.write 0 [(1, some 1)], .follow, .take, .ship false, .ship false, .ship false, .ship false,
    .ship false, .ship false, .ship false, .write 0 [(5, some 5)], .take, .take, .take, .take,
    .lost]

theorem promotable_held_quietly :
    ((begun newPrimary newNode).run someBounds copiedQuietly).Held newPrimary.engines :=
  promotable_held someBounds newPrimary 2 (fun _ => .empty) (by decide)
    (fun _ d => match d with
      | 0 => ⟨0, le_rfl, rfl⟩
      | 1 => ⟨0, le_rfl, rfl⟩
      | 2 => ⟨0, le_rfl, rfl⟩) copiedQuietly (by decide)

end Pair

end XmipPersist.Standby
