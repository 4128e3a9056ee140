import XmipPersist.Library.Failure
import XmipPersist.Verification.Due.Runs

/-! # The records a group's writes are settled and laid out over

What a group decided is settled and laid out as a whole: the due places of each queue it wrote an
entry of are found again, and each searchable record it writes over is read for its index entries.
Of the records so read the first that is torn fails all of the group.
-/

namespace XmipPersist

/-! ## Settling a queue -/

namespace Due

/-- An entry of a queue as a batch found it. -/
def entryBefore (b : Batch) (queue place : ℕ) : Except PersistError (Option Held) :=
  b.below (.held, .pair queue place) >>= decoded

/-- An entry of a queue as a batch wrote it. -/
def entryAfter (b : Batch) (queue place : ℕ) : Except PersistError (Option Held) :=
  decoded ((written b.changes (.held, .pair queue place)).getD none)

def entryTorn (b : Batch) (queue place : ℕ) : Option PersistError :=
  (failureOf (entryBefore b queue place)).or (failureOf (entryAfter b queue place))

/-- One more entry counted, as it was and as it is. -/
def counting (b : Batch) (queue : ℕ) (tally : Tally) (place : ℕ) : Tally :=
  tally.over' place (entryBefore b queue place).toOption.join
    (entryAfter b queue place).toOption.join

/-- What the entries a batch wrote of a queue come to. -/
def counted (b : Batch) (queue : ℕ) (before : DuePlaces) (touched : List ℕ) : Tally :=
  touched.foldl (counting b queue) { retrying := before.retrying }

/-- Where no first entry is found of a part, its range and the queue's places are read. -/
def rangesTorn (s : Store) (b : Batch) (queue : ℕ) (touched : List ℕ) (before : DuePlaces) :
    Option PersistError :=
  let tally := counted b queue before touched
  let fresh := keptFresh s queue touched before tally
  let first := least (fresh.toOption.join.map fun at' => (ofLex at').2) tally.fresh
  (failureOf fresh).or
    ((failureOf (freshAt b queue first)).or (failureOf (keptRetry s queue touched before tally)))

/-- The first failure of what settling a queue reads: its due places, the entries the batch wrote,
as they were and as they are, and what tells the first of each part. -/
def torn (s : Store) (b : Batch) (queue : ℕ) (touched : List ℕ) : Option PersistError :=
  match kept b queue with
  | .error e => some e
  | .ok before => (touched.findSome? (entryTorn b queue)).or (rangesTorn s b queue touched before)

variable {s : Store} {b b' : Batch} {queue : ℕ} {touched : List ℕ}

theorem tallied_of_torn {e : PersistError} (h : touched.findSome? (entryTorn b queue) = some e)
    (tally : Tally) : tallied b queue tally touched = .error e := by
  induction touched generalizing tally with
  | nil => cases h
  | cons place touched ih =>
      rw [List.findSome?_cons] at h
      rw [tallied]
      change entryBefore b queue place >>= _ = _
      cases hbefore : entryBefore b queue place with
      | error e' =>
          simp only [entryTorn, hbefore, failureOf_error, Option.some_or, Option.some.injEq] at h
          rw [h]
          rfl
      | ok old =>
          change entryAfter b queue place >>= _ = _
          cases hafter : entryAfter b queue place with
          | error e' =>
              simp only [entryTorn, hbefore, hafter, failureOf_ok, failureOf_error, Option.none_or,
                Option.some.injEq] at h
              rw [h]
              rfl
          | ok new =>
              simp only [entryTorn, hbefore, hafter, failureOf_ok, Option.none_or] at h
              exact ih h _

theorem tallied_of_whole (h : touched.findSome? (entryTorn b queue) = none) (tally : Tally) :
    tallied b queue tally touched = .ok (touched.foldl (counting b queue) tally) := by
  induction touched generalizing tally with
  | nil => rfl
  | cons place touched ih =>
      rw [List.findSome?_eq_none_iff] at h
      obtain ⟨hbefore, hafter⟩ := Option.or_eq_none_iff.mp (h place (by simp))
      obtain ⟨old, hold⟩ := failureOf_eq_none.mp hbefore
      obtain ⟨new, hnew⟩ := failureOf_eq_none.mp hafter
      have hothers : touched.findSome? (entryTorn b queue) = none :=
        List.findSome?_eq_none_iff.mpr fun other hother => h other (by simp [hother])
      have hrest := ih hothers (counting b queue tally place)
      have hnext : counting b queue tally place = tally.over' place old new := by
        simp only [counting, hold, hnew]
        rfl
      rw [List.foldl_cons, ← hrest, hnext, tallied]
      change entryBefore b queue place >>= _ = _
      rw [hold]
      change entryAfter b queue place >>= _ = _
      rw [hnew]
      rfl

theorem foundAgain_failed (before : DuePlaces) :
    failureOf (foundAgain s b queue touched before) =
      (touched.findSome? (entryTorn b queue)).or (rangesTorn s b queue touched before) := by
  unfold foundAgain
  cases h : touched.findSome? (entryTorn b queue) with
  | some e =>
      rw [tallied_of_torn h]
      rfl
  | none =>
      rw [tallied_of_whole h, Option.none_or, rangesTorn]
      change failureOf (keptFresh s queue touched before (counted b queue before touched) >>= _) = _
      cases hfresh : keptFresh s queue touched before (counted b queue before touched) with
      | error e => rfl
      | ok fresh =>
          change failureOf (freshAt b queue _ >>= _) = _
          rw [failureOf_bind fun at' _ => failureOf_bind_pure _ _]
          rfl

theorem settleQueue_failed :
    failureOf (settleQueue s b queue touched) = torn s b queue touched := by
  unfold settleQueue torn
  cases kept b queue with
  | error e => rfl
  | ok before =>
      change failureOf (foundAgain s b queue touched before >>= _) = _
      rw [failureOf_bind_pure, foundAgain_failed]

/-- What settling one queue leaves, settling another reads as before. -/
theorem torn_congr (h : Adds [.duePlaces] b b') (hkept : kept b' queue = kept b queue)
    (touched : List ℕ) : torn s b' queue touched = torn s b queue touched := by
  have hentries : entryBefore b' queue = entryBefore b queue := by
    funext place
    rw [entryBefore, h.below, entryBefore]
  have hentries' : entryAfter b' queue = entryAfter b queue := by
    funext place
    rw [entryAfter, h.written_of_kind (by simp), entryAfter]
  have hcounted : ∀ before, counted b' queue before touched = counted b queue before touched := by
    intro before
    simp only [counted, funext₂ fun tally place =>
      show counting b' queue tally place = counting b queue tally place by
        rw [counting, hentries, hentries', counting]]
  have hfresh : ∀ first, freshAt b' queue first = freshAt b queue first := by
    intro first
    cases first with
    | some first => rfl
    | none => rw [freshAt, freshAt, nextPlace, nextPlace, h.read_of_kind (by simp)]
  have htorn : entryTorn b' queue = entryTorn b queue := by
    funext place
    rw [entryTorn, hentries, hentries', entryTorn]
  simp only [torn, hkept, htorn, rangesTorn, hcounted, hfresh]

theorem settleEach_failed {places : List (ℕ × ℕ)} {queues : List ℕ} (hnodup : queues.Nodup) :
    failureOf (settleEach s places b queues) =
      queues.findSome? fun queue => torn s b queue (placesOf queue places) := by
  induction queues generalizing b with
  | nil => rfl
  | cons queue queues ih =>
      obtain ⟨hqueue, hnodup⟩ := List.nodup_cons.mp hnodup
      have hfirst : failureOf (settleQueue s b queue (placesOf queue places)) = _ :=
        settleQueue_failed
      rw [settleEach, List.findSome?_cons, ← hfirst]
      cases hsettle : settleQueue s b queue (placesOf queue places) with
      | error e => rfl
      | ok b' =>
          obtain ⟨-, -, -, -, -, hothers⟩ := settleQueue_kept hsettle
          refine (ih hnodup).trans ?_
          refine findSome?_congr fun other hother => ?_
          refine torn_congr (settleQueue_adds hsettle) (hothers other ?_) _
          rintro rfl
          exact hqueue hother

/-- Over a store whose index and due places are exact nothing read to settle a queue is torn. -/
theorem torn_of_sound {numbers : Set ℕ} {before : DuePlaces} {next : ℕ} (hs : s.Sound numbers)
    (hn : index.number ∈ numbers) (hq : queue < 256 ^ 16) (hb : b.Proper) (hbelow : b.below = s.get)
    (htouched : ∀ n ∈ touched, written b.changes (.held, .pair queue n) ≠ none)
    (hkept : kept b queue = .ok before) (htells : Tells (View.marks s.records queue) next before)
    (hheld : ∀ n mark, View.marks s.records queue n = some mark → n < u64Max) :
    torn s b queue touched = none := by
  obtain ⟨tally, htally⟩ : ∃ tally, tallied b queue { retrying := before.retrying } touched =
      .ok tally := ⟨_, tallied_ok hs.proper hb hbelow htouched _⟩
  obtain ⟨fresh, hfresh, -⟩ := keptFresh_ok hs hn hq htells touched tally
  obtain ⟨retry, hretry, -⟩ := keptRetry_ok hs hn hq htells hheld touched tally
  have hfirst : ∀ first, ∃ place, freshAt b queue first = .ok place := by
    intro first
    cases first with
    | some place => exact ⟨place, rfl⟩
    | none => exact ⟨_, nextPlace_ok hb queue⟩
  obtain ⟨place, hplace⟩ := hfirst (least (fresh.map fun at' => (ofLex at').2) tally.fresh)
  have hagain : foundAgain s b queue touched before =
      .ok { fresh := place, retry := (least retry tally.retry).getD noRetry,
            retrying := tally.retrying } := by
    simp only [foundAgain, htally, hfresh, hplace, hretry, bind, Except.bind, pure, Except.pure]
  rw [torn, hkept]
  change (touched.findSome? (entryTorn b queue)).or _ = none
  rw [← foundAgain_failed, hagain, failureOf_ok]

end Due

/-! ## Laying out -/

/-- What the bytes of a searchable record do not decode with. -/
def Searched.torn (searched : Searched) (bytes : Content) : Option PersistError :=
  failureOf (searched.row bytes)

/-- What the record a change replaces is not read with: the store's, where the batch wrote none
there before. -/
def replacedTorn (kept : Place → Except PersistError (Option Content)) (done : List Change)
    (searched : Searched) (p : Place) : Option PersistError :=
  match written done p with
  | some _ => none
  | none =>
      match kept p with
      | .error e => some e
      | .ok before => before.bind searched.torn

/-- The first failure of what laying out changes reads: of each searchable record, the one it
replaces, and what it is. -/
def changesTorn (kept : Place → Except PersistError (Option Content)) :
    List Change → List Change → Option PersistError
  | _, [] => none
  | done, c :: cs =>
      ((Searched.of c.kind).bind fun searched =>
        (replacedTorn kept done searched c.place).or (c.value.bind searched.torn)).or
          (changesTorn kept (done ++ [c]) cs)

theorem stamp_failed {α : Type} [Columned α] (bytes : Content) (before : Option Content)
    (now : ℕ) : failureOf (stamp α bytes before now) =
      (failureOf (rowOf α bytes)).or (before.bind fun bytes => failureOf (rowOf α bytes)) := by
  unfold stamp rowOf
  rw [failureOf_bind fun record _ => failureOf_bind_pure _ _, failureOf_bind_pure]
  cases before with
  | none => rfl
  | some kept => simp only [decoded, failureOf_map, Option.bind_some, failureOf_bind_pure]

theorem stamp_decodes {α : Type} [Columned α] {bytes : Content} {before : Option Content}
    {now : ℕ} {stamped : Content × Row × ℕ} (h : stamp α bytes before now = .ok stamped) :
    failureOf (rowOf α stamped.1) = none := by
  simp only [stamp, bind_eq_ok] at h
  obtain ⟨record, -, found, -, h⟩ := h
  obtain rfl := Except.ok.inj h
  simp [rowOf, bind, Except.bind, pure, Except.pure]

theorem Searched.stamped_failed (searched : Searched) (bytes : Content) (before : Option Content)
    (now : ℕ) : failureOf (searched.stamped bytes before now) =
      (searched.torn bytes).or (before.bind searched.torn) := by
  cases searched <;> exact stamp_failed bytes before now

theorem Searched.stamped_decodes {searched : Searched} {bytes : Content} {before : Option Content}
    {now : ℕ} {stamped : Content × Row × ℕ}
    (h : searched.stamped bytes before now = .ok stamped) : searched.torn stamped.1 = none := by
  cases searched <;> exact stamp_decodes h

theorem goneEntries_failed (searched : Searched) (before : Option Content) :
    failureOf (goneEntries searched before) = before.bind searched.torn := by
  cases before with
  | none => rfl
  | some bytes =>
      unfold goneEntries Searched.torn
      simp only [Option.bind_some]
      cases searched.row bytes <;> rfl

theorem laidOut_failed {c : Change} {searched : Searched} (hs : Searched.of c.kind = some searched)
    (before : Option Content) (now : ℕ) :
    failureOf (laidOut c before now) =
      (before.bind searched.torn).or (c.value.bind searched.torn) := by
  unfold laidOut
  simp only [hs]
  cases hbefore : before.bind searched.torn with
  | some e =>
      rw [← goneEntries_failed, failureOf_eq_some] at hbefore
      rw [hbefore]
      rfl
  | none =>
      obtain ⟨gone, hgone⟩ :=
        failureOf_eq_none.mp ((goneEntries_failed searched before).trans hbefore)
      rw [hgone]
      cases hvalue : c.value with
      | none => rfl
      | some bytes =>
          have hstamped := searched.stamped_failed bytes before now
          rw [hbefore, Option.or_none] at hstamped
          simp only [Option.none_or, Option.bind_some, ← hstamped]
          cases searched.stamped bytes before now <;> rfl

/-- What is laid out of a searchable record decodes. -/
theorem laidOut_decodes {c c' : Change} {searched : Searched}
    (hs : Searched.of c.kind = some searched) {before : Option Content} {now : ℕ}
    {es : List IndexEntry} (h : laidOut c before now = .ok (c', es)) :
    c'.value.bind searched.torn = none := by
  unfold laidOut at h
  simp only [hs, bind_eq_ok] at h
  obtain ⟨gone, -, h⟩ := h
  cases hvalue : c.value with
  | none =>
      simp only [hvalue] at h
      obtain rfl := (Prod.mk.inj (Except.ok.inj h)).1
      simp [hvalue]
  | some bytes =>
      simp only [hvalue, bind_eq_ok] at h
      obtain ⟨stamped, hstamped, h⟩ := h
      obtain rfl := (Prod.mk.inj (Except.ok.inj h)).1
      exact Searched.stamped_decodes hstamped

/-- What is laid out so far: at the places of the changes it is of, each searchable record of it
decoding. -/
structure LaidOut (done done' : List Change) : Prop where
  places : ∀ p, written done' p = none ↔ written done p = none
  decodes : ∀ p searched value, Searched.of p.1 = some searched → written done' p = some value →
    value.bind searched.torn = none

theorem LaidOut.snoc {done done' : List Change} (h : LaidOut done done') {c c' : Change}
    (hplace : c'.place = c.place)
    (hc : ∀ searched, Searched.of c.kind = some searched → c'.value.bind searched.torn = none) :
    LaidOut (done ++ [c]) (done' ++ [c']) := by
  constructor
  · intro p
    simp only [written_append, written_cons, written_nil, Option.none_or, hplace]
    split
    · simp
    · simpa using h.places p
  · intro p searched value hp hvalue
    simp only [written_append, written_cons, written_nil, Option.none_or, hplace] at hvalue
    split at hvalue
    · next heq =>
        obtain rfl := Option.some.inj hvalue
        exact hc searched (by rw [← heq] at hp; exact hp)
    · exact h.decodes p searched value hp (by simpa using hvalue)

theorem replaced_failed {kept : Place → Except PersistError (Option Content)}
    {done done' : List Change} (h : LaidOut done done') {c : Change} {searched : Searched}
    (hs : Searched.of c.kind = some searched) (now : ℕ) :
    failureOf (replaced kept done' c >>= fun before => laidOut c before now) =
      (replacedTorn kept done searched c.place).or (c.value.bind searched.torn) := by
  have hlaid := fun before => laidOut_failed hs before now
  unfold replaced replacedTorn
  simp only [hs]
  cases hdone : written done c.place with
  | none =>
      rw [(h.places c.place).mpr hdone]
      cases kept c.place with
      | error e => rfl
      | ok before => exact hlaid before
  | some value =>
      obtain ⟨value', hvalue'⟩ := Option.ne_none_iff_exists'.mp fun hnone =>
        absurd ((h.places c.place).mp hnone) (by simp [hdone])
      have hdecodes := h.decodes c.place searched value' hs hvalue'
      rw [hvalue']
      refine (hlaid value').trans ?_
      rw [hdecodes]

theorem writtenOver_failed {kept : Place → Except PersistError (Option Content)} {now : ℕ}
    {done done' cs : List Change} (h : LaidOut done done') :
    failureOf (writtenOver kept now done' cs) = changesTorn kept done cs := by
  induction cs generalizing done done' with
  | nil => rfl
  | cons c cs ih =>
      have hfirst : failureOf (replaced kept done' c >>= fun before => laidOut c before now) =
          (Searched.of c.kind).bind fun searched =>
            (replacedTorn kept done searched c.place).or (c.value.bind searched.torn) := by
        cases hs : Searched.of c.kind with
        | none => simp [replaced, laidOut, hs, bind, Except.bind]
        | some searched => exact replaced_failed h hs now
      have hsplit : writtenOver kept now done' (c :: cs) =
          (replaced kept done' c >>= fun before => laidOut c before now) >>= fun laid =>
            writtenOver kept now (done' ++ [laid.1]) cs >>= fun rest =>
              pure (laid.1 :: rest.1, laid.2 ++ rest.2) := by
        rw [writtenOver]
        simp only [bind_assoc]
      rw [hsplit, changesTorn, ← hfirst]
      refine failureOf_bind fun laid hlaid => ?_
      obtain ⟨c', es⟩ := laid
      obtain ⟨before, -, hc⟩ := bind_eq_ok.mp hlaid
      rw [failureOf_bind_pure]
      exact ih (h.snoc (laidOut_writtenAs hc).place fun searched hs => laidOut_decodes hs hc)

/-- A record of its place's kind is not torn. -/
theorem Searched.torn_of_holds {kind : Kind} {key : Key} {content : Content} {searched : Searched}
    (hs : Searched.of kind = some searched) (h : kind.holds key content) :
    searched.torn content = none := by
  cases kind <;> simp only [Searched.of, Option.some.injEq, reduceCtorEq] at hs <;> subst hs <;>
    cases content <;> first | rfl | (cases key <;> exact h.elim)

theorem changesTorn_of_proper {s : Store} (hs : s.Proper) {done cs : List Change}
    (hcs : ∀ c ∈ cs, c.Proper) : changesTorn s.get done cs = none := by
  induction cs generalizing done with
  | nil => rfl
  | cons c cs ih =>
      have hrest : changesTorn s.get (done ++ [c]) cs = none := ih fun d hd => hcs d (by simp [hd])
      rw [changesTorn, hrest, Option.or_none, Option.bind_eq_none_iff]
      intro searched hsearched
      rw [Option.or_eq_none_iff, replacedTorn]
      constructor
      · cases written done c.place with
        | some value => rfl
        | none =>
            simp only [hs.get]
            exact Option.bind_eq_none_iff.mpr fun content hcontent =>
              Searched.torn_of_holds hsearched (hs c.place content hcontent)
      · rw [Option.bind_eq_none_iff]
        intro content hcontent
        have hproper := hcs c (by simp)
        rw [Change.Proper, hcontent] at hproper
        exact Searched.torn_of_holds hsearched hproper

/-- Records that are not searchable are laid out as they are. -/
theorem changesTorn_append {kept : Place → Except PersistError (Option Content)}
    {done cs more : List Change} (h : ∀ c ∈ more, Searched.of c.kind = none) :
    changesTorn kept done (cs ++ more) = changesTorn kept done cs := by
  induction cs generalizing done with
  | nil =>
      rw [List.nil_append]
      change changesTorn kept done more = none
      induction more generalizing done with
      | nil => rfl
      | cons c more ih =>
          rw [changesTorn, h c (by simp), ih fun d hd => h d (by simp [hd])]
          rfl
  | cons c cs ih => rw [List.cons_append, changesTorn, changesTorn, ih]

/-! ## A group -/

namespace Writer

variable {digest : Publication → Bytes}

/-- The first failure of what is read to settle and lay out a decided batch. -/
def torn (w : Writer) (m : Moment) (decided : Batch) : Option PersistError :=
  let places := m.order.arrange (Due.heldPlaces decided.changes)
  ((Due.queuesOf places).findSome? fun queue =>
    Due.torn w.store decided queue (Due.placesOf queue places)).or
      (changesTorn w.store.get [] decided.changes)

/-- A batch that leaves something to write fails with the first record read for it that is torn,
or as the engine refuses it. -/
theorem laid_failed {w : Writer} {m : Moment} {decided : Batch} (h : ¬w.idle decided) :
    failureOf (w.laid m decided) = (w.torn m decided).or m.refused := by
  have hsettle : failureOf (Due.settle w.store m.order decided) = _ :=
    Due.settleEach_failed (Due.queuesOf_nodup _)
  have hlaying : failureOf (w.laying m decided) = w.torn m decided := by
    refine (failureOf_bind fun settled hsettled => ?_).trans
      (congrArg (Option.or · (changesTorn w.store.get [] decided.changes)) hsettle)
    obtain ⟨added, he, hadded⟩ := (Due.settle_adds hsettled).changes
    have hsearched : ∀ c ∈ added, Searched.of c.kind = none := fun c hc => by
      rw [List.mem_singleton.mp (hadded c hc).2]
      rfl
    have hlaid : LaidOut [] [] := ⟨fun _ => Iff.rfl, fun _ _ _ _ hvalue => by cases hvalue⟩
    refine (writtenOver_failed hlaid).trans ?_
    split
    · rw [Batch.put_changes, he, List.append_assoc]
      refine changesTorn_append fun c hc => ?_
      rcases List.mem_append.mp hc with hc | hc
      · exact hsearched c hc
      · rw [List.mem_singleton.mp hc]
        rfl
    · rw [he]
      exact changesTorn_append hsearched
  unfold laid
  rw [if_neg h, ← hlaying]
  refine failureOf_bind fun laid _ => ?_
  cases m.refused <;> rfl

/-- Of what a group decides over a sound store whose due places are exact, nothing read is torn. -/
theorem torn_of_sound {w : Writer} {m : Moment} {ops : List Op} {numbers : Set ℕ}
    (hw : w.store.Sound numbers) (hn : Due.index.number ∈ numbers) (hsettled : w.store.Settled)
    (hmade : ∀ op ∈ ops, op.Made) (hqueues : ∀ q n, written
      (decideEach digest m (Batch.over' w.store w.next) ops).2.changes (.held, .pair q n) ≠ none →
        q < 256 ^ 16) :
    w.torn m (decideEach digest m (Batch.over' w.store w.next) ops).2 = none := by
  have horders : Orders (Batch.over' w.store w.next)
      (decideEach digest m (Batch.over' w.store w.next) ops).2 :=
    decideEach_orders hmade (hw.over' w.next)
  have hchanging : (decideEach digest m (Batch.over' w.store w.next) ops).2.Changing :=
    decideEach_changing hmade (by simp [Batch.Changing, Batch.over'])
  have hdue : ∀ c ∈ (decideEach digest m (Batch.over' w.store w.next) ops).2.changes,
      c.kind ≠ .duePlaces := decideEach_settles hmade (by simp [Batch.over'])
  generalize (decideEach digest m (Batch.over' w.store w.next) ops).2 = decided at *
  have hbelow : decided.below = w.store.get := horders.below
  have hplaces : ∀ q n, (q, n) ∈ m.order.arrange (Due.heldPlaces decided.changes) ↔
      written decided.changes (.held, .pair q n) ≠ none := by
    intro q n
    rw [(m.order.perm _).mem_iff, Due.mem_heldPlaces]
  rw [torn, changesTorn_of_proper hw.proper hchanging, Option.or_none]
  refine List.findSome?_eq_none_iff.mpr fun q hq => ?_
  obtain ⟨n, hmem⟩ := Due.mem_queuesOf.mp hq
  have hfits := hqueues q n ((hplaces q n).mp hmem)
  obtain ⟨before, hread, htells⟩ := hsettled q hfits
  refine Due.torn_of_sound hw hn hfits horders.inOrder.proper hbelow (fun k hk => ?_)
    ((kept_decided hbelow hdue q).trans hread) htells fun k mark hmark => ?_
  · rw [Due.mem_placesOf] at hk
    exact (hplaces q k).mp hk
  · by_contra hle
    have hnext := hw.next_fits .held q
    rw [hw.marks_past q k (by omega)] at hmark
    cases hmark

end Writer

end XmipPersist
