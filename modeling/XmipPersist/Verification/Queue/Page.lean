import XmipPersist.Model.Read
import XmipPersist.Verification.Index.Range
import XmipPersist.Verification.Index.Runs

/-! # What a page of a queue reads

The index a queue is read by finds its entries by their places, and nothing else. So a page is
the queue's own entries from a place on, and the first place it tells is the first held.
-/

namespace XmipPersist

variable {digest : Publication → Bytes}

/-! ## The index a queue is read by -/

section Index

variable {numbers : Set ℕ} {s : Store} {k : Queues} {q n id : ℕ} {content : Content}

/-- The table a kind of queue's entries are laid out in. -/
def Queues.searched : Queues → Searched
  | held => .held
  | failed => .failed
  | dead => .dead

theorem Queues.table (k : Queues) : Searched.of k.kinds.entry = some k.searched := by
  cases k <;> rfl

theorem Queues.index_mem (k : Queues) : k.kinds.index ∈ k.searched.indexes := by
  cases k <;> decide

/-- The entry its queue's index keeps of an entry. -/
theorem Queues.entered (k : Queues) (hcontent : k.Entry content) (hseated : content.Seated q n) :
    ∃ row, Entered (k.kinds.entry, .pair q n) content
      (k.kinds.index.key [.id q, .count n] content.about) k.searched row k.kinds.index
      [.id q, .count n] content.about := by
  cases k with
  | held =>
      obtain ⟨entry, rfl⟩ := hcontent
      obtain ⟨rfl, rfl⟩ := hseated
      exact ⟨_, rfl, rfl, by decide, rfl, rfl, rfl⟩
  | failed =>
      obtain ⟨entry, rfl⟩ := hcontent
      obtain ⟨rfl, rfl⟩ := hseated
      exact ⟨_, rfl, rfl, by decide, rfl, rfl, rfl⟩
  | dead =>
      obtain ⟨entry, rfl⟩ := hcontent
      obtain ⟨rfl, rfl⟩ := hseated
      exact ⟨_, rfl, rfl, by decide, rfl, rfl, rfl⟩

theorem Kind.holds_entry {k : Queues} {key : Key} (h : k.kinds.entry.holds key content) :
    k.Entry content := by
  cases k <;> cases key <;> cases content <;> first | exact h.elim | exact ⟨_, rfl⟩

/-- An entry of a sound store says its own queue and place. -/
theorem Store.Sound.seated (hs : s.Sound numbers)
    (h : s.records (k.kinds.entry, .pair q n) = some content) :
    k.Entry content ∧ content.Seated q n := by
  have hview : s.view (k.kinds.entry, .pair q n) = some content.bare := by
    simp [Store.view, k.seen.1, h]
  exact ⟨Kind.holds_entry (hs.proper _ _ h),
    (Content.seated_bare q n content).mp (hs.queued.sole k q n _ hview).1⟩

theorem orderedKey_place (k : Queues) (q n id : ℕ) :
    orderedKey (k.kinds.index.opens [.id q]) [n] id = k.kinds.index.key [.id q, .count n] id := by
  cases k <;> simp [orderedKey, Index.opens, Index.key, encoded, Queues.kinds, Hold.kinds,
    Failed.kinds, Dead.kinds]

/-- An entry held is found by its place. -/
theorem Store.Sound.found (hs : s.Sound numbers) (hk : k.kinds.index.number ∈ numbers)
    (h : s.records (k.kinds.entry, .pair q n) = some content) :
    Numbers 1 [n] content.about ∧
      s.entries.get (orderedKey (k.kinds.index.opens [.id q]) [n] content.about) =
        some content.about := by
  obtain ⟨hcontent, hseated⟩ := hs.seated h
  obtain ⟨row, hentered⟩ := k.entered hcontent hseated
  obtain ⟨hget, hid, hvalues⟩ := hs.get_entered h hentered hk
  refine ⟨⟨rfl, ?_, hid⟩, by rw [orderedKey_place]; exact hget⟩
  intro v hv
  rw [List.mem_singleton.mp hv]
  exact hvalues (.count n) (by simp)

/-- An entry that opens with a queue in the index is of one held there. -/
theorem Store.Sound.placed (hs : s.Sound numbers) (hk : k.kinds.index.number ∈ numbers)
    (hq : q < 256 ^ 16) {key : IndexKey} (hget : s.entries.get key = some id)
    (hopens : k.kinds.index.opens [.id q] <+: key) :
    ∃ n content, s.records (k.kinds.entry, .pair q n) = some content ∧ content.about = id ∧
      key = orderedKey (k.kinds.index.opens [.id q]) [n] id := by
  obtain ⟨rest, rfl⟩ := hopens
  obtain ⟨p, content, row, values, hp, h⟩ := hs.entered_of_get k.index_mem hk hget rfl
  have htold : k.kinds.index.opens [.id q] ++ rest = k.kinds.index.key values id := h.told
  obtain ⟨kind, key⟩ := p
  obtain rfl : kind = k.kinds.entry :=
    Searched.kind_eq h.table k.table (by cases k <;> simp [Queues.searched])
  obtain ⟨q', n, rfl⟩ := Kind.holds_pair (hs.proper _ _ hp)
  obtain ⟨hcontent, hseated⟩ := hs.seated hp
  obtain ⟨row', h'⟩ := k.entered hcontent hseated
  obtain ⟨rfl, rfl⟩ := Prod.mk.inj (Except.ok.inj (h.laid.symm.trans h'.laid))
  obtain rfl := Option.some.inj (h.holds.symm.trans h'.holds)
  have hq' : q' < 256 ^ 16 := (hs.get_entered hp h hk).2.2 (.id q') (by simp)
  have hqueue : bigEndian 16 q = bigEndian 16 q' := by
    have hbytes : bigEndian 16 q ++ rest =
        bigEndian 16 q' ++ (bigEndian 8 n ++ bigEndian 16 content.about) := by
      cases k <;> simpa [Index.opens, Index.key, encoded, Queues.kinds, Hold.kinds, Failed.kinds,
        Dead.kinds] using htold
    exact (List.append_inj hbytes (by simp)).1
  obtain rfl := (bigEndian_inj hq hq').mp hqueue
  exact ⟨n, content, hp, rfl, by rw [htold, orderedKey_place]⟩

end Index

/-! ## A page -/

/-- The entries of a queue, as they are kept. -/
abbrev Store.queue (s : Store) (k : Queues) (q : ℕ) : Numbered Content ℕ := View.queue s.records k q

theorem Store.queue_bare (s : Store) (k : Queues) (q : ℕ) :
    s.view.queue k q = (s.queue k q).map Content.bare := by
  obtain ⟨hentry, hby, hplaces⟩ := k.seen
  have hindex : ∀ about, Content.placing ((s.records (k.kinds.by', .pair q about)).map
      Content.bare) = Content.placing (s.records (k.kinds.by', .pair q about)) := by
    intro about
    cases s.records (k.kinds.by', .pair q about) with
    | none => rfl
    | some content => cases content <;> rfl
  have hkept : s.view.placesOf k q = View.placesOf s.records k q := by
    simp only [View.placesOf, Store.view, hplaces, if_true]
    cases s.records (k.kinds.places, .id q) with
    | none => rfl
    | some content => cases content <;> rfl
  simp only [View.queue, Numbered.map, hkept]
  simp [Store.view, hentry, hby, hindex]

theorem Store.orderly_of_queued {s : Store} (hs : s.view.Queued) (k : Queues) (q : ℕ) :
    (s.queue k q).Orderly Content.about (Content.Seated q) := by
  have horderly := hs k q
  rw [Store.queue_bare] at horderly
  exact horderly.of_map Content.about_bare fun n content h => (Content.seated_bare q n content).mp h

theorem Store.Sound.orderly {numbers : Set ℕ} {s : Store} (hs : s.Sound numbers) (k : Queues)
    (q : ℕ) : (s.queue k q).Orderly Content.about (Content.Seated q) :=
  Store.orderly_of_queued hs.queued k q

theorem Store.queue_next (s : Store) (k : Queues) (q : ℕ) :
    (s.view.queue k q).next = (s.queue k q).next := by
  rw [Store.queue_bare]
  rfl

theorem Store.Sound.next_fits {numbers : Set ℕ} {s : Store} (hs : s.Sound numbers) (k : Queues) (q : ℕ) :
    (s.queue k q).next ≤ u64Max := by
  have hplaces : (View.placesOf s.records k q).next ≤ u64Max := by
    unfold View.placesOf
    split
    · next kept hkept => exact (hs.fits _ _ hkept).counted
    · exact Nat.zero_le _
  exact hplaces

section Page

variable {numbers : Set ℕ} {s : Store} {k : Queues} {q : ℕ}

/-- The places found from `start` on are those held. -/
theorem Queue.placedFrom_ok (hs : s.Sound numbers) (hk : k.kinds.index.number ∈ numbers)
    (hq : q < 256 ^ 16) {start : ℕ} (hstart : start ≤ u64Max) (most : ℕ) :
    ∃ found : List (ℕ × ℕ), found.map Prod.fst = (s.queue k q).page start most ∧
      Queue.placedFrom k.kinds q start most s = .ok found := by
  have hshape : ∀ key id, s.entries.get key = some id → k.kinds.index.opens [.id q] <+: key →
      ∃ vs, Numbers 1 vs id ∧ key = orderedKey (k.kinds.index.opens [.id q]) vs id := by
    intro key id hget hopens
    obtain ⟨n, content, hp, rfl, hkey⟩ := hs.placed hk hq hget hopens
    exact ⟨[n], (hs.found hk hp).1, hkey⟩
  have hcolumns : k.kinds.index.columns.length - [Value.id q].length = 1 := by
    cases k <;> rfl
  obtain ⟨found, hasc, hmem, hread⟩ := k.kinds.index.findOrdered_ok hcolumns hshape
    (List.cons_ne_nil start []) (by simp) (by simpa using hstart) (le_refl u64Max)
  -- what is found is one held place each
  have hheld : ∀ vs id, (vs, id) ∈ found → ∃ n content, vs = [n] ∧ start ≤ n ∧
      s.records (k.kinds.entry, .pair q n) = some content ∧ content.about = id := by
    intro vs id he
    obtain ⟨hvs, hget, hle, -⟩ := (hmem vs id).mp he
    obtain ⟨n, content, hp, rfl, hkey⟩ :=
      hs.placed hk hq hget ⟨_, (List.append_assoc _ _ _).symm⟩
    obtain ⟨rfl, -⟩ := orderedKey_inj hvs (hs.found hk hp).1 hkey
    refine ⟨n, content, rfl, ?_, hp, rfl⟩
    rw [← not_lt, List.cons_lt_cons_iff] at hle
    omega
  have hplaces : (found.map fun entry => (entry.1.headD 0, entry.2)).map Prod.fst =
      (s.queue k q).from' start := by
    rw [List.map_map]
    refine Numbered.eq_from ?_ fun n => ?_
    · rw [List.pairwise_map]
      refine hasc.imp_of_mem fun {a b} ha hb hab => ?_
      obtain ⟨n, content, hn, -, hp, hid⟩ := hheld a.1 a.2 ha
      obtain ⟨m, content', hm, -, hp', hid'⟩ := hheld b.1 b.2 hb
      rw [Before, hn, hm] at hab
      simp only [Function.comp_apply, hn, hm, List.headD_cons]
      rcases hab with hlt | ⟨heq, hlt⟩
      · rcases List.cons_lt_cons_iff.mp hlt with hlt | ⟨-, hlt⟩
        · exact hlt
        · exact absurd hlt (lt_irrefl _)
      · obtain rfl : n = m := by simpa using heq
        obtain rfl := Option.some.inj (hp.symm.trans hp')
        exact absurd (hid.symm.trans hid') hlt.ne
    · rw [Numbered.mem_held (hs.orderly k q)]
      constructor
      · intro hn
        obtain ⟨⟨vs, id⟩, he, rfl⟩ := List.mem_map.mp hn
        obtain ⟨n, content, rfl, hle, hp, -⟩ := hheld vs id he
        exact ⟨⟨content, hp⟩, hle⟩
      · rintro ⟨⟨content, hp⟩, hle⟩
        obtain ⟨hnumbers, hget⟩ := hs.found hk hp
        refine List.mem_map.mpr ⟨([n], content.about), (hmem _ _).mpr ⟨hnumbers, hget, ?_, ?_⟩, rfl⟩
        · rw [← not_lt, List.cons_lt_cons_iff]
          rintro (hlt | ⟨-, hlt⟩)
          · omega
          · exact absurd hlt (lt_irrefl _)
        · intro v hv
          obtain rfl : n = v := by simpa using hv
          exact hnumbers.bounds n (by simp)
  refine ⟨(found.take most).map fun entry => (entry.1.headD 0, entry.2), ?_, ?_⟩
  · rw [List.map_take, List.map_take, hplaces]
    rfl
  · rw [Queue.placedFrom, hread]
    rfl

theorem Queue.kept_ok (hs : s.Sound numbers) (k : Queues) (q : ℕ) :
    (s.get (k.kinds.places, .id q) >>= decoded (α := Places)).map (·.getD {}) =
      .ok (View.placesOf s.records k q) := by
  rw [hs.proper.get]
  simp only [View.placesOf]
  cases hp : s.records (k.kinds.places, .id q) with
  | none => rfl
  | some content =>
      have hholds := hs.proper _ _ hp
      cases k <;> cases content <;> first | exact hholds.elim | rfl

/-- Nothing is held before a queue's kept first, so a read from there on is one from it on. -/
theorem Numbered.from_max {ε β : Type} {about : ε → β} {belongs : ℕ → ε → Prop}
    {queue : Numbered ε β} (h : queue.Orderly about belongs) (start : ℕ) :
    queue.from' (max start queue.first) = queue.from' start := by
  refine Numbered.eq_from (Numbered.from_ascending _ _) fun n => ?_
  rw [Numbered.mem_from]
  refine and_congr_right fun hn => ?_
  obtain ⟨e, he⟩ := (Numbered.mem_held h).mp hn
  have hbounds := h.bounds n e he
  omega

/-- The first place held, where its kept first is where it starts to be looked for. -/
theorem Queue.firstHeld_ok (hs : s.Sound numbers) (hk : k.kinds.index.number ∈ numbers)
    (hq : q < 256 ^ 16) (hfirst : (s.queue k q).first ≤ u64Max) {at' most : ℕ}
    {found : List (ℕ × ℕ)} (hfound : found.map Prod.fst = (s.queue k q).page at' most) :
    Queue.firstHeld k.kinds q (s.queue k q).first at' found s =
      .ok ((s.queue k q).from' 0).head? := by
  have hfrom : (s.queue k q).from' (s.queue k q).first = (s.queue k q).from' 0 := by
    have hmax := Numbered.from_max (hs.orderly k q) 0
    simpa using hmax
  have hone : (Queue.placedFrom k.kinds q (s.queue k q).first 1 s).map
      (fun one => one.head?.map Prod.fst) = .ok ((s.queue k q).from' 0).head? := by
    obtain ⟨one, hone, hread⟩ := Queue.placedFrom_ok hs hk hq hfirst 1
    rw [hread, ← hfrom]
    have hhead : one.head?.map Prod.fst = (one.map Prod.fst).head? := by simp
    simp only [Except.map, hhead, hone, Numbered.page, List.head?_take, if_neg Nat.one_ne_zero]
  unfold Queue.firstHeld
  cases hhead : found.head? with
  | none => exact hone
  | some entry =>
      simp only
      split
      · next hat =>
          have hmost : most ≠ 0 := by
            rintro rfl
            have hnil : found = [] := by simpa [Numbered.page] using hfound
            simp [hnil] at hhead
          have hpage : (found.map Prod.fst).head? = ((s.queue k q).from' at').head? := by
            rw [hfound, Numbered.page, List.head?_take, if_neg hmost]
          rw [← hfrom, ← hat, ← hpage, List.head?_map, hhead]
          rfl
      · exact hone

/-- A page is a queue's own entries from a place on, in order, up to so many of them. -/
theorem Queue.page_ok (hs : s.Sound numbers) (hk : k.kinds.index.number ∈ numbers)
    (hq : q < 256 ^ 16) {start : ℕ} (hstart : start ≤ u64Max) (most : ℕ) :
    Queue.page k.kinds q start most s =
      .ok (⟨((s.queue k q).from' 0).headD (s.queue k q).next, (s.queue k q).next,
          (s.queue k q).count⟩,
        ((s.queue k q).page start most).filterMap (s.queue k q).entry) := by
  have horderly := hs.orderly k q
  have hkept : ∃ kept, s.get (k.kinds.places, .id q) >>= decoded (α := Places) = .ok kept ∧
      kept.getD {} = View.placesOf s.records k q := by
    have hmap := Queue.kept_ok hs k q
    cases hread : s.get (k.kinds.places, .id q) >>= decoded (α := Places) with
    | error e => simp [hread, Except.map] at hmap
    | ok kept => exact ⟨kept, rfl, by simpa [hread, Except.map] using hmap⟩
  obtain ⟨kept, hread, hplaces⟩ := hkept
  have hqueue : View.placesOf s.records k q =
      ⟨(s.queue k q).first, (s.queue k q).next, (s.queue k q).count⟩ := rfl
  rw [Queue.page]
  simp only [bind, Except.bind] at hread ⊢
  rw [hread]
  simp only [hplaces, hqueue]
  by_cases hcount : (s.queue k q).count = 0
  · have hnone : ∀ start, (s.queue k q).from' start = [] := by
      intro start
      rw [List.eq_nil_iff_forall_not_mem]
      intro n hn
      have hheld := (Numbered.mem_from.mp hn).1
      have hcard := horderly.count
      rw [hcount] at hcard
      rw [Finset.card_eq_zero.mp hcard.symm] at hheld
      simp at hheld
    rw [if_pos hcount]
    simp [hnone, Numbered.page, horderly.empty hcount, pure, Except.pure]
  · have hfirst : (s.queue k q).first ≤ u64Max := by
      rw [horderly.count] at hcount
      obtain ⟨n, hn⟩ := Finset.card_pos.mp (Nat.pos_of_ne_zero hcount)
      obtain ⟨content, hcontent⟩ := (Numbered.mem_held horderly).mp hn
      have hbounds := (horderly.bounds n content hcontent).1
      have hn' := (hs.found hk hcontent).1.bounds n (by simp)
      omega
    have hfound : ∃ found : List (ℕ × ℕ),
        (if most = 0 then pure [] else
          Queue.placedFrom k.kinds q (max start (s.queue k q).first) most s) = .ok found ∧
        found.map Prod.fst = (s.queue k q).page (max start (s.queue k q).first) most := by
      by_cases hmost : most = 0
      · exact ⟨[], by rw [if_pos hmost]; rfl, by simp [hmost, Numbered.page]⟩
      · obtain ⟨found, hfound, hok⟩ := Queue.placedFrom_ok hs hk hq
          (max_le hstart hfirst) most
        exact ⟨found, by rw [if_neg hmost]; exact hok, hfound⟩
    obtain ⟨found, hok, hfound⟩ := hfound
    have hentries : Queue.entriesAt k.kinds q found s =
        .ok (((s.queue k q).page start most).filterMap (s.queue k q).entry) := by
      have hget : found.mapM (fun at' => s.get (k.kinds.entry, .pair q at'.1)) =
          .ok (found.map fun at' => s.records (k.kinds.entry, .pair q at'.1)) :=
        mapM_eq_map fun at' _ => hs.proper.get _
      have hpage : (s.queue k q).page start most = found.map Prod.fst := by
        rw [hfound, Numbered.page, Numbered.page, Numbered.from_max horderly]
      rw [Queue.entriesAt, hget, hpage]
      simp only [bind, Except.bind, pure, Except.pure, List.filterMap_map, Function.id_comp]
      rfl
    have hhead := Queue.firstHeld_ok hs hk hq hfirst hfound
    rw [if_neg hcount, List.headD_eq_head?_getD]
    by_cases hmost : most = 0
    · rw [if_pos hmost] at hok ⊢
      obtain rfl : [] = found := Except.ok.inj hok
      simp only [pure, Except.pure, hhead, hentries]
    · rw [if_neg hmost] at hok ⊢
      simp only [pure, Except.pure, hok, hhead, hentries]

end Page

end XmipPersist
