import XmipPersist.Verification.Queue.Page
import XmipPersist.Verification.Claim.Repeat

/-! # Every queue is kept as it is read

In every state a run reaches, each queue counts its entries, bounds and finds them, and its
pages are its entries.
-/

namespace XmipPersist

variable {digest : Publication → Bytes}

/-! ## Pages -/

/-- The place an entry says. -/
def Content.sequence : Content → ℕ
  | .held entry => entry.sequence
  | .failed entry => entry.sequence
  | .dead entry => entry.sequence
  | _ => 0

theorem Content.Seated.sequence {q n : ℕ} {content : Content} (h : content.Seated q n) :
    content.sequence = n := by
  cases content <;> first | exact h.elim | exact h.2

/-- So many pages of a queue, each read from the place after the last one's last entry. -/
def Queue.pages (kinds : Kinds) (queue most : ℕ) (s : Store) :
    ℕ → ℕ → Except PersistError (List Content)
  | 0, _ => .ok []
  | rounds + 1, start => do
      let page ← Queue.page kinds queue start most s
      match page.2.getLast? with
      | none => pure []
      | some last => do
          let rest ← pages kinds queue most s rounds (last.sequence + 1)
          pure (page.2 ++ rest)

section Pages

variable {numbers : Set ℕ} {s : Store} {k : Queues} {q : ℕ}

/-- Every place of a page is an entry's. -/
theorem Store.Sound.entries_map (hs : s.Sound numbers) {places : List ℕ}
    (h : ∀ n ∈ places, n ∈ (s.queue k q).held) :
    (places.filterMap (s.queue k q).entry).map Content.sequence = places := by
  induction places with
  | nil => rfl
  | cons n places ih =>
      obtain ⟨content, hcontent⟩ := (Numbered.mem_held (hs.orderly k q)).mp (h n (by simp))
      rw [List.filterMap_cons_some hcontent, List.map_cons, ih fun m hm => h m (by simp [hm]),
        ((hs.orderly k q).belongs n content hcontent).sequence]

theorem Queue.pages_ok (hs : s.Sound numbers) (hk : k.kinds.index.number ∈ numbers)
    (hq : q < 256 ^ 16) (hnext : (s.queue k q).next ≤ u64Max) (most rounds start : ℕ)
    (hstart : start ≤ u64Max) :
    Queue.pages k.kinds q most s rounds start =
      .ok (((s.queue k q).pages most rounds start).filterMap (s.queue k q).entry) := by
  induction rounds generalizing start with
  | zero => rfl
  | succ rounds ih =>
      have hheld : ∀ n ∈ (s.queue k q).page start most, n ∈ (s.queue k q).held := fun n hn =>
        (Numbered.mem_from.mp (List.mem_of_mem_take hn)).1
      have hplaces := hs.entries_map hheld
      rw [Queue.pages, Queue.page_ok hs hk hq hstart, Numbered.pages]
      simp only [bind, Except.bind]
      cases hlast : ((s.queue k q).page start most).getLast? with
      | none =>
          have hnil : (s.queue k q).page start most = [] := List.getLast?_eq_none_iff.mp hlast
          simp [hnil, pure, Except.pure]
      | some last =>
          have hsequence : ((((s.queue k q).page start most).filterMap
              (s.queue k q).entry).getLast?).map Content.sequence = some last := by
            rw [← List.getLast?_map, hplaces, hlast]
          obtain ⟨content, hcontent, hlast'⟩ := Option.map_eq_some_iff.mp hsequence
          have hmem := (Numbered.mem_held (hs.orderly k q)).mp
            (hheld last (List.mem_of_getLast? hlast))
          obtain ⟨e, he⟩ := hmem
          have hbounds := (hs.orderly k q).bounds last e he
          simp only [hcontent, hlast', ih (last + 1) (by omega), pure, Except.pure,
            List.filterMap_append]

end Pages

/-! ## Within the bounds a queue is read by -/

theorem Queues.columns_subset (k : Queues) :
    columnsOf {k.kinds.index.number} ⊆ {.queue, .sequence} := by
  refine (columnsOf_index k.index_mem).trans fun column hcolumn => ?_
  cases k <;> simpa [Queues.kinds, Hold.kinds, Failed.kinds, Dead.kinds] using hcolumn

/-! ## Every reachable state -/

/-- A queue of a store, kept and read as it should be. -/
structure QueueKept (s : Store) (k : Queues) (q : ℕ) : Prop where
  count : (s.queue k q).count = (s.queue k q).held.card
  bounds : ∀ n content, (s.queue k q).entry n = some content →
    (s.queue k q).first ≤ n ∧ n < (s.queue k q).next
  index : ∀ about n, (s.queue k q).index about = some (some n) ↔
    ∃ content, (s.queue k q).entry n = some content ∧ content.about = about
  remembered : ∀ about, (s.queue k q).index about = some none → k = .dead
  empty : (s.queue k q).count = 0 → (s.queue k q).first = (s.queue k q).next
  page : ∀ start ≤ u64Max, ∀ most, Queue.page k.kinds q start most s =
    .ok (⟨((s.queue k q).from' 0).headD (s.queue k q).next, (s.queue k q).next,
        (s.queue k q).count⟩,
      ((s.queue k q).page start most).filterMap (s.queue k q).entry)
  pages : ∀ most, 0 < most → ∀ rounds, (s.queue k q).count ≤ rounds * most →
    Queue.pages k.kinds q most s rounds 0 =
      .ok (((s.queue k q).from' 0).filterMap (s.queue k q).entry)

theorem Store.Sound.queueKept {numbers : Set ℕ} {s : Store} (hs : s.Sound numbers) {k : Queues}
    (hk : k.kinds.index.number ∈ numbers) {q : ℕ} (hq : q < 256 ^ 16) : QueueKept s k q where
  count := (hs.orderly k q).count
  bounds := (hs.orderly k q).bounds
  index := (hs.orderly k q).index
  empty := (hs.orderly k q).empty
  remembered about h := by
    simp only [View.queue] at h
    cases hfound : s.records (k.kinds.by', .pair q about) with
    | none =>
        rw [hfound] at h
        cases h
    | some content =>
        have hholds := hs.proper _ _ hfound
        rw [hfound] at h
        cases k <;> cases content <;> first | exact hholds.elim | rfl | cases h
  page start hstart most := Queue.page_ok hs hk hq hstart most
  pages most hmost rounds hrounds := by
    rw [Queue.pages_ok hs hk hq (hs.next_fits k q) most rounds 0 (Nat.zero_le _), Numbered.pages_eq hmost,
      List.take_of_length_le]
    have hlen : ((s.queue k q).from' 0).length = (s.queue k q).count := by
      rw [(hs.orderly k q).count, Numbered.from', Finset.length_sort]
      simp
    omega

/-- In every state a run from nothing reaches, every queue is kept and read as it should be, and
whatever is written after it gives no place of one again. -/
theorem queue_kept {w : Writer} {steps more : List Step} (hmade : ∀ s ∈ steps ++ more, s.Made)
    (hw : w.store = .empty) (hfits : w.Fits digest {.queue, .sequence} (steps ++ more))
    (k : Queues) {q : ℕ} (hq : q < 256 ^ 16) :
    QueueKept (w.run digest steps).store k q ∧
      Numbered.Later Content.about ((w.run digest steps).store.queue k q)
        ((w.run digest (steps ++ more)).store.queue k q) := by
  have hsound : w.store.Sound {k.kinds.index.number} := by
    rw [hw]
    exact Store.empty_sound _
  have hfits' := hfits.mono k.columns_subset
  have hsteps : w.Fits digest (columnsOf {k.kinds.index.number}) steps := fun r hr =>
    hfits' r (by rw [Writer.ruled_append]; exact List.mem_append_left _ hr)
  have hmore : (w.run digest steps).Fits digest (columnsOf {k.kinds.index.number}) more :=
    fun r hr => hfits' r (by rw [Writer.ruled_append]; exact List.mem_append_right _ hr)
  have hmid : (w.run digest steps).store.Sound {k.kinds.index.number} :=
    Writer.run_sound (fun s hs => hmade s (by simp [hs])) hsound hsteps
  refine ⟨hmid.queueKept rfl hq, ?_⟩
  have hrun : w.run digest (steps ++ more) = (w.run digest steps).run digest more := by
    simp [Writer.run]
  have hlater : Numbered.Later Content.about ((w.run digest steps).store.view.queue k q)
      (((w.run digest steps).run digest more).store.view.queue k q) :=
    Writer.run_later (fun s hs => hmade s (by simp [hs])) hmid hmore k q
  rw [hrun]
  rw [Store.queue_bare, Store.queue_bare] at hlater
  exact hlater.of_map Content.about_bare

/-- A Message is published to a Dead Message Queue with a Journey held, and replayed; then another
takes the next place. -/
def deadThenReplayed : List Step :=
  let at' (now : ℤ) (op : Op) : Step := .group ⟨now, 3, .asWritten, none⟩ [op]
  [at' 0 (.publish { message := { message := 1 }, dead := some { queue := 5, message := 1 },
                      audit := { id := 9 } }),
    at' 1 (.replay { queue := 5, message := 1, held := [{ queue := 5, journey := 2 }],
                     audit := { id := 10 } })]

/-- Another Message takes the next place of the queue. -/
def thenAnother : List Step :=
  [.group ⟨2, 3, .asWritten, none⟩
    [.publish { message := { message := 3 }, dead := some { queue := 5, message := 3 },
                audit := { id := 11 } }]]

theorem queue_kept_replayed :
    QueueKept (Writer.fresh.run (fun _ => []) deadThenReplayed).store .dead 5 ∧
      Numbered.Later Content.about
        ((Writer.fresh.run (fun _ => []) deadThenReplayed).store.queue .dead 5)
        ((Writer.fresh.run (fun _ => []) (deadThenReplayed ++ thenAnother)).store.queue .dead 5) :=
  queue_kept (by simp [deadThenReplayed, thenAnother, Step.Made, Op.Made]) rfl (by decide +kernel)
    .dead (by decide)

end XmipPersist
