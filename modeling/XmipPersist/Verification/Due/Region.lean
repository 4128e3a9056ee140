import XmipPersist.Verification.Queue.Page

/-! # The part of a queue's index by when each is due

The index keeps each entry of a queue by whether it failed, when it is due and its place. So a
range of it is the entries of that part between two due times and places, in that order.
-/

namespace XmipPersist

/-! ## What is held, and where the index keeps it -/

/-- An entry a queue holds at its place. -/
def Store.holds (s : Store) (q : ℕ) (held : Held) : Prop :=
  s.records (.held, .pair q held.sequence) = some (.held held)

/-- Where the index keeps an entry: its due time, then its place. -/
def Held.rank (held : Held) : ℕ ×ₗ ℕ := toLex (held.dueAt, held.sequence)

theorem pair_lt_iff {a b c d : ℕ} : ([a, b] : List ℕ) < [c, d] ↔ toLex (a, b) < toLex (c, d) := by
  rw [List.cons_lt_cons_iff, List.cons_lt_cons_iff, Prod.Lex.toLex_lt_toLex]
  simp

section Index

variable {numbers : Set ℕ} {s : Store} {q : ℕ} {held : Held} {failed : Bool}

/-- What is held in a queue at a place is an entry that says so. -/
theorem Store.Sound.holds (hs : s.Sound numbers) {n : ℕ} {content : Content}
    (h : s.records (.held, .pair q n) = some content) :
    ∃ held : Held, content = .held held ∧ held.hold.queue = q ∧ held.sequence = n := by
  have hseated : Queues.held.Entry content ∧ content.Seated q n := hs.seated (k := .held) h
  obtain ⟨⟨held, rfl⟩, hqueue, hsequence⟩ := hseated
  exact ⟨held, rfl, hqueue, hsequence⟩

theorem Store.Sound.holds_queue (hs : s.Sound numbers) (h : s.holds q held) :
    held.hold.queue = q := by
  obtain ⟨held', heq, hqueue, -⟩ := hs.holds h
  rw [Content.held.inj heq, hqueue]

theorem Due.index_mem : Due.index ∈ Searched.held.indexes := by decide

theorem Due.columns_subset :
    columnsOf {Due.index.number} ⊆ {.queue, .failed, .dueAt, .sequence} := by
  refine (columnsOf_index Due.index_mem).trans fun column hcolumn => ?_
  simpa [Due.index] using hcolumn

/-- The entry the index keeps of what is held. -/
theorem Due.entered (hqueue : held.hold.queue = q) :
    ∃ row, Entered (.held, .pair q held.sequence) (.held held)
      (Due.index.key [.id q, .flag held.failed, .time held.dueAt, .count held.sequence]
        held.hold.journey) .held row Due.index
      [.id q, .flag held.failed, .time held.dueAt, .count held.sequence] held.hold.journey := by
  subst hqueue
  exact ⟨_, rfl, rfl, Due.index_mem, rfl, rfl, rfl⟩

theorem Due.orderedKey_rank (q : ℕ) (failed : Bool) (due n id : ℕ) :
    orderedKey (Due.index.opens [.id q, .flag failed]) [due, n] id =
      Due.index.key [.id q, .flag failed, .time due, .count n] id := by
  simp [orderedKey, Due.index, Index.opens, Index.key, encoded]

/-- What is held is found by when it is due. -/
theorem Store.Sound.dueFound (hs : s.Sound numbers) (hn : Due.index.number ∈ numbers)
    (h : s.holds q held) :
    Numbers 2 [held.dueAt, held.sequence] held.hold.journey ∧
      s.entries.get (orderedKey (Due.index.opens [.id q, .flag held.failed])
        [held.dueAt, held.sequence] held.hold.journey) = some held.hold.journey := by
  obtain ⟨row, hentered⟩ := Due.entered (hs.holds_queue h)
  obtain ⟨hget, hid, hvalues⟩ := hs.get_entered h hentered hn
  refine ⟨⟨rfl, ?_, hid⟩, by rw [Due.orderedKey_rank]; exact hget⟩
  intro v hv
  rcases List.mem_pair.mp hv with rfl | rfl
  · exact hvalues (.time held.dueAt) (by simp)
  · exact hvalues (.count held.sequence) (by simp)

/-- An entry that opens with a part of a queue in the index is of one held in that part. -/
theorem Store.Sound.duePlaced (hs : s.Sound numbers) (hn : Due.index.number ∈ numbers)
    (hq : q < 256 ^ 16) {key : IndexKey} {id : ℕ} (hget : s.entries.get key = some id)
    (hopens : Due.index.opens [.id q, .flag failed] <+: key) :
    ∃ held, s.holds q held ∧ held.failed = failed ∧ held.hold.journey = id ∧
      key = orderedKey (Due.index.opens [.id q, .flag failed]) [held.dueAt, held.sequence] id := by
  obtain ⟨rest, rfl⟩ := hopens
  obtain ⟨p, content, row, values, hp, h⟩ := hs.entered_of_get Due.index_mem hn hget rfl
  have htold : Due.index.opens [.id q, .flag failed] ++ rest = Due.index.key values id := h.told
  obtain ⟨kind, key⟩ := p
  obtain rfl : kind = .held := Searched.kind_eq h.table rfl (by decide)
  obtain ⟨q', n, rfl⟩ : ∃ q' n, key = .pair q' n :=
    Kind.holds_pair (k := .held) (hs.proper _ _ hp)
  obtain ⟨held, rfl, hqueue, rfl⟩ := hs.holds hp
  obtain ⟨row', h'⟩ := Due.entered hqueue
  obtain ⟨rfl, rfl⟩ := Prod.mk.inj (Except.ok.inj (h.laid.symm.trans h'.laid))
  obtain rfl := Option.some.inj (h.holds.symm.trans h'.holds)
  have hq' : q' < 256 ^ 16 := (hs.get_entered hp h hn).2.2 (.id q') (by simp)
  have hbytes : bigEndian 16 q ++ ([failed.toNat] ++ rest) =
      bigEndian 16 q' ++ ([held.failed.toNat] ++ (bigEndian 8 held.dueAt ++
        (bigEndian 8 held.sequence ++ bigEndian 16 held.hold.journey))) := by
    simpa [Due.index, Index.opens, Index.key, encoded] using htold
  obtain ⟨hqueue', hrest⟩ := List.append_inj hbytes (by simp)
  obtain rfl := (bigEndian_inj hq hq').mp hqueue'
  have hflag : held.failed = failed := by
    have hnat := (List.cons.inj hrest).1
    cases hf : held.failed <;> cases failed <;> first | rfl | simp [hf] at hnat
  subst hflag
  exact ⟨held, hp, rfl, rfl, by rw [htold, Due.orderedKey_rank]⟩

end Index

/-! ## A range of it -/

namespace Due

variable {numbers : Set ℕ} {s : Store} {q : ℕ}

/-- What a range finds, in its order. -/
theorem region_found (hs : s.Sound numbers) (hn : index.number ∈ numbers) (hq : q < 256 ^ 16)
    (failed : Bool) {first : ℕ ×ₗ ℕ} {last : ℕ} (hdue : (ofLex first).1 ≤ u64Max)
    (hplace : (ofLex first).2 ≤ u64Max) (hlast : last ≤ u64Max) :
    ∃ found : List (ℕ ×ₗ ℕ), found.Pairwise (· < ·) ∧
      (∀ at', at' ∈ found ↔ (∃ held, s.holds q held ∧ held.failed = failed ∧ held.rank = at') ∧
        first ≤ at' ∧ (ofLex at').1 ≤ last) ∧
      ∀ most, region s q failed first last most = .ok (found.take most) := by
  have hshape : ∀ key id, s.entries.get key = some id → index.opens [.id q, .flag failed] <+: key →
      ∃ vs, Numbers 2 vs id ∧ key = orderedKey (index.opens [.id q, .flag failed]) vs id := by
    intro key id hget hopens
    obtain ⟨held, hheld, -, rfl, hkey⟩ := hs.duePlaced hn hq hget hopens
    exact ⟨_, (hs.dueFound hn hheld).1, hkey⟩
  have hbounds : ∀ v ∈ [(ofLex first).1, (ofLex first).2], v ≤ u64Max := by
    intro v hv
    rcases List.mem_pair.mp hv with rfl | rfl
    · exact hdue
    · exact hplace
  obtain ⟨found, hasc, hmem, hread⟩ := index.findOrdered_ok (by rfl) hshape
    (List.cons_ne_nil (ofLex first).1 [(ofLex first).2]) (by simp) hbounds hlast
  have hfirst : ∀ due n, [(ofLex first).1, (ofLex first).2] ≤ [due, n] ↔
      first ≤ toLex (due, n) := by
    intro due n
    rw [← not_lt, pair_lt_iff, not_lt]
    rfl
  -- what is found is one entry held each
  have hheld : ∀ e ∈ found, ∃ held, s.holds q held ∧ held.failed = failed ∧
      e = ([held.dueAt, held.sequence], held.hold.journey) := by
    intro e he
    obtain ⟨hvs, hget, -, -⟩ := (hmem e.1 e.2).mp he
    obtain ⟨held, hholds, hfailed, hid, hkey⟩ :=
      hs.duePlaced hn hq hget ⟨_, (List.append_assoc _ _ _).symm⟩
    have hnumbers := (hs.dueFound hn hholds).1
    rw [hid] at hnumbers
    obtain ⟨hvs', -⟩ := orderedKey_inj hvs hnumbers hkey
    exact ⟨held, hholds, hfailed, Prod.ext hvs' hid.symm⟩
  let rank (e : List ℕ × ℕ) : ℕ ×ₗ ℕ := toLex (e.1.headD 0, e.1.tail.headD 0)
  refine ⟨found.map rank, ?_, fun at' => ?_, fun most => ?_⟩
  · rw [List.pairwise_map]
    refine hasc.imp_of_mem fun {a b} ha hb hab => ?_
    obtain ⟨x, hx, -, rfl⟩ := hheld a ha
    obtain ⟨y, hy, -, rfl⟩ := hheld b hb
    rcases hab with hlt | ⟨heq, hlt⟩
    · exact pair_lt_iff.mp hlt
    · -- two entries at one place are one
      obtain ⟨-, hsequence⟩ : x.dueAt = y.dueAt ∧ x.sequence = y.sequence := by simpa using heq
      have hsame : s.holds q x := hx
      rw [Store.holds, hsequence, hy] at hsame
      obtain rfl := Content.held.inj (Option.some.inj hsame)
      exact absurd hlt (lt_irrefl _)
  · rw [List.mem_map]
    constructor
    · rintro ⟨e, he, rfl⟩
      obtain ⟨held, hholds, hfailed, rfl⟩ := hheld e he
      obtain ⟨-, -, hle, hhead⟩ := (hmem _ _).mp he
      exact ⟨⟨held, hholds, hfailed, rfl⟩, (hfirst _ _).mp hle, hhead _ rfl⟩
    · rintro ⟨⟨held, hholds, rfl, rfl⟩, hle, hhead⟩
      obtain ⟨hnumbers, hget⟩ := hs.dueFound hn hholds
      refine ⟨_, (hmem _ _).mpr ⟨hnumbers, hget, (hfirst _ _).mpr hle, ?_⟩, rfl⟩
      intro v hv
      obtain rfl : held.dueAt = v := by simpa using hv
      exact hhead
  · have hmap : (found.take most).mapM dueAndPlace = .ok ((found.take most).map rank) := by
      refine mapM_eq_map fun e he => ?_
      obtain ⟨held, -, -, rfl⟩ := hheld e (List.mem_of_mem_take he)
      rfl
    rw [region, hread, List.map_take.symm.trans rfl]
    exact hmap

/-- A part of a queue's index, read from one due time and place to a due time. -/
theorem region_ok (hs : s.Sound numbers) (hn : index.number ∈ numbers) (hq : q < 256 ^ 16)
    (failed : Bool) :
    ∃ all : OrderedSet (ℕ ×ₗ ℕ),
      (∀ at', at' ∈ all ↔ ∃ held, s.holds q held ∧ held.failed = failed ∧ held.rank = at') ∧
      ∀ (first : ℕ ×ₗ ℕ) (last most : ℕ), (ofLex first).1 ≤ u64Max → (ofLex first).2 ≤ u64Max →
        last ≤ u64Max →
        region s q failed first last most = .ok (all.scan first (toLex (last, u64Max)) most) := by
  have hzero : (ofLex (toLex ((0 : ℕ), (0 : ℕ)))).1 ≤ u64Max := Nat.zero_le _
  obtain ⟨all, hasc, hmem, -⟩ := region_found hs hn hq failed hzero (Nat.zero_le _) le_rfl
  have hbounds : ∀ held, s.holds q held → held.dueAt ≤ u64Max ∧ held.sequence ≤ u64Max := by
    intro held h
    have hnumbers := (hs.dueFound hn h).1
    exact ⟨hnumbers.bounds _ (by simp), hnumbers.bounds _ (by simp)⟩
  have hall : ∀ at', at' ∈ all ↔
      ∃ held, s.holds q held ∧ held.failed = failed ∧ held.rank = at' := by
    intro at'
    rw [hmem]
    constructor
    · exact And.left
    · rintro ⟨held, hheld, hfailed, rfl⟩
      refine ⟨⟨held, hheld, hfailed, rfl⟩, ?_, (hbounds held hheld).1⟩
      exact Prod.Lex.toLex_mono ⟨Nat.zero_le _, Nat.zero_le _⟩
  refine ⟨⟨all, hasc⟩, hall, fun first last most hdue hplace hlast => ?_⟩
  obtain ⟨found, hfound, hrange, hread⟩ := region_found hs hn hq failed hdue hplace hlast
  have heq : found = all.filter fun x => first ≤ x ∧ x ≤ toLex (last, u64Max) := by
    refine hfound.eq_of_mem_iff (hasc.filter _) fun at' => ?_
    rw [hrange, List.mem_filter, hall, decide_eq_true_eq]
    refine and_congr_right fun hheld => and_congr_right fun _ => ?_
    obtain ⟨held, hheld, -, rfl⟩ := hheld
    have hsequence := (hbounds held hheld).2
    rw [Held.rank, Prod.Lex.toLex_le_toLex]
    simp only [ofLex_toLex]
    omega
  rw [hread, heq]
  rfl

end Due

end XmipPersist
