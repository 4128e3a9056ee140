import XmipPersist.Model.Query
import XmipPersist.Verification.Index.Range
import XmipPersist.Verification.Index.Runs

/-! # What an index finds by values equal and a span of the next

A range of an index from one key to another is the entries between, in the order of the numbers
they hold after what they open with. So the records found are those that have the values asked,
and whose next is within the span, in its order.
-/

namespace XmipPersist

/-! ## A range of entries that open alike -/

section Between

variable {s : Store} {pre lo hi : IndexKey} {count : ℕ}

/-- Where every entry of a range holds so many numbers after `pre`, what the range finds is in
their order, or the reverse of it, and so many at most. -/
theorem Store.between_ordered
    (hopens : ∀ key id, s.entries.get key = some id → lo ≤ key → key ≤ hi →
      ∃ vs, Numbers count vs id ∧ key = orderedKey pre vs id) :
    ∃ found : List (List ℕ × ℕ), found.Pairwise Before ∧
      (∀ vs id, (vs, id) ∈ found ↔ Numbers count vs id ∧
        s.entries.get (orderedKey pre vs id) = some id ∧
          lo ≤ orderedKey pre vs id ∧ orderedKey pre vs id ≤ hi) ∧
      ∀ most reverse, (s.entries.range lo hi most reverse).map Prod.snd =
        ((if reverse then found.reverse else found).take most).map Prod.snd := by
  have hall : ∀ e ∈ s.entries.between lo hi, ∃ vs, Numbers count vs e.2 ∧
      e.1 = orderedKey pre vs e.2 := by
    intro e he
    obtain ⟨hget, hlo, hhi⟩ := OrderedMap.mem_between.mp he
    exact hopens e.1 e.2 hget hlo hhi
  choose! values hvalues hkeys using hall
  refine ⟨(s.entries.between lo hi).map fun e => (values e, e.2), ?_, fun vs id => ?_,
    fun most reverse => ?_⟩
  · rw [List.pairwise_map]
    refine (s.entries.between_ascending lo hi).imp_of_mem fun {a b} ha hb hab => ?_
    rw [hkeys a ha, hkeys b hb] at hab
    exact (orderedKey_lt_iff (hvalues a ha) (hvalues b hb)).mp hab
  · constructor
    · intro hmem
      obtain ⟨e, he, heq⟩ := List.mem_map.mp hmem
      obtain ⟨rfl, rfl⟩ := Prod.mk.inj heq
      obtain ⟨hget, hrange⟩ := OrderedMap.mem_between.mp he
      rw [hkeys e he] at hrange hget
      exact ⟨hvalues e he, hget, hrange⟩
    · rintro ⟨hv, hget, hrange⟩
      have he : (orderedKey pre vs id, id) ∈ s.entries.between lo hi :=
        OrderedMap.mem_between.mpr ⟨hget, hrange⟩
      have hsame := orderedKey_inj hv (hvalues _ he) (hkeys _ he)
      exact List.mem_map.mpr ⟨_, he, by rw [← hsame.1]⟩
  · have hids : ∀ es : List (IndexKey × ℕ),
        (es.map fun e => (values e, e.2)).map Prod.snd = es.map Prod.snd := by
      intro es
      rw [List.map_map]
      rfl
    rw [OrderedMap.range_eq]
    cases reverse with
    | false =>
        simp only [Bool.false_eq_true, if_false]
        rw [← List.map_take, hids]
    | true =>
        simp only [if_true]
        rw [← List.map_reverse, ← List.map_take, hids]

end Between

/-! ## Values asked of an index -/

/-- A value a span is of: a time or a count. -/
def Value.Counts (time : ℕ) (v : Value) : Prop := v = .time time ∨ v = .count time

/-- The values an entry has where it is asked by its first ones equal, and by the span of the
next. -/
def Value.Asked (equal : List Value) (span : Option (ℕ × ℕ)) (time : ℕ) (values : List Value) :
    Prop :=
  match span with
  | none => values = equal ∧ time = 0
  | some (first, last) =>
      (∃ v, v.Counts time ∧ values = equal ++ [v]) ∧ first ≤ time ∧ time ≤ last

/-- Values to ask an index by, within their bounds: of its first columns, and a span of the one
left, where one is. -/
structure Index.Asks (index : Index) (equal : List Value) (span : Option (ℕ × ℕ)) : Prop where
  shape : equal.map Value.shape = (index.columns.take equal.length).map Column.shape
  fits : ∀ v ∈ equal, v.Fits
  columns : match span with
    | none => index.columns.length = equal.length
    | some (first, last) => first ≤ u64Max ∧ last ≤ u64Max ∧
        ∃ column, index.columns = index.columns.take equal.length ++ [column] ∧
          (column.shape = .time ∨ column.shape = .count)

section Find

variable {numbers : Set ℕ} {s : Store} {searched : Searched} {index : Index} {equal : List Value}
  {span : Option (ℕ × ℕ)}

theorem Index.Asks.length_le (h : index.Asks equal span) :
    equal.length ≤ index.columns.length := by
  have hshape := congrArg List.length h.shape
  simp only [List.length_map, List.length_take] at hshape
  omega

theorem Index.Asks.key_eq (h : index.Asks equal span) {values : List Value} {id time : ℕ}
    (hvalues : Value.Asked equal span time values) :
    index.key values id =
      orderedKey (index.opens equal) (if span.isSome then [time] else []) id := by
  have htake : equal.take index.columns.length = equal := List.take_of_length_le h.length_le
  cases span with
  | none =>
      obtain ⟨rfl, -⟩ := hvalues
      simp [Index.key, orderedKey, Index.opens, htake]
  | some ends =>
      obtain ⟨⟨v, hv, rfl⟩, -⟩ := hvalues
      have hencoded : encoded v = bigEndian 8 time := by
        rcases hv with rfl | rfl <;> rfl
      simp [Index.key, orderedKey, Index.opens, htake, hencoded]

theorem Index.Asks.opens (h : index.Asks equal span) {values : List Value} {id : ℕ}
    (hshape : values.map Value.shape = index.columns.map Column.shape)
    (hfits : ∀ v ∈ values, v.Fits) (hopens : index.opens equal <+: index.key values id) :
    match span with
    | none => values = equal
    | some _ => ∃ v time, v.Counts time ∧ values = equal ++ [v] := by
  have htake : values.take equal.length = equal := by
    obtain ⟨rest, hrest⟩ := hopens
    have hbegins : (values.take equal.length).map Value.shape = equal.map Value.shape := by
      rw [List.map_take, hshape, h.shape, List.map_take]
    have hkey : equal.flatMap encoded ++ rest = (values.take equal.length).flatMap encoded ++
        ((values.drop equal.length).flatMap encoded ++ bigEndian 16 id) := by
      have hvalues : values.flatMap encoded = (values.take equal.length).flatMap encoded ++
          (values.drop equal.length).flatMap encoded := by
        rw [← List.flatMap_append, List.take_append_drop]
      rw [Index.opens, List.take_of_length_le h.length_le] at hrest
      simp only [Index.key, List.cons_append, List.cons.injEq, true_and] at hrest
      rw [hrest, hvalues, List.append_assoc]
    exact (values_append_inj hbegins.symm h.fits
      (fun v hv => hfits v (List.mem_of_mem_take hv)) hkey).1.symm
  have hlength : values.length = index.columns.length := by
    simpa using congrArg List.length hshape
  have hcolumns := h.columns
  cases span with
  | none =>
      have hall : values.take equal.length = values := by
        apply List.take_of_length_le
        rw [hlength, hcolumns]
      exact hall.symm.trans htake
  | some ends =>
      obtain ⟨-, -, column, hlast, hcolumn⟩ := hcolumns
      have hone : ∃ v, values.drop equal.length = [v] := by
        apply List.length_eq_one_iff.mp
        have hsum := congrArg List.length hlast
        have hle := h.length_le
        simp only [List.length_append, List.length_take, List.length_singleton] at hsum
        rw [List.length_drop, hlength]
        omega
      obtain ⟨v, hv⟩ := hone
      have hsplit : values = equal ++ [v] := by
        rw [← hv, ← htake, List.length_take]
        rw [min_eq_left (by rw [hlength]; exact h.length_le), List.take_append_drop]
      have hvshape : v.shape = column.shape := by
        rw [hsplit, hlast, List.map_append, List.map_append] at hshape
        have hlasts := (List.append_inj_right' hshape rfl)
        simpa using hlasts
      refine ⟨v, ?_⟩
      cases v with
      | time n => exact ⟨n, .inl rfl, hsplit⟩
      | count n => exact ⟨n, .inr rfl, hsplit⟩
      | flag | text | id | bytes =>
          rcases hcolumn with hcolumn | hcolumn <;> rw [hcolumn] at hvshape <;> cases hvshape

/-- A record with the values asked of it, and its entry in the index. -/
def Store.Answers (s : Store) (searched : Searched) (index : Index) (equal : List Value)
    (span : Option (ℕ × ℕ)) (time id : ℕ) : Prop :=
  ∃ p content row values, s.records p = some content ∧
    Entered p content (index.key values id) searched row index values id ∧
      Value.Asked equal span time values

theorem Store.Sound.opened (hs : s.Sound numbers) (hindex : index ∈ searched.indexes)
    (hn : index.number ∈ numbers) (h : index.Asks equal span) {key : IndexKey} {id : ℕ}
    (hget : s.entries.get key = some id) (hopens : index.opens equal <+: key) :
    ∃ p content row values, s.records p = some content ∧
      Entered p content key searched row index values id ∧
      ∃ vs, Numbers span.toList.length vs id ∧ key = orderedKey (index.opens equal) vs id ∧
        match span with
        | none => values = equal ∧ vs = []
        | some _ => ∃ v time, v.Counts time ∧ values = equal ++ [v] ∧ vs = [time] := by
  have hhead : key.head? = some index.number := by
    obtain ⟨rest, rfl⟩ := hopens
    rfl
  obtain ⟨p, content, row, values, hp, hentered⟩ := hs.entered_of_get hindex hn hget hhead
  obtain ⟨-, hid, hfits⟩ := hs.get_entered hp hentered hn
  have hshape : values.map Value.shape = index.columns.map Column.shape :=
    (Searched.row_shaped hentered.laid).values hentered.holds
  refine ⟨p, content, row, values, hp, hentered, ?_⟩
  rw [hentered.told] at hopens ⊢
  have hvalues := h.opens hshape hfits hopens
  have htake := List.take_of_length_le h.length_le
  cases span with
  | none =>
      obtain rfl : values = equal := hvalues
      refine ⟨[], ⟨rfl, by simp, hid⟩, ?_, rfl, rfl⟩
      simp [Index.key, orderedKey, Index.opens, htake]
  | some ends =>
      obtain ⟨v, time, hv, rfl⟩ := hvalues
      have hencoded : encoded v = bigEndian 8 time := by
        rcases hv with rfl | rfl <;> rfl
      have hbound : time ≤ u64Max := by
        have hlast := hfits v (by simp)
        rcases hv with rfl | rfl <;> exact hlast
      refine ⟨[time], ⟨rfl, by simpa using hbound, hid⟩, ?_, v, time, hv, rfl, rfl⟩
      simp [Index.key, orderedKey, Index.opens, htake, hencoded]

theorem Store.Sound.found_between (hs : s.Sound numbers) (hindex : index ∈ searched.indexes)
    (hn : index.number ∈ numbers) (h : index.Asks equal span) {lo hi : IndexKey}
    (hopens : ∀ key, lo ≤ key → key ≤ hi → index.opens equal <+: key)
    (hends : ∀ vs id, Numbers span.toList.length vs id →
      (lo ≤ orderedKey (index.opens equal) vs id ∧ orderedKey (index.opens equal) vs id ≤ hi ↔
        ∀ ends ∈ span, ∀ v ∈ vs, ends.1 ≤ v ∧ v ≤ ends.2)) :
    ∃ found : List (ℕ × ℕ),
      found.Pairwise (fun a b => a.1 < b.1 ∨ a.1 = b.1 ∧ a.2 < b.2) ∧
      (∀ time id, (time, id) ∈ found ↔ s.Answers searched index equal span time id) ∧
      ∀ most reverse, (s.entries.range lo hi most reverse).map Prod.snd =
        ((if reverse then found.reverse else found).take most).map Prod.snd := by
  have hshape : ∀ key id, s.entries.get key = some id → lo ≤ key → key ≤ hi →
      ∃ vs, Numbers span.toList.length vs id ∧ key = orderedKey (index.opens equal) vs id := by
    intro key id hget hlo hhi
    obtain ⟨-, -, -, -, -, -, vs, hvs, hkey, -⟩ :=
      hs.opened hindex hn h hget (hopens key hlo hhi)
    exact ⟨vs, hvs, hkey⟩
  obtain ⟨found, hordered, hmem, hread⟩ := Store.between_ordered hshape
  refine ⟨found.map fun e => (e.1.headD 0, e.2), ?_, fun time id => ?_, fun most reverse => ?_⟩
  · rw [List.pairwise_map]
    refine hordered.imp_of_mem fun {a b} ha hb hab => ?_
    have hlength := ((hmem a.1 a.2).mp ha).1.length
    have hlength' := ((hmem b.1 b.2).mp hb).1.length
    obtain ⟨vs, id⟩ := a
    obtain ⟨vs', id'⟩ := b
    cases span with
    | none =>
        obtain rfl := List.length_eq_zero_iff.mp hlength
        obtain rfl := List.length_eq_zero_iff.mp hlength'
        simpa [Before] using hab
    | some ends =>
        obtain ⟨v, rfl⟩ := List.length_eq_one_iff.mp hlength
        obtain ⟨v', rfl⟩ := List.length_eq_one_iff.mp hlength'
        simpa [Before, List.cons_lt_cons_iff] using hab
  · constructor
    · intro hfound
      obtain ⟨⟨vs, id'⟩, he, heq⟩ := List.mem_map.mp hfound
      obtain ⟨rfl, rfl⟩ := Prod.mk.inj heq
      obtain ⟨hvs, hget, hrange⟩ := (hmem vs id').mp he
      have hspan := (hends vs id' hvs).mp hrange
      have hprefix := hopens _ hrange.1 hrange.2
      obtain ⟨p, content, row, values, hp, hentered, vs', hvs', hkey, hvalues⟩ :=
        hs.opened hindex hn h hget hprefix
      obtain ⟨rfl, -⟩ := orderedKey_inj hvs hvs' hkey
      rw [hentered.told] at hentered
      refine ⟨p, content, row, values, hp, hentered, ?_⟩
      cases span with
      | none => exact ⟨hvalues.1, by simp [hvalues.2]⟩
      | some ends =>
          obtain ⟨v, time, hv, hequal, rfl⟩ := hvalues
          exact ⟨⟨v, hv, hequal⟩, hspan ends rfl time (by simp)⟩
    · rintro ⟨p, content, row, values, hp, hentered, hasked⟩
      obtain ⟨hget, hid, -⟩ := hs.get_entered hp hentered hn
      rw [h.key_eq hasked] at hget
      have hcolumns := h.columns
      have hvs : Numbers span.toList.length (if span.isSome then [time] else []) id ∧
          ∀ ends ∈ span, ∀ v ∈ (if span.isSome then [time] else []), ends.1 ≤ v ∧ v ≤ ends.2 := by
        cases span with
        | none => exact ⟨⟨rfl, by simp, hid⟩, by simp⟩
        | some ends =>
            obtain ⟨-, hfirst, hlast⟩ := hasked
            have hbound : time ≤ u64Max := hlast.trans hcolumns.2.1
            refine ⟨⟨rfl, by simpa using hbound, hid⟩, ?_⟩
            intro ends' hends' v hv
            cases hends'
            obtain rfl : v = time := by simpa using hv
            exact ⟨hfirst, hlast⟩
      have he := (hmem _ id).mpr ⟨hvs.1, hget, (hends _ id hvs.1).mpr hvs.2⟩
      refine List.mem_map.mpr ⟨_, he, ?_⟩
      cases span with
      | none => simp [hasked.2]
      | some ends => rfl
  · have hids : ∀ es : List (List ℕ × ℕ),
        (es.map fun e => (e.1.headD 0, e.2)).map Prod.snd = es.map Prod.snd := by
      intro es
      rw [List.map_map]
      rfl
    rw [hread]
    cases reverse with
    | false =>
        simp only [Bool.false_eq_true, if_false]
        rw [← List.map_take, hids]
    | true =>
        simp only [if_true]
        rw [← List.map_reverse, ← List.map_take, hids]

/-- What an index finds by values equal and a span of the next is the records that have those
values, each once, in the order of the time asked and then of their identifiers, or the reverse:
so many of them at most. -/
theorem Store.Sound.find_ok (hs : s.Sound numbers) (hindex : index ∈ searched.indexes)
    (hn : index.number ∈ numbers) (h : index.Asks equal span) :
    ∃ found : List (ℕ × ℕ),
      found.Pairwise (fun a b => a.1 < b.1 ∨ a.1 = b.1 ∧ a.2 < b.2) ∧
      (∀ time id, (time, id) ∈ found ↔ s.Answers searched index equal span time id) ∧
      ∀ most reverse, index.find s equal span most reverse =
        ((if reverse then found.reverse else found).take most).map Prod.snd := by
  cases span with
  | none =>
      have hends : ∀ (vs : List ℕ) id, Numbers 0 vs id →
          (index.opens equal ≤ orderedKey (index.opens equal) vs id ∧
            orderedKey (index.opens equal) vs id ≤ index.opens equal ++ tops 64 ↔
              ∀ ends ∈ (none : Option (ℕ × ℕ)), ∀ v ∈ vs, ends.1 ≤ v ∧ v ≤ ends.2) := by
        intro vs id hvs
        obtain rfl := List.length_eq_zero_iff.mp hvs.length
        have hfirst : index.opens equal ++ [].flatMap (bigEndian 8) ≤
            orderedKey (index.opens equal) [] id ↔ ([] : List ℕ) ≤ [] :=
          le_orderedKey_iff hvs (Nat.zero_le _) (by simp)
        have hlast : bigEndian 16 id ≤ tops 64 :=
          le_replicate (fun x hx => le_of_mem_bigEndian hx) (by simp)
        refine ⟨fun _ => by simp, fun _ => ⟨by simpa using hfirst, ?_⟩⟩
        simpa [orderedKey] using append_left_le_iff.mpr hlast
      refine hs.found_between hindex hn h (fun key hlo hhi => ?_) hends
      have hlo' : index.opens equal ++ [] ≤ key := by simpa using hlo
      exact prefix_of_between hlo' hhi
  | some ends =>
      obtain ⟨first, last⟩ := ends
      obtain ⟨hfirst, hlast, -⟩ := h.columns
      by_cases hempty : last < first
      · refine ⟨[], .nil, fun time id => ?_, fun most reverse => ?_⟩
        · simp only [List.not_mem_nil, false_iff]
          rintro ⟨p, content, row, values, -, -, -, hle, hle'⟩
          omega
        · have hrange : index.range equal (some (first, last)) = none := by
            simp [Index.range, hempty]
          simp [Index.find, hrange]
      · have hends : ∀ (vs : List ℕ) id, Numbers 1 vs id →
            (index.opens equal ++ bigEndian 8 first ≤ orderedKey (index.opens equal) vs id ∧
              orderedKey (index.opens equal) vs id ≤
                index.opens equal ++ bigEndian 8 last ++ tops 17 ↔
                ∀ ends ∈ some (first, last), ∀ v ∈ vs, ends.1 ≤ v ∧ v ≤ ends.2) := by
          intro vs id hvs
          obtain ⟨v, rfl⟩ := List.length_eq_one_iff.mp hvs.length
          have hlo : index.opens equal ++ [first].flatMap (bigEndian 8) ≤
              orderedKey (index.opens equal) [v] id ↔ [first] ≤ [v] :=
            le_orderedKey_iff hvs le_rfl (by simpa using hfirst)
          have hhi : orderedKey (index.opens equal) [v] id ≤
              index.opens equal ++ bigEndian 8 last ++ tops 17 ↔ v ≤ last :=
            orderedKey_le_iff hvs hlast
          rw [List.flatMap_singleton] at hlo
          rw [hlo, hhi, ← not_lt, List.cons_lt_cons_iff]
          simp
        have hrange : index.range equal (some (first, last)) = some
            (index.opens equal ++ bigEndian 8 first,
              index.opens equal ++ bigEndian 8 last ++ tops 17) := by
          simp [Index.range, hempty]
        simp only [Index.find, hrange]
        refine hs.found_between hindex hn h (fun key hlo hhi => ?_) hends
        rw [List.append_assoc] at hhi
        exact prefix_of_between hlo hhi

end Find

end XmipPersist
