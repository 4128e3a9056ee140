import XmipPersist.Model.AtRest
import XmipPersist.Verification.Encrypted.Place
import XmipPersist.Verification.Wire.Records
import XmipPersist.Verification.Writer.Footprint

/-! # What is kept of a record reads back as it, at its own place

A record within its bounds is read back from what is kept of it, under every kind it is a record
of. No two places are kept alike: their kinds' words or their keys' lengths tell them apart, and of
one kind their keys do.
-/

namespace XmipPersist

open EncryptedStore (utf8)

variable {p : Primitives}

/-! ## The forms that are never sent -/

theorem Standing.numbered_number (standing : Standing) :
    numbered standing.number = .ok standing := by
  cases standing <;> rfl

theorem Stored.forms : Forms p Stored.writeForm (Stored.readForm p) := by
  intro stored h rest
  simp only [writeForm, Sink.fits_all, List.forall_mem_cons] at h
  simp only [writeForm, Sink.sink_all, List.flatten_cons, List.flatten_nil, List.append_nil,
    List.append_assoc]
  rw [readForm, p.run_byte h.1, Standing.numbered_number]
  exact Claim.forms.run h.2.1
    (fun claim => (pure { claim, standing := stored.standing } : Cursor Stored)) rest

theorem Places.forms : Forms p Places.writeForm (Places.readForm p) := by
  intro places h rest
  simp only [writeForm, Sink.fits_all, List.forall_mem_cons] at h
  simp [-bind_pure_comp, -StateT.run_bind, writeForm, readForm, h]
  rfl

theorem DuePlaces.forms : Forms p DuePlaces.writeForm (DuePlaces.readForm p) := by
  intro places h rest
  simp only [writeForm, Sink.fits_all, List.forall_mem_cons] at h
  simp [-bind_pure_comp, -StateT.run_bind, writeForm, readForm, h]
  rfl

theorem Origin.forms : Forms p Origin.writeForm (Origin.readForm p) := by
  intro origin h rest
  simp only [writeForm, Sink.fits_all, List.forall_mem_cons] at h
  simp [-bind_pure_comp, -StateT.run_bind, writeForm, readForm, h]
  rfl

theorem KeptStream.forms : Forms p KeptStream.writeForm (KeptStream.readForm p) := by
  intro row h rest
  simp only [writeForm, Sink.fits_all, List.forall_mem_cons] at h
  simp [-bind_pure_comp, -StateT.run_bind, writeForm, readForm, StreamRecord.forms.run, h]
  rfl

theorem KeptSecret.forms : Forms p KeptSecret.writeForm (KeptSecret.readForm p) := by
  intro secret h rest
  simp only [writeForm, Sink.fits_all, List.forall_mem_cons] at h
  simp [-bind_pure_comp, -StateT.run_bind, writeForm, readForm, h]
  rfl

/-! ## Contents -/

/-- Contents within the bounds of their form's parts. -/
def Content.Bounded : Content → Prop
  | .chunk a => a.writeForm Sink.fits
  | .stream a => a.writeForm Sink.fits
  | .message a => a.writeForm Sink.fits
  | .journey a => a.writeForm Sink.fits
  | .claim a => a.writeForm Sink.fits
  | .audit a => a.writeForm Sink.fits
  | .held a => a.writeForm Sink.fits
  | .dead a => a.writeForm Sink.fits
  | .failed a => a.writeForm Sink.fits
  | .places a => a.writeForm Sink.fits
  | .duePlaces a => a.writeForm Sink.fits
  | .origin a => a.writeForm Sink.fits
  | .processInstance a => a.writeForm Sink.fits
  | .instanceKey a => a.writeForm Sink.fits
  | .keptAudit a => a.writeForm Sink.fits
  | .keptStream a => a.writeForm Sink.fits
  | .chainHead head => head.position < 256 ^ 8 ∧ head.digest.length = 32
  | .administration a => a.writeForm Sink.fits
  | .secret a => a.writeForm Sink.fits
  | .number n => n < 256 ^ 8
  | .body _ | .digest _ | .nothing | .torn _ | .broken _ => True

section

variable {α : Type} {write : {β : Type} → Sink β → α → β} {read : Cursor α} {a : α}

/-- Bytes that are one record's and no more. -/
theorem Forms.formed (h : Forms p write read) (ha : write Sink.fits a) (content : α → Content) :
    formed content (p.fromBytes read (write p.sink a)) = content a := by
  have hrun := h a ha []
  rw [List.append_nil] at hrun
  rw [p.fromBytes_ok read _ a hrun, XmipPersist.formed]

end

theorem eightBytes_number {what : String} {n : ℕ} (h : n < 256 ^ 8) :
    eightBytes what (Octets.number 8 n) = .number n := by
  rw [eightBytes, if_pos (Octets.length_number 8 n), Octets.toNat_number, ofBigEndian_bigEndian h]

theorem placeBytes_number {n : ℕ} (h : n < 256 ^ 8) :
    placeBytes (Octets.number 8 n) = .number n := by
  have hne : Octets.number 8 n ≠ [] :=
    List.ne_nil_of_length_pos (by rw [Octets.length_number]; decide)
  rw [placeBytes, if_neg hne, eightBytes_number h]

theorem headBytes_head {head : ChainHead} (h : head.position < 256 ^ 8)
    (hdigest : head.digest.length = 32) :
    headBytes (Octets.number 8 head.position ++ head.digest) = .chainHead head := by
  have hlength := Octets.length_number 8 head.position
  have htake : (Octets.number 8 head.position ++ head.digest).take 8 =
      Octets.number 8 head.position := List.take_left' hlength
  have hdrop : (Octets.number 8 head.position ++ head.digest).drop 8 = head.digest :=
    List.drop_left' hlength
  have hcut : 8 ≤ (Octets.number 8 head.position ++ head.digest).length ∧
      (Octets.number 8 head.position ++ head.digest).length - 8 = 32 := by
    rw [List.length_append, hlength, hdigest]
    decide
  rw [headBytes, if_pos hcut, htake, hdrop, Octets.toNat_number, ofBigEndian_bigEndian h]

/-- What is kept of a record of a kind is read under it as the record. -/
theorem Kind.read_kept {kind : Kind} {key : Key} {content : Content}
    (hholds : kind.holds key content) (h : content.Bounded) :
    kind.read p (content.kept p) = content := by
  unfold Kind.holds at hholds
  split at hholds
  case h_1 | h_26 => exact StreamChunk.forms.formed h _
  case h_2 => exact StreamRecord.forms.formed h _
  case h_3 => exact MessageRecord.forms.formed h _
  case h_4 => exact JourneyRecord.forms.formed h _
  case h_5 =>
    have hrun := Stored.forms (p := p) _ h []
    rw [List.append_nil] at hrun
    simp only [Kind.read, Content.kept, hrun, Except.map, formed]
  case h_6 => exact AuditEntry.forms.formed h _
  case h_7 => exact Held.forms.formed h _
  case h_8 | h_12 | h_16 => exact placeBytes_number h
  case h_9 | h_14 | h_17 => exact Places.forms.formed h _
  case h_10 => exact DuePlaces.forms.formed h _
  case h_11 => exact Dead.forms.formed h _
  case h_13 => rfl
  case h_15 => exact Failed.forms.formed h _
  case h_18 | h_27 => rfl
  case h_19 | h_20 => exact eightBytes_number h
  case h_21 => exact Origin.forms.formed h _
  case h_22 => exact InstanceRecord.forms.formed h _
  case h_23 => exact InstanceKey.forms.formed h _
  case h_24 => exact KeptAudit.forms.formed h _
  case h_25 => exact KeptStream.forms.formed h _
  case h_28 => exact headBytes_head h.1 h.2
  case h_29 => exact AdministrationRecord.forms.formed h _
  case h_30 => exact KeptSecret.forms.formed h _
  case h_31 => exact hholds.elim

/-! ## Places -/

def Key.numbers : Key → List ℕ
  | id a => [a]
  | pair a b => [a, b]
  | triple a b c => [a, b, c]
  | name _ | next | kept => []

/-- The bytes of each number of a kind's keys; none where its keys are words. -/
def Kind.widths : Kind → List ℕ
  | chunk | keptAuditBody => [16, 4]
  | audit => [8]
  | held | dead | failed => [16, 8]
  | heldJourney | deadMessage | failedByJourney | keptAuditStreams => [16, 16]
  | keptAuditStream => [16, 16, 4]
  | sequence | chain => []
  | stream | message | journey | claim | places | duePlaces | deadPlaces | failedPlaces
  | publication | origin | processInstance | instanceKey | keptAudit | administration _
  | secret => [16]

/-- A key of its kind's, its numbers within their bytes. -/
def Place.Fits (place : Place) : Prop :=
  match place.1, place.2 with
  | .sequence, .next | .sequence, .kept | .chain, .name _ => True
  | kind, key => kind.widths ≠ [] ∧ key.numbers.length = kind.widths.length ∧
      ∀ e ∈ kind.widths.zip key.numbers, e.2 < 256 ^ e.1

/-- Numbers in so many bytes each, one after another. -/
def octets (widths numbers : List ℕ) : Bytes := (List.zipWith Octets.number widths numbers).flatten

theorem length_octets {widths numbers : List ℕ} (h : numbers.length = widths.length) :
    (octets widths numbers).length = widths.sum := by
  induction widths generalizing numbers with
  | nil => rfl
  | cons width widths ih =>
      cases numbers with
      | nil => cases h
      | cons n numbers =>
          have hrest := ih (Nat.succ.inj h)
          rw [octets] at hrest ⊢
          simp only [List.zipWith_cons_cons, List.flatten_cons, List.length_append,
            Octets.length_number, List.sum_cons, hrest]

theorem number_inj {width m n : ℕ} (hm : m < 256 ^ width) (hn : n < 256 ^ width)
    (h : Octets.number width m = Octets.number width n) : m = n := by
  have hbytes := congrArg (List.map UInt8.toNat) h
  rw [Octets.toNat_number, Octets.toNat_number] at hbytes
  exact (bigEndian_inj hm hn).mp hbytes

theorem octets_inj {widths numbers numbers' : List ℕ} (hlength : numbers.length = widths.length)
    (hlength' : numbers'.length = widths.length)
    (hfits : ∀ e ∈ widths.zip numbers, e.2 < 256 ^ e.1)
    (hfits' : ∀ e ∈ widths.zip numbers', e.2 < 256 ^ e.1)
    (h : octets widths numbers = octets widths numbers') : numbers = numbers' := by
  induction widths generalizing numbers numbers' with
  | nil =>
      rw [List.length_eq_zero_iff.mp hlength, List.length_eq_zero_iff.mp hlength']
  | cons width widths ih =>
      cases numbers with
      | nil => cases hlength
      | cons n numbers =>
          cases numbers' with
          | nil => cases hlength'
          | cons n' numbers' =>
              rw [List.zip_cons_cons, List.forall_mem_cons] at hfits hfits'
              have hsplit : Octets.number width n ++ octets widths numbers =
                  Octets.number width n' ++ octets widths numbers' := h
              have hparts := List.append_inj hsplit (by simp only [Octets.length_number])
              have hfirst : n = n' := number_inj hfits.1 hfits'.1 hparts.1
              rw [hfirst, ih (Nat.succ.inj hlength) (Nat.succ.inj hlength') hfits.2 hfits'.2
                hparts.2]

/-- A key of numbers is kept as they are, one after another. -/
theorem Kind.keyed_octets {kind : Kind} {key : Key} (hne : kind.widths ≠ [])
    (hlength : key.numbers.length = kind.widths.length) :
    kind.keyed key = octets kind.widths key.numbers := by
  cases kind <;> cases key <;>
    simp [widths, Key.numbers] at hne hlength <;>
    simp [keyed, widths, Key.numbers, octets, chunkKey, Queue.entryKey, Queue.placesKey,
      Queue.byKey, Keeper.streamKey, Keeper.chunkKey, Keeper.bodyKey]

theorem Key.numbers_inj {key key' : Key} (hne : key.numbers ≠ [])
    (h : key.numbers = key'.numbers) : key = key' := by
  cases key <;> cases key' <;> simp_all [numbers]

namespace Kind

def all : List Kind :=
  [chunk, stream, message, journey, claim, audit, held, heldJourney, places, duePlaces, dead,
    deadMessage, deadPlaces, failed, failedByJourney, failedPlaces, publication, sequence, origin,
    processInstance, instanceKey, keptAudit, keptAuditStreams, keptAuditStream, keptAuditBody,
    chain, secret] ++ AdministrationKind.all.map administration

theorem mem_all (kind : Kind) : kind ∈ all := by
  cases kind with
  | administration kind => cases kind <;> decide
  | _ => decide

/-- Of all kinds' words only those of an audit record, before it is kept and after, are the
same. -/
theorem word_inj {kind kind' : Kind} (h : kind.word = kind'.word) :
    kind = kind' ∨ kind = audit ∧ kind' = keptAudit ∨ kind = keptAudit ∧ kind' = audit := by
  have hall : ∀ kind ∈ all, ∀ kind' ∈ all, kind.word = kind'.word →
      kind = kind' ∨ kind = audit ∧ kind' = keptAudit ∨ kind = keptAudit ∧ kind' = audit := by
    decide +kernel
  exact hall kind kind.mem_all kind' kind'.mem_all h

end Kind

namespace Place

/-- Two keys of one kind, or an audit record's before it is kept and after. -/
theorem keyed_inj {kind kind' : Kind} {key key' : Key} (hne : kind.widths ≠ [])
    (hlength : key.numbers.length = kind.widths.length)
    (hfits : ∀ e ∈ kind.widths.zip key.numbers, e.2 < 256 ^ e.1)
    (hne' : kind'.widths ≠ []) (hlength' : key'.numbers.length = kind'.widths.length)
    (hfits' : ∀ e ∈ kind'.widths.zip key'.numbers, e.2 < 256 ^ e.1)
    (hword : kind.word = kind'.word) (h : kind.keyed key = kind'.keyed key') :
    (kind, key) = (kind', key') := by
  rw [Kind.keyed_octets hne hlength, Kind.keyed_octets hne' hlength'] at h
  have hsum := congrArg List.length h
  rw [length_octets hlength, length_octets hlength'] at hsum
  rcases Kind.word_inj hword with rfl | ⟨rfl, rfl⟩ | ⟨rfl, rfl⟩
  · have hnumbers := octets_inj hlength hlength' hfits hfits' h
    have hkey : key.numbers ≠ [] := by
      intro hnil
      rw [hnil] at hlength
      exact hne (List.length_eq_zero_iff.mp hlength.symm)
    rw [Key.numbers_inj hkey hnumbers]
  · cases hsum
  · cases hsum

/-- A place kept under words, or under numbers. -/
theorem Fits.cases {place : Place} (h : place.Fits) :
    place = (.sequence, .next) ∨ place = (.sequence, .kept) ∨
      (∃ writer, place = (.chain, .name writer)) ∨
        (place.1.widths ≠ [] ∧ place.2.numbers.length = place.1.widths.length ∧
          ∀ e ∈ place.1.widths.zip place.2.numbers, e.2 < 256 ^ e.1) := by
  obtain ⟨kind, key⟩ := place
  unfold Fits at h
  split at h
  · next hkind hkey =>
      obtain rfl := hkind
      obtain rfl := hkey
      exact .inl rfl
  · next hkind hkey =>
      obtain rfl := hkind
      obtain rfl := hkey
      exact .inr (.inl rfl)
  · next writer hkind hkey =>
      obtain rfl := hkind
      obtain rfl := hkey
      exact .inr (.inr (.inl ⟨writer, rfl⟩))
  · exact .inr (.inr (.inr h))

/-- Keys of words and keys of numbers are of kinds of other words. -/
theorem widths_nil_iff {kind kind' : Kind} (hword : kind.word = kind'.word) :
    kind.widths = [] ↔ kind'.widths = [] := by
  rcases Kind.word_inj hword with rfl | ⟨rfl, rfl⟩ | ⟨rfl, rfl⟩ <;> simp [Kind.widths]

/-- No two places are kept alike. -/
theorem kept_inj {place place' : Place} (h : place.Fits) (h' : place'.Fits)
    (hkept : place.kept = place'.kept) : place = place' := by
  obtain ⟨hword, hkeyed⟩ := Prod.mk.inj hkept
  have hwidths := widths_nil_iff hword
  have hwords : Kind.sequence.word ≠ Kind.chain.word := by decide +kernel
  have hplaces : utf8 "next" ≠ utf8 "kept" := by decide +kernel
  rcases h.cases with rfl | rfl | ⟨writer, rfl⟩ | ⟨hne, hlength, hfits⟩ <;>
    rcases h'.cases with rfl | rfl | ⟨writer', rfl⟩ | ⟨hne', hlength', hfits'⟩
  -- of the audit sequence, its next number's place or the kept one's
  · rfl
  · exact absurd hkeyed hplaces
  · exact absurd hword hwords
  · exact absurd (hwidths.mp rfl) hne'
  · exact absurd hkeyed.symm hplaces
  · rfl
  · exact absurd hword hwords
  · exact absurd (hwidths.mp rfl) hne'
  -- of a chain, its writer's
  · exact absurd hword.symm hwords
  · exact absurd hword.symm hwords
  · rw [EncryptedStore.utf8_inj.mp hkeyed]
  · exact absurd (hwidths.mp rfl) hne'
  -- of numbers
  · exact absurd (hwidths.mpr rfl) hne
  · exact absurd (hwidths.mpr rfl) hne
  · exact absurd (hwidths.mpr rfl) hne
  · exact keyed_inj hne hlength hfits hne' hlength' hfits' hword hkeyed

end Place

end XmipPersist
