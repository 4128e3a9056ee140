import XmipPersist.Library.Delimited
import XmipPersist.Library.Linked
import XmipPersist.Model.Chain

/-! # A writer's chain, told by its head

A record's canonical form tells every field of it but the two left out, and every record of a
Stream it carries. So a digest tells its record and the digest before, down to the first.
-/

namespace XmipPersist

/-! ## What a form tells -/

section Forms

variable {α : Type} {P : α → Prop}

theorem length_be (width n : ℕ) : (be width n).length = width := by
  rw [be, List.length_map, length_bigEndian]

theorem be_inj {width m n : ℕ} (hm : m < 256 ^ width) (hn : n < 256 ^ width)
    (h : be width m = be width n) : m = n := by
  have hback : ∀ k, (be width k).map UInt8.toNat = bigEndian width k := by
    intro k
    rw [be, List.map_map]
    refine (List.map_congr_left fun byte hbyte => ?_).trans (List.map_id _)
    have hle := le_of_mem_bigEndian hbyte
    simp only [Function.comp_apply, UInt8.toNat_ofNat', id_eq]
    omega
  refine (bigEndian_inj hm hn).mp ?_
  rw [← hback m, ← hback n, h]

/-- A number that its bytes hold. -/
theorem be_tells {f : α → ℕ} {width : ℕ} (hf : ∀ a, P a → f a < 256 ^ width) :
    Tells P (fun a => be width (f a)) f :=
  .of_length (fun a _ => length_be width (f a)) fun _ _ ha ha' h => be_inj (hf _ ha) (hf _ ha') h

/-- Bytes always as many. -/
theorem fixed_tells {f : α → Bytes} {n : ℕ} (hf : ∀ a, P a → (f a).length = n) : Tells P f f :=
  .of_length hf fun _ _ _ _ h => h

theorem flagByte_tells {f : α → Bool} : Tells P (fun a => flagByte (f a)) f := by
  refine .of_length (fun _ _ => rfl) fun a a' _ _ h => ?_
  revert h
  cases f a <;> cases f a' <;> decide

/-- What there may be one of. -/
theorem maybe_tells {β : Type} {Q : β → Prop} {w : β → Bytes} {f : α → Option β}
    (hw : Tells Q w id) (hf : ∀ a, P a → ∀ b ∈ f a, Q b) :
    Tells P (fun a => maybe w (f a)) f := by
  intro a a' rest rest' ha ha' h
  cases hb : f a with
  | none =>
      cases hb' : f a' with
      | none =>
          simp only [hb, hb', maybe] at h
          exact ⟨rfl, List.append_cancel_left h⟩
      | some b' => simp [hb, hb', maybe, flagByte] at h
  | some b =>
      cases hb' : f a' with
      | none => simp [hb, hb', maybe, flagByte] at h
      | some b' =>
          simp only [hb, hb', maybe, List.append_assoc] at h
          obtain ⟨heq, hrest⟩ := hw (hf a ha b hb) (hf a' ha' b' hb') (List.append_cancel_left h)
          exact ⟨congrArg some heq, hrest⟩

/-- A list after its length. -/
theorem list_tells {β : Type} {Q : β → Prop} {w : β → Bytes} {f : α → List β} (hw : Tells Q w id)
    (hlength : ∀ a, P a → (f a).length ≤ u32Max) (hf : ∀ a, P a → ∀ b ∈ f a, Q b) :
    Tells P (fun a => lengthForm (f a) ++ (f a).flatMap w) f := by
  intro a a' rest rest' ha ha' h
  have hmin : ∀ a, P a → min (f a).length u32Max = (f a).length := fun a ha =>
    Nat.min_eq_left (hlength a ha)
  have hbound : ∀ a, P a → (f a).length < 256 ^ 4 := fun a ha =>
    (hlength a ha).trans_lt (by decide)
  simp only [lengthForm, hmin a ha, hmin a' ha', List.append_assoc] at h
  obtain ⟨hsame, h⟩ := be_tells (f := fun a => (f a).length) hbound ha ha' h
  exact Tells.flatMap hw hsame (hf a ha) (hf a' ha') h

end Forms

/-! ## What a record's form tells -/

/-- A Stream's record within its machine types. -/
structure StreamRecord.Fits (record : StreamRecord) : Prop where
  stream : record.stream < 256 ^ 16
  length : record.length < 256 ^ 8
  chunks : record.chunks < 256 ^ 4
  digest : record.digest.length = digestLength
  writtenUnixNanos : record.writtenUnixNanos < 256 ^ 8

theorem StreamRecord.form_tells : Tells StreamRecord.Fits StreamRecord.form id := by
  have hform : Tells StreamRecord.Fits StreamRecord.form fun r : StreamRecord =>
      ((((r.stream, r.length), r.chunks), r.digest), r.writtenUnixNanos) :=
    .append (.append (.append (.append (be_tells fun _ h => h.stream)
      (be_tells fun _ h => h.length))
      (be_tells fun _ h => h.chunks)) (fixed_tells fun _ h => h.digest))
      (be_tells fun _ h => h.writtenUnixNanos)
  refine hform.map fun r r' h => ?_
  cases r
  cases r'
  simpa [and_assoc] using h

/-- Texts the codec reads back: where one ends is told by what it wrote. -/
def Codec.Delimits (codec : Codec) (text : String → Prop) : Prop :=
  Tells text codec.text id

/-- A row's facts within their machine types, its texts ones the codec reads back. -/
structure AuditFacts.Fits (text : String → Prop) (facts : AuditFacts) : Prop where
  occurredUnixNanos : facts.occurredUnixNanos < 256 ^ 8
  action : text facts.action
  phase : text facts.phase
  severity : text facts.severity
  told : ∀ t ∈ facts.text, text t
  program : text facts.program
  host : text facts.host
  process : facts.process < 256 ^ 4
  location : ∀ t ∈ facts.location, text t
  execution : ∀ id ∈ facts.execution, id < 256 ^ 16
  journey : ∀ id ∈ facts.journey, id < 256 ^ 16
  message : ∀ id ∈ facts.message, id < 256 ^ 16
  artifactKind : ∀ t ∈ facts.artifactKind, text t
  artifactName : ∀ t ∈ facts.artifactName, text t
  artifactVersion : ∀ t ∈ facts.artifactVersion, text t
  node : ∀ t ∈ facts.node, text t
  cluster : ∀ t ∈ facts.cluster, text t
  writer : text facts.writer
  position : facts.position < 256 ^ 8
  previous : facts.previous.length = digestLength
  digest : facts.digest.length = digestLength
  bodyLength : facts.bodyLength < 256 ^ 8
  bodyChunks : facts.bodyChunks < 256 ^ 4
  bodyDigest : facts.bodyDigest.length = digestLength
  keptUnixNanos : facts.keptUnixNanos < 256 ^ 8

section Rows

variable {codec : Codec} {text : String → Prop}

theorem AuditFacts.form_tells (hcodec : codec.Delimits text) :
    Tells (AuditFacts.Fits text) (AuditFacts.form codec) id := by
  have htext : ∀ {f : AuditFacts → String}, (∀ a, AuditFacts.Fits text a → text (f a)) →
      Tells (AuditFacts.Fits text) (fun a => codec.text (f a)) f := fun h => hcodec.comp h
  have htexts : ∀ {f : AuditFacts → Option String},
      (∀ a, AuditFacts.Fits text a → ∀ t ∈ f a, text t) →
        Tells (AuditFacts.Fits text) (fun a => maybe codec.text (f a)) f := maybe_tells hcodec
  have hids : ∀ {f : AuditFacts → Option ℕ},
      (∀ a, AuditFacts.Fits text a → ∀ id ∈ f a, id < 256 ^ 16) →
        Tells (AuditFacts.Fits text) (fun a => maybe (be 16) (f a)) f :=
    maybe_tells (be_tells (f := id) fun _ h => h)
  have hform := ((((((((((((((((((((((((((be_tells fun _ h => h.occurredUnixNanos).append
    (htext fun _ h => h.action)).append (htext fun _ h => h.phase)).append
    (htext fun _ h => h.severity)).append (flagByte_tells (f := AuditFacts.failed))).append
    (htexts fun _ h => h.told)).append (htext fun _ h => h.program)).append
    (htext fun _ h => h.host)).append (be_tells fun _ h => h.process)).append
    (htexts fun _ h => h.location)).append (flagByte_tells (f := AuditFacts.hidden))).append
    (hids fun _ h => h.execution)).append (hids fun _ h => h.journey)).append
    (hids fun _ h => h.message)).append (htexts fun _ h => h.artifactKind)).append
    (htexts fun _ h => h.artifactName)).append (htexts fun _ h => h.artifactVersion)).append
    (htexts fun _ h => h.node)).append (htexts fun _ h => h.cluster)).append
    (htext fun _ h => h.writer)).append (be_tells fun _ h => h.position)).append
    (fixed_tells fun _ h => h.previous)).append (fixed_tells fun _ h => h.digest)).append
    (be_tells fun _ h => h.bodyLength)).append (be_tells fun _ h => h.bodyChunks)).append
    (fixed_tells fun _ h => h.bodyDigest)).append (be_tells fun _ h => h.keptUnixNanos)
  refine hform.map fun a a' h => ?_
  cases a
  cases a'
  simpa [and_assoc] using h

/-- A row within its machine types, its Streams as many as it is read back with. -/
structure KeptAudit.Fits (text : String → Prop) (kept : KeptAudit) : Prop where
  id : kept.id < 256 ^ 16
  carried : kept.streams.length ≤ u32Max
  streams : ∀ stream ∈ kept.streams, stream < 256 ^ 16
  facts : kept.facts.Fits text

theorem keptForm_tells (hcodec : codec.Delimits text) :
    Tells (KeptAudit.Fits text) (KeptAudit.form codec) id := by
  have hids : Tells (fun n => n < 256 ^ 16) (be 16) id := be_tells (f := id) fun _ h => h
  have hform : Tells (KeptAudit.Fits text)
      (fun kept => be 16 kept.id ++ (lengthForm kept.streams ++ kept.streams.flatMap (be 16)) ++
        kept.facts.form codec) fun kept => ((kept.id, kept.streams), kept.facts) :=
    .append (.append (be_tells fun _ h => h.id)
      (list_tells hids (fun _ h => h.carried) fun _ h => h.streams))
      ((AuditFacts.form_tells hcodec).comp fun _ h => h.facts)
  have hsame : KeptAudit.form codec = fun kept : KeptAudit =>
      be 16 kept.id ++ (lengthForm kept.streams ++ kept.streams.flatMap (be 16)) ++
        kept.facts.form codec := by
    funext kept
    simp [KeptAudit.form]
  rw [hsame]
  refine hform.map fun kept kept' h => ?_
  cases kept
  cases kept'
  simpa [and_assoc] using h

/-- Blanked, a row is still within its types. -/
theorem KeptAudit.Fits.unsealed {kept : KeptAudit} (h : kept.Fits text) :
    kept.unsealed.Fits text :=
  ⟨h.id, h.carried, h.streams,
    { h.facts with digest := List.length_replicate, keptUnixNanos := Nat.pow_pos (by decide) }⟩

end Rows

/-! ## A chain -/

/-- A kept record as it stands in its chain: its row, and the record of each Stream it carries. -/
abbrev ChainLink := KeptAudit × List StreamRecord

/-- A record in its place after another, or at the start: the next number, the digest before it,
its own digest, and the records of the Streams it carries. -/
structure ChainLink.Follows (codec : Codec) (sha : Bytes → Bytes) (before : Option ChainLink)
    (link : ChainLink) : Prop where
  position : link.1.facts.position = (before.map (·.1.facts.position)).getD 0 + 1
  previous : link.1.facts.previous = (before.map (·.1.facts.digest)).getD zeroDigest
  digest : link.1.facts.digest = chainDigest codec sha link.1 link.2
  carries : link.1.streams = link.2.map StreamRecord.stream

/-- A writer's chain. -/
abbrev Chained (codec : Codec) (sha : Bytes → Bytes) : List ChainLink → Prop :=
  Linked (ChainLink.Follows codec sha)

/-- The head kept of a chain. -/
def chainHead (links : List ChainLink) : Option ChainHead := links.getLast?.map (·.1.head)

/-- A record's row without the keeper's time. -/
def KeptAudit.timeless (kept : KeptAudit) : KeptAudit :=
  { kept with facts := { kept.facts with keptUnixNanos := 0 } }

section Chains

variable {codec : Codec} {sha : Bytes → Bytes} {text : String → Prop}

/-- A record's digest leaves out the keeper's time. -/
theorem chainDigest_timeless (kept : KeptAudit) (streams : List StreamRecord) :
    chainDigest codec sha kept.timeless streams = chainDigest codec sha kept streams := rfl

theorem KeptAudit.timeless_of_unsealed {kept kept' : KeptAudit}
    (h : kept.unsealed = kept'.unsealed) (hdigest : kept.facts.digest = kept'.facts.digest) :
    kept.timeless = kept'.timeless := by
  have hback : ∀ k : KeptAudit, k.timeless =
      { k.unsealed with facts := { k.unsealed.facts with digest := k.facts.digest } } :=
    fun _ => rfl
  rw [hback, hback, h, hdigest]

/-- A record that `link` links after a chain follows its last one. -/
theorem KeptAudit.linked_follows (kept : KeptAudit) (before : Option ChainLink)
    {streams : List StreamRecord} (hcarries : kept.streams = streams.map StreamRecord.stream) :
    ChainLink.Follows codec sha before
      (kept.linked codec sha (before.map (·.1.head)) streams, streams) where
  position := by cases before <;> rfl
  previous := by cases before <;> rfl
  digest := rfl
  carries := hcarries

/-- A chain's records are numbered from one, in order. -/
theorem Chained.positions {links : List ChainLink} (h : Chained codec sha links) :
    links.map (·.1.facts.position) = List.range' 1 links.length := by
  induction h with
  | nil => rfl
  | @snoc links link h hlink ih =>
      have hlast : ∀ before ∈ links.getLast?, before.1.facts.position = links.length := by
        intro before hbefore
        have hmap := congrArg List.getLast? ih
        rw [List.getLast?_map, hbefore, List.getLast?_range'] at hmap
        have hne : links ≠ [] := List.ne_nil_of_mem (List.mem_of_getLast? hbefore)
        have hpos := List.length_pos_iff.mpr hne
        simp at hmap
        omega
      rw [List.map_append, ih, List.length_append, List.length_singleton, List.range'_concat,
        List.map_singleton, hlink.position]
      cases hb : links.getLast? with
      | none => simp [List.getLast?_eq_none_iff.mp hb]
      | some before => simp [hlast before hb, Nat.add_comm]

/-- A record in its chain, within its machine types. -/
structure ChainLink.Fits (text : String → Prop) (link : ChainLink) : Prop where
  row : link.1.Fits text
  streams : ∀ record ∈ link.2, record.Fits

theorem canonicalForm_inj (hcodec : codec.Delimits text) {link link' : ChainLink}
    (hfits : link.Fits text) (hfits' : link'.Fits text)
    (hcarries : link.1.streams = link.2.map StreamRecord.stream)
    (hcarries' : link'.1.streams = link'.2.map StreamRecord.stream)
    (h : canonicalForm codec link.1 link.2 = canonicalForm codec link'.1 link'.2) :
    link.1.unsealed = link'.1.unsealed ∧ link.2 = link'.2 := by
  have hcounted : ∀ l : ChainLink, l.Fits text → l.1.streams = l.2.map StreamRecord.stream →
      l.2.length ≤ u32Max := by
    intro l hl hc
    have hle := hl.row.carried
    rwa [hc, List.length_map] at hle
  have hform : Tells (fun l : ChainLink => l.Fits text ∧ l.2.length ≤ u32Max)
      (fun l => l.1.unsealed.form codec ++ (lengthForm l.2 ++ l.2.flatMap StreamRecord.form))
      fun l => (l.1.unsealed, l.2) :=
    .append ((keptForm_tells hcodec).comp fun _ hl => hl.1.row.unsealed)
      (list_tells StreamRecord.form_tells (fun _ hl => hl.2) fun _ hl => hl.1.streams)
  have happend : ∀ l : ChainLink, canonicalForm codec l.1 l.2 =
      l.1.unsealed.form codec ++ (lengthForm l.2 ++ l.2.flatMap StreamRecord.form) ++ [] := by
    intro l
    simp [canonicalForm]
  rw [happend, happend] at h
  exact Prod.ext_iff.mp (hform ⟨hfits, hcounted link hfits hcarries⟩
    ⟨hfits', hcounted link' hfits' hcarries'⟩ h).1

/-- Two records, as they stand in their chains, alike but for the keeper's time. -/
def ChainLink.Alike (link link' : ChainLink) : Prop :=
  link.1.timeless = link'.1.timeless ∧ link.2 = link'.2

/-- Chains of kept records that end in one head are one chain, record by record, where no two of
their canonical forms collide. -/
theorem chain_of_head {links links' : List ChainLink} (hcodec : codec.Delimits text)
    (hsha : ∀ link ∈ links, ∀ link' ∈ links',
      sha (canonicalForm codec link.1 link.2) = sha (canonicalForm codec link'.1 link'.2) →
        canonicalForm codec link.1 link.2 = canonicalForm codec link'.1 link'.2)
    (hfits : ∀ link ∈ links, link.Fits text) (hfits' : ∀ link ∈ links', link.Fits text)
    (hlinks : Chained codec sha links) (hlinks' : Chained codec sha links')
    (hhead : chainHead links = chainHead links') :
    List.Forall₂ ChainLink.Alike links links' := by
  have hlast : Option.Rel (fun l l' : ChainLink => l.1.head = l'.1.head) links.getLast?
      links'.getLast? := by
    rw [chainHead, chainHead] at hhead
    cases hl : links.getLast? <;> cases hl' : links'.getLast? <;> simp_all
  refine hlinks.forall₂_of_last hlinks' hlast ?_
  intro before before' link link' hmem hmem' hbefore hbefore' hfollows hfollows' hagree
  obtain ⟨-, hdigest⟩ := ChainHead.mk.inj hagree
  have hforms := hsha link hmem link' hmem'
    (hfollows.digest.symm.trans (hdigest.trans hfollows'.digest))
  obtain ⟨hunsealed, hstreams⟩ := canonicalForm_inj hcodec (hfits link hmem) (hfits' link' hmem')
    hfollows.carries hfollows'.carries hforms
  refine ⟨⟨KeptAudit.timeless_of_unsealed hunsealed hdigest, hstreams⟩, ?_⟩
  have hposition : link.1.facts.position = link'.1.facts.position :=
    congrArg (·.facts.position) hunsealed
  have hprevious : link.1.facts.previous = link'.1.facts.previous :=
    congrArg (·.facts.previous) hunsealed
  -- a record after another one is not at its chain's start: the one before it has a number
  have hpast : ∀ {ls : List ChainLink} {u : ChainLink}, Chained codec sha ls → u ∈ ls →
      u.1.facts.position ≠ 0 := by
    intro ls u hls hu
    obtain ⟨b, hb⟩ := hls.follows_of_mem hu
    rw [hb.position]
    exact Nat.succ_ne_zero _
  rw [hfollows.position, hfollows'.position] at hposition
  rw [hfollows.previous, hfollows'.previous] at hprevious
  cases before with
  | none =>
      cases before' with
      | none => exact .none
      | some u' =>
          have hne := hpast hlinks' (hbefore' u' rfl)
          simp at hposition
          omega
  | some u =>
      cases before' with
      | none =>
          have hne := hpast hlinks (hbefore u rfl)
          simp at hposition
          omega
      | some u' =>
          simp only [Option.map_some, Option.getD_some, Nat.add_right_cancel_iff] at hposition
          simp only [Option.map_some, Option.getD_some] at hprevious
          exact .some (by rw [KeptAudit.head, KeptAudit.head, hposition, hprevious])

/-- A record's digest taken so that no two of the records here share one. -/
def summed (bytes : Bytes) : Bytes := be digestLength (bytes.foldl (fun sum b => sum + b.toNat) 0)

/-- A text after its length in bytes. -/
def Codec.prefixed : Codec where
  text s := lengthForm s.toUTF8.data.toList ++ s.toUTF8.data.toList
  counted bytes := lengthForm bytes ++ bytes

theorem Codec.prefixed_delimits :
    Codec.prefixed.Delimits fun s => s.toUTF8.data.toList.length ≤ u32Max := by
  have hbytes : Tells (fun s : String => s.toUTF8.data.toList.length ≤ u32Max)
      (fun s => lengthForm s.toUTF8.data.toList ++ s.toUTF8.data.toList.flatMap ([·]))
      fun s => s.toUTF8.data.toList :=
    list_tells (Q := fun _ => True)
      (.of_length (fun _ _ => rfl) fun _ _ _ _ => List.singleton_inj.mp) (fun _ h => h)
      fun _ _ _ _ => trivial
  simp only [List.flatMap_singleton'] at hbytes
  exact hbytes.map fun s t h =>
    String.toByteArray_inj.mp (ByteArray.ext (Array.toList_inj.mp h))

/-- Two records of one writer, the first with a Stream, as they are kept at these times. -/
def keptAt (first second : ℕ) : List ChainLink :=
  let stream : StreamRecord := ⟨7, 3, 1, List.replicate digestLength 5, 11⟩
  let one := (KeptAudit.mk 1 [7] { writer := "node", bodyDigest := zeroDigest }).linked
    .prefixed summed none [stream]
  let two := (KeptAudit.mk 2 [] { writer := "node", bodyDigest := zeroDigest }).linked
    .prefixed summed (some one.head) []
  [({ one with facts := { one.facts with keptUnixNanos := first } }, [stream]),
    ({ two with facts := { two.facts with keptUnixNanos := second } }, [])]

theorem keptAt_chained (first second : ℕ) : Chained .prefixed summed (keptAt first second) :=
  .snoc (.snoc .nil ⟨rfl, rfl, rfl, rfl⟩) ⟨rfl, rfl, rfl, rfl⟩

theorem keptAt_fits {first second : ℕ} (hfirst : first < 256 ^ 8) (hsecond : second < 256 ^ 8) :
    ∀ link ∈ keptAt first second,
      link.Fits fun s => s.toUTF8.data.toList.length ≤ u32Max := by
  have hempty : "".toUTF8.data.toList.length ≤ u32Max := by decide
  have hwriter : "node".toUTF8.data.toList.length ≤ u32Max := by decide
  have hsmall : ∀ {n width : ℕ}, n < 10 → n < 256 ^ (width + 1) := fun h =>
    h.trans_le ((show 10 ≤ 256 ^ 1 by decide).trans (Nat.pow_le_pow_right (by decide) (by omega)))
  intro link hlink
  rcases List.mem_pair.mp hlink with rfl | rfl
  · refine ⟨⟨hsmall (show 1 < 10 by decide), show 1 ≤ u32Max by decide,
      List.forall_mem_singleton.mpr (hsmall (show 7 < 10 by decide)), ?_⟩, ?_⟩
    · constructor <;> first | exact hempty | exact hwriter | exact hfirst | rfl |
        exact hsmall (show 0 < 10 by decide) | exact hsmall (show 1 < 10 by decide) | nofun
    · rintro record hrecord
      obtain rfl := List.mem_singleton.mp hrecord
      constructor <;> decide
  · refine ⟨⟨hsmall (show 2 < 10 by decide), Nat.zero_le _, nofun, ?_⟩, nofun⟩
    constructor <;> first | exact hempty | exact hwriter | exact hsecond | rfl |
      exact hsmall (show 0 < 10 by decide) | exact hsmall (show 2 < 10 by decide) | nofun

theorem chain_of_head_kept : List.Forall₂ ChainLink.Alike (keptAt 5 6) (keptAt 8 9) := by
  refine chain_of_head Codec.prefixed_delimits ?_ (keptAt_fits (by decide) (by decide))
    (keptAt_fits (by decide) (by decide)) (keptAt_chained 5 6) (keptAt_chained 8 9) rfl
  decide +kernel

end Chains

end XmipPersist
