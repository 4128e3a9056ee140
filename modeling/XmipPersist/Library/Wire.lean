import Mathlib

/-! # Values written one after the other, and read back

A value is written by the parts it is made of, to whatever its parts make: bytes, or what is asked of
the parts so that the bytes say them. A reader takes what is left of the bytes and leaves the rest.
-/

namespace XmipPersist

/-- What the parts of a value are written to. -/
structure Sink (β : Type) where
  all : List β → β
  byte : ℕ → β
  u32 : ℕ → β
  u64 : ℕ → β
  u128 : ℕ → β
  i128 : ℤ → β
  text : String → β
  counted : List UInt8 → β
  array : ℕ → List UInt8 → β
  count : ℕ → β
  list : {α : Type} → (α → β) → List α → β

namespace Sink

variable {α β : Type} (out : Sink β)

/-- A flag as a byte. -/
def flag (b : Bool) : β := out.byte (if b then 1 else 0)

/-- Whether there is one, and then it. -/
def optional (write : α → β) : Option α → β
  | none => out.flag false
  | some a => out.all [out.flag true, write a]

/-- How many there are, and then each. -/
def each (write : α → β) (as : List α) : β := out.all (out.count as.length :: as.map write)

/-- What is asked of the parts of a value: numbers of their width, texts, bytes and lists shorter
than 2^32, arrays of their length. -/
def fits : Sink Prop where
  all parts := ∀ part ∈ parts, part
  byte n := n < 2 ^ 8
  u32 n := n < 2 ^ 32
  u64 n := n < 2 ^ 64
  u128 n := n < 2 ^ 128
  i128 z := -2 ^ 127 ≤ z ∧ z < 2 ^ 127
  text s := s.utf8ByteSize < 2 ^ 32
  counted bytes := bytes.length < 2 ^ 32
  array length bytes := bytes.length = length
  count n := n < 2 ^ 32
  list write as := as.length < 2 ^ 32 ∧ ∀ a ∈ as, write a

end Sink

/-- What is left of bytes that are read. -/
abbrev Cursor := StateT (List UInt8) (Except String)

/-- A reader that reads back what a writer writes of a value, and leaves what follows. -/
def ReadsBack {α : Type} (write : α → List UInt8) (read : Cursor α) (a : α) : Prop :=
  ∀ rest, read.run (write a ++ rest) = .ok (a, rest)

/-- What the parts are written by and read by, each part that is what is asked of it read back. -/
structure Primitives where
  byte : ℕ → List UInt8
  u32 : ℕ → List UInt8
  u64 : ℕ → List UInt8
  u128 : ℕ → List UInt8
  i128 : ℤ → List UInt8
  text : String → List UInt8
  counted : List UInt8 → List UInt8
  list : {α : Type} → (α → List UInt8) → List α → List UInt8
  readByte : Cursor ℕ
  readU32 : Cursor ℕ
  readU64 : Cursor ℕ
  readU128 : Cursor ℕ
  readI128 : Cursor ℤ
  readText : Cursor String
  readCounted : Cursor (List UInt8)
  take : ℕ → Cursor (List UInt8)
  readList : {α : Type} → Cursor α → Cursor (List α)
  fromBytes : {α : Type} → Cursor α → List UInt8 → Except String α
  byte_back : ∀ n < 2 ^ 8, ReadsBack byte readByte n
  u32_back : ∀ n < 2 ^ 32, ReadsBack u32 readU32 n
  u64_back : ∀ n < 2 ^ 64, ReadsBack u64 readU64 n
  u128_back : ∀ n < 2 ^ 128, ReadsBack u128 readU128 n
  i128_back : ∀ z, -2 ^ 127 ≤ z → z < 2 ^ 127 → ReadsBack i128 readI128 z
  text_back : ∀ s : String, s.utf8ByteSize < 2 ^ 32 → ReadsBack text readText s
  counted_back : ∀ bytes : List UInt8, bytes.length < 2 ^ 32 → ReadsBack counted readCounted bytes
  take_back : ∀ bytes : List UInt8, ReadsBack id (take bytes.length) bytes
  list_back : ∀ {α : Type} (write : α → List UInt8) (read : Cursor α) (as : List α),
    as.length < 2 ^ 32 → (∀ a ∈ as, ReadsBack write read a) →
      ReadsBack (list write) (readList read) as
  u64_ne : ∀ n, u64 n ≠ []
  fromBytes_ok : ∀ {α : Type} (read : Cursor α) (bytes : List UInt8) (a : α),
    read.run bytes = .ok (a, []) → fromBytes read bytes = .ok a

namespace Primitives

variable (p : Primitives) {α β : Type}

/-- Bytes written by the primitives: a list's length is one of 32 bits at most. -/
def sink : Sink (List UInt8) where
  all := List.flatten
  byte := p.byte
  u32 := p.u32
  u64 := p.u64
  u128 := p.u128
  i128 := p.i128
  text := p.text
  counted := p.counted
  array _ bytes := bytes
  count n := p.u32 (min n (2 ^ 32 - 1))
  list := p.list

def readFlag : Cursor Bool := do return (← p.readByte) != 0

def readOptional (read : Cursor α) : Cursor (Option α) := do
  match ← p.readByte with
  | 0 => return none
  | _ => return some (← read)

/-- So many read, one after the other. -/
def times (read : Cursor α) : ℕ → Cursor (List α)
  | 0 => return []
  | n + 1 => do
      let a ← read
      return a :: (← times read n)

def readEach (read : Cursor α) : Cursor (List α) := do times read (← p.readU32)

end Primitives

/-- Whether nothing is left. -/
def Cursor.isEmpty : Cursor Bool := do return (← get).isEmpty

/-! ## What is read back of parts -/

section

variable {α β : Type} {p : Primitives} {write : {β : Type} → Sink β → α → β} {read : Cursor α}

/-- Values whose parts are what is asked of them are read back. -/
def Forms (p : Primitives) (write : {β : Type} → Sink β → α → β) (read : Cursor α) : Prop :=
  ∀ a, write Sink.fits a → ReadsBack (write p.sink) read a

/-- What follows a value is read of what follows it. -/
theorem ReadsBack.run_bind {write : α → List UInt8} {a : α} (h : ReadsBack write read a)
    (f : α → Cursor β) (rest : List UInt8) :
    (read >>= f).run (write a ++ rest) = (f a).run rest := by
  rw [StateT.run_bind, h rest]
  rfl

/-- So many values, one after the other, are read back. -/
theorem ReadsBack.times {write : α → List UInt8} {as : List α}
    (h : ∀ a ∈ as, ReadsBack write read a) (rest : List UInt8) :
    (Primitives.times read as.length).run ((as.map write).flatten ++ rest) = .ok (as, rest) := by
  induction as with
  | nil => rfl
  | cons a as ih =>
      obtain ⟨ha, has⟩ := List.forall_mem_cons.mp h
      rw [List.map_cons, List.flatten_cons, List.append_assoc, List.length_cons, Primitives.times,
        ha.run_bind, StateT.run_bind, ih has]
      rfl

namespace Sink

@[simp] theorem sink_all (parts : List (List UInt8)) : p.sink.all parts = parts.flatten := rfl

@[simp] theorem fits_all (parts : List Prop) : fits.all parts ↔ ∀ part ∈ parts, part := Iff.rfl

end Sink

namespace Primitives

variable {n : ℕ} {z : ℤ} {s : String} {bytes : List UInt8} {b : Bool}

@[simp] theorem run_byte (h : Sink.fits.byte n) (f : ℕ → Cursor β) (rest : List UInt8) :
    (p.readByte >>= f).run (p.sink.byte n ++ rest) = (f n).run rest :=
  (p.byte_back n h).run_bind f rest

@[simp] theorem run_u32 (h : Sink.fits.u32 n) (f : ℕ → Cursor β) (rest : List UInt8) :
    (p.readU32 >>= f).run (p.sink.u32 n ++ rest) = (f n).run rest :=
  (p.u32_back n h).run_bind f rest

@[simp] theorem run_u64 (h : Sink.fits.u64 n) (f : ℕ → Cursor β) (rest : List UInt8) :
    (p.readU64 >>= f).run (p.sink.u64 n ++ rest) = (f n).run rest :=
  (p.u64_back n h).run_bind f rest

@[simp] theorem run_u128 (h : Sink.fits.u128 n) (f : ℕ → Cursor β) (rest : List UInt8) :
    (p.readU128 >>= f).run (p.sink.u128 n ++ rest) = (f n).run rest :=
  (p.u128_back n h).run_bind f rest

@[simp] theorem run_i128 (h : Sink.fits.i128 z) (f : ℤ → Cursor β) (rest : List UInt8) :
    (p.readI128 >>= f).run (p.sink.i128 z ++ rest) = (f z).run rest :=
  (p.i128_back z h.1 h.2).run_bind f rest

@[simp] theorem run_text (h : Sink.fits.text s) (f : String → Cursor β) (rest : List UInt8) :
    (p.readText >>= f).run (p.sink.text s ++ rest) = (f s).run rest :=
  (p.text_back s h).run_bind f rest

@[simp] theorem run_counted (h : Sink.fits.counted bytes) (f : List UInt8 → Cursor β)
    (rest : List UInt8) :
    (p.readCounted >>= f).run (p.sink.counted bytes ++ rest) = (f bytes).run rest :=
  (p.counted_back bytes h).run_bind f rest

@[simp] theorem run_array (h : Sink.fits.array n bytes) (f : List UInt8 → Cursor β)
    (rest : List UInt8) :
    (p.take n >>= f).run (p.sink.array n bytes ++ rest) = (f bytes).run rest := by
  obtain rfl : bytes.length = n := h
  exact (p.take_back bytes).run_bind f rest

@[simp] theorem run_flag (f : Bool → Cursor β) (rest : List UInt8) :
    (p.readFlag >>= f).run (p.sink.flag b ++ rest) = (f b).run rest := by
  have hbyte : Sink.fits.byte (if b then 1 else 0) := by
    change _ < 2 ^ 8
    cases b <;> decide
  rw [readFlag, bind_assoc, Sink.flag, run_byte hbyte]
  cases b <;> rfl

end Primitives

namespace Primitives

theorem u32_forms : Forms p (fun out => out.u32) p.readU32 := fun n hn => p.u32_back n hn

theorem u64_forms : Forms p (fun out => out.u64) p.readU64 := fun n hn => p.u64_back n hn

theorem u128_forms : Forms p (fun out => out.u128) p.readU128 := fun n hn => p.u128_back n hn

theorem text_forms : Forms p (fun out => out.text) p.readText := fun s hs => p.text_back s hs

theorem counted_forms : Forms p (fun out => out.counted) p.readCounted := fun bytes hbytes =>
  p.counted_back bytes hbytes

theorem flag_forms : Forms p (fun out => out.flag) p.readFlag := by
  intro b _ rest
  have hrun := p.run_flag (b := b) pure rest
  rwa [bind_pure] at hrun

end Primitives

namespace Forms

variable {a : α} {as : List α} {o : Option α}

theorem run (h : Forms p write read) (ha : write Sink.fits a) (f : α → Cursor β)
    (rest : List UInt8) : (read >>= f).run (write p.sink a ++ rest) = (f a).run rest :=
  (h a ha).run_bind f rest

theorem optional (h : Forms p write read) :
    Forms p (fun out => out.optional (write out)) (p.readOptional read) := by
  intro o ho rest
  cases o with
  | none =>
      have hbyte : Sink.fits.byte 0 := Nat.two_pow_pos 8
      exact p.run_byte hbyte _ rest
  | some a =>
      have hbyte : Sink.fits.byte 1 := Nat.one_lt_two_pow (by decide)
      have ha : write Sink.fits a := ho _ (by simp)
      simp only [Sink.optional, Sink.sink_all, List.flatten_cons, List.flatten_nil,
        List.append_nil, List.append_assoc]
      rw [Primitives.readOptional]
      refine (p.run_byte hbyte _ _).trans ?_
      exact h.run ha _ rest

theorem list (h : Forms p write read) :
    Forms p (fun out => out.list (write out)) (p.readList read) := by
  intro as has
  exact p.list_back _ read as has.1 fun a ha => h a (has.2 a ha)

theorem each (h : Forms p write read) :
    Forms p (fun out => out.each (write out)) (p.readEach read) := by
  intro as has rest
  have hcount : as.length < 2 ^ 32 := has _ List.mem_cons_self
  have heach : ∀ a ∈ as, write Sink.fits a := fun a ha =>
    has _ (List.mem_cons_of_mem _ (List.mem_map_of_mem ha))
  have hmin : min as.length (2 ^ 32 - 1) = as.length := by omega
  have hwrite : p.sink.each (write p.sink) as ++ rest =
      p.sink.u32 as.length ++ ((as.map (write p.sink)).flatten ++ rest) := by
    simp only [Sink.each, Sink.sink_all, List.flatten_cons, List.append_assoc]
    change p.u32 (min as.length (2 ^ 32 - 1)) ++ _ = _
    rw [hmin]
    rfl
  simp only [hwrite]
  rw [Primitives.readEach, p.run_u32 hcount,
    ReadsBack.times fun a ha => h a (heach a ha)]

/-! A value of several kinds is written as its kind's number and its parts, and read by its number. -/

section

variable {α₁ α₂ α₃ γ : Type} {write₁ : {β : Type} → Sink β → α₁ → β}
  {write₂ : {β : Type} → Sink β → α₂ → β} {write₃ : {β : Type} → Sink β → α₃ → β}
  {read₁ : Cursor α₁} {read₂ : Cursor α₂} {read₃ : Cursor α₃} {n : ℕ} {f : ℕ → Cursor γ}
  {a₁ : α₁} {a₂ : α₂} {a₃ : α₃}

theorem run_one {g : α₁ → γ} (h₁ : Forms p write₁ read₁)
    (hf : f n = do return g (← read₁))
    (h : Sink.fits.all [Sink.fits.byte n, write₁ Sink.fits a₁]) (rest : List UInt8) :
    (p.readByte >>= f).run (p.sink.all [p.sink.byte n, write₁ p.sink a₁] ++ rest) =
      .ok (g a₁, rest) := by
  simp only [Sink.fits_all, List.forall_mem_cons] at h
  simp only [Sink.sink_all, List.flatten_cons, List.flatten_nil, List.append_nil, List.append_assoc]
  rw [p.run_byte h.1, hf, h₁.run h.2.1]
  rfl

theorem run_two {g : α₁ → α₂ → γ} (h₁ : Forms p write₁ read₁) (h₂ : Forms p write₂ read₂)
    (hf : f n = do return g (← read₁) (← read₂))
    (h : Sink.fits.all [Sink.fits.byte n, write₁ Sink.fits a₁, write₂ Sink.fits a₂])
    (rest : List UInt8) :
    (p.readByte >>= f).run
        (p.sink.all [p.sink.byte n, write₁ p.sink a₁, write₂ p.sink a₂] ++ rest) =
      .ok (g a₁ a₂, rest) := by
  simp only [Sink.fits_all, List.forall_mem_cons] at h
  simp only [Sink.sink_all, List.flatten_cons, List.flatten_nil, List.append_nil, List.append_assoc]
  rw [p.run_byte h.1, hf, h₁.run h.2.1, h₂.run h.2.2.1]
  rfl

theorem run_three {g : α₁ → α₂ → α₃ → γ} (h₁ : Forms p write₁ read₁) (h₂ : Forms p write₂ read₂)
    (h₃ : Forms p write₃ read₃) (hf : f n = do return g (← read₁) (← read₂) (← read₃))
    (h : Sink.fits.all
      [Sink.fits.byte n, write₁ Sink.fits a₁, write₂ Sink.fits a₂, write₃ Sink.fits a₃])
    (rest : List UInt8) :
    (p.readByte >>= f).run
        (p.sink.all [p.sink.byte n, write₁ p.sink a₁, write₂ p.sink a₂, write₃ p.sink a₃] ++
          rest) =
      .ok (g a₁ a₂ a₃, rest) := by
  simp only [Sink.fits_all, List.forall_mem_cons] at h
  simp only [Sink.sink_all, List.flatten_cons, List.flatten_nil, List.append_nil, List.append_assoc]
  rw [p.run_byte h.1, hf, h₁.run h.2.1, h₂.run h.2.2.1, h₃.run h.2.2.2.1]
  rfl

end

end Forms

end

end XmipPersist
