import XmipPersist.Library.BigEndian
import XmipPersist.Library.Wire

/-! # Numbers written big-endian, and texts, bytes and lists after their length -/

namespace XmipPersist.Octets

variable {α : Type} {n width : ℕ} {bytes : List UInt8}

/-! ## What is left of the bytes -/

/-- So many of the bytes that are left. -/
def take (n : ℕ) : Cursor (List UInt8) := do
  let bytes ← get
  if n ≤ bytes.length then
    set (bytes.drop n)
    return bytes.take n
  else throw "the bytes end here"

theorem take_back (bytes : List UInt8) : ReadsBack id (take bytes.length) bytes := by
  intro rest
  have hle : bytes.length ≤ (bytes ++ rest).length := by simp
  simp only [take, id, StateT.run_bind, StateT.run_get, pure_bind, hle, if_true, StateT.run_set,
    List.drop_left, List.take_left]
  rfl

/-- Bytes that must all be read. -/
def fromBytes (read : Cursor α) (bytes : List UInt8) : Except String α := do
  let (a, rest) ← read.run bytes
  if rest.isEmpty then return a
  else throw "bytes are left"

/-! ## Numbers -/

def number (width n : ℕ) : List UInt8 := (bigEndian width n).map UInt8.ofNat

def readNumber (width : ℕ) : Cursor ℕ := do
  return ofBigEndian ((← take width).map UInt8.toNat)

theorem length_number (width n : ℕ) : (number width n).length = width := by simp [number]

theorem toNat_number (width n : ℕ) : (number width n).map UInt8.toNat = bigEndian width n := by
  rw [number, List.map_map]
  refine (List.map_congr_left fun byte hbyte => ?_).trans (List.map_id _)
  have hle := le_of_mem_bigEndian hbyte
  simp only [Function.comp_apply, UInt8.toNat_ofNat', id]
  omega

theorem number_back (hn : n < 256 ^ width) : ReadsBack (number width) (readNumber width) n := by
  intro rest
  have hback := (take_back (number width n)).run_bind
    (fun bytes => (pure (ofBigEndian (bytes.map UInt8.toNat)) : Cursor ℕ)) rest
  rw [length_number] at hback
  refine hback.trans ?_
  rw [toNat_number, ofBigEndian_bigEndian hn]
  rfl

/-- A number with a sign, in two's complement. -/
def signed (width : ℕ) (z : ℤ) : List UInt8 := number width (z % 256 ^ width).toNat

def readSigned (width : ℕ) : Cursor ℤ := do
  let n ← readNumber width
  return if 2 * n < 256 ^ width then n else n - 256 ^ width

theorem signed_back {z : ℤ} (hmin : -256 ^ width ≤ 2 * z) (hmax : 2 * z < 256 ^ width) :
    ReadsBack (signed width) (readSigned width) z := by
  intro rest
  have hpow : (256 ^ width : ℤ) = ((256 ^ width : ℕ) : ℤ) := by norm_num
  have hmod : z % 256 ^ width = if 0 ≤ z then z else z + 256 ^ width := by
    split
    · exact Int.emod_eq_of_lt ‹_› (by omega)
    · rw [← Int.add_emod_right]
      exact Int.emod_eq_of_lt (by omega) (by omega)
  have hn : (z % 256 ^ width).toNat < 256 ^ width := by
    rw [hmod]
    split <;> omega
  have hz : (if 2 * (z % 256 ^ width).toNat < 256 ^ width then ((z % 256 ^ width).toNat : ℤ)
      else (z % 256 ^ width).toNat - 256 ^ width) = z := by
    rw [hmod]
    split <;> split <;> omega
  refine ((number_back hn).run_bind _ rest).trans ?_
  rw [hz]
  rfl

/-! ## Texts, bytes and lists -/

def counted (bytes : List UInt8) : List UInt8 := number 4 bytes.length ++ bytes

def readCounted : Cursor (List UInt8) := do take (← readNumber 4)

theorem counted_back (h : bytes.length < 2 ^ 32) : ReadsBack counted readCounted bytes := by
  intro rest
  have hn : bytes.length < 256 ^ 4 := by omega
  rw [counted, List.append_assoc, readCounted, (number_back hn).run_bind]
  exact take_back bytes rest

def text (s : String) : List UInt8 := counted s.toUTF8.data.toList

def readText : Cursor String := do
  match String.fromUTF8? ⟨(← readCounted).toArray⟩ with
  | some s => return s
  | none => throw "no text"

theorem text_back {s : String} (h : s.utf8ByteSize < 2 ^ 32) : ReadsBack text readText s := by
  intro rest
  have hback : ReadsBack counted readCounted s.toUTF8.data.toList :=
    counted_back (by simpa using h)
  rw [readText, text, hback.run_bind]
  simp [String.fromUTF8?, s.isValidUTF8]
  rfl

def list (write : α → List UInt8) (as : List α) : List UInt8 :=
  number 4 as.length ++ as.flatMap write

def readList (read : Cursor α) : Cursor (List α) := do Primitives.times read (← readNumber 4)

theorem list_back {write : α → List UInt8} {read : Cursor α} {as : List α}
    (hlength : as.length < 2 ^ 32) (heach : ∀ a ∈ as, ReadsBack write read a) :
    ReadsBack (list write) (readList read) as := by
  intro rest
  have hn : as.length < 256 ^ 4 := by omega
  rw [list, List.append_assoc, readList, (number_back hn).run_bind, List.flatMap]
  exact ReadsBack.times heach rest

/-- The primitives these are. -/
def primitives : Primitives where
  byte := number 1
  u32 := number 4
  u64 := number 8
  u128 := number 16
  i128 := signed 16
  text := text
  counted := counted
  list := list
  readByte := readNumber 1
  readU32 := readNumber 4
  readU64 := readNumber 8
  readU128 := readNumber 16
  readI128 := readSigned 16
  readText := readText
  readCounted := readCounted
  take := take
  readList := readList
  fromBytes := fromBytes
  byte_back n hn := number_back (by omega)
  u32_back n hn := number_back (by omega)
  u64_back n hn := number_back (by omega)
  u128_back n hn := number_back (by omega)
  i128_back z hmin hmax := signed_back (by omega) (by omega)
  text_back s hs := text_back hs
  counted_back bytes hbytes := counted_back hbytes
  take_back := take_back
  list_back write read as hlength heach := list_back hlength heach
  u64_ne n := List.ne_nil_of_length_pos (by simp [length_number])
  fromBytes_ok read bytes a h := by
    rw [fromBytes, h]
    rfl

end XmipPersist.Octets
