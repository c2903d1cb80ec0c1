/-! # Byte strings

A frame, a message body and what a reader has not consumed yet are all lists of bytes.

* `Block n` is a byte string of length `n`: a checksum is a `Block 32`, a compressed key a `Block 33`.
* `ofLittleEndian` and `littleEndian` pass between a byte string and the number it spells, the
  lowest byte first; `twosComplement` reads the same bytes as a signed number.
* `toHex` is the hexadecimal form, two lower-case digits for each byte. -/

namespace StateHistory

/-- A byte string. -/
abbrev Bytes := List UInt8

namespace Bytes

/-- A byte string of a fixed length. -/
structure Block (n : Nat) where
  bytes : Bytes
  length_eq : bytes.length = n
deriving DecidableEq

namespace Block

/-- A byte `b`, repeated `n` times. -/
def fill (n : Nat) (b : UInt8) : Block n := ⟨List.replicate n b, List.length_replicate⟩

instance (n : Nat) : Inhabited (Block n) := ⟨fill n 0⟩

/-- The byte string itself when it has the wanted length. -/
def ofBytes? (n : Nat) (bytes : Bytes) : Option (Block n) :=
  if h : bytes.length = n then some ⟨bytes, h⟩ else none

end Block

/-! ### Numbers -/

/-- The number spelled by a byte string, the lowest byte first. -/
def ofLittleEndian : Bytes → Nat
  | [] => 0
  | b :: bs => b.toNat + 256 * ofLittleEndian bs

/-- The lowest `width` bytes of a number, the lowest first. -/
def littleEndian : Nat → Nat → Bytes
  | 0, _ => []
  | width + 1, v => UInt8.ofNat v :: littleEndian width (v / 256)

/-- The signed number that `v` stands for among the words of `width` bytes. -/
def twosComplement (width v : Nat) : Int :=
  if 2 * v < Nat.pow 256 width then v else (v : Int) - Nat.pow 256 width

@[simp] theorem length_littleEndian (width v : Nat) : (littleEndian width v).length = width := by
  induction width generalizing v with
  | zero => rfl
  | succ width ih => simp [littleEndian, ih]

/-! ### Splitting -/

/-- The first `n` bytes and the rest, or nothing when there are fewer than `n`. -/
def split? (n : Nat) (bs : Bytes) : Option (Block n × Bytes) :=
  (Block.ofBytes? n (bs.take n)).map (·, bs.drop n)

/-! ### Hexadecimal -/

/-- The digit of a number below sixteen. -/
def hexDigit (n : Nat) : Char := if n < 10 then Char.ofNat (48 + n) else Char.ofNat (87 + n)

/-- Two digits for each byte, the high half first. -/
def hexChars (bs : Bytes) : List Char :=
  bs.flatMap fun b => [hexDigit (b.toNat / 16), hexDigit (b.toNat % 16)]

/-- The hexadecimal form of a byte string. -/
def toHex (bs : Bytes) : String := String.ofList (hexChars bs)

/-! ### Text -/

/-- The UTF-8 bytes of a text. -/
def ofText (s : String) : Bytes := s.toUTF8.toList

/-- The text whose UTF-8 form is the byte string, if there is one. -/
def toText? (bs : Bytes) : Option String := String.fromUTF8? ⟨bs.toArray⟩

end Bytes

/-- The 32-byte digest that identifies a block. -/
abbrev Checksum256 := Bytes.Block 32

end StateHistory
