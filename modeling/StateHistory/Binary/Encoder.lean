import StateHistory.Bytes

/-! # Writing the binary format

Each function gives the bytes of one value; a message is the concatenation of the bytes of its parts.
The functions stand in the order of their readers, and a reader applied to what its function writes
gives the value back, whatever follows. -/

namespace StateHistory.Encoder

variable {α : Type}

/-- A number of four bytes. -/
def uint32 (v : UInt32) : Bytes := Bytes.littleEndian 4 v.toNat

/-- A number of eight bytes. -/
def uint64 (v : UInt64) : Bytes := Bytes.littleEndian 8 v.toNat

/-- A signed number of `width` bytes, in two's complement. -/
def signed (width : Nat) (v : Int) : Bytes := Bytes.littleEndian width (v % Nat.pow 256 width).toNat

/-- A flag byte. -/
def bool (b : Bool) : Bytes := [if b then 1 else 0]

/-- The shortest base-128 form of a number, the lowest digit first. -/
def base128 (v : Nat) : Bytes :=
  if v < 128 then [UInt8.ofNat v] else UInt8.ofNat (128 + v % 128) :: base128 (v / 128)
termination_by v

/-- A variable-length number of 32 bits. -/
def varuint32 (v : UInt32) : Bytes := base128 v.toNat

/-- A count or length. Only its lowest 32 bits have a place in the format. -/
def count (n : Nat) : Bytes := varuint32 (UInt32.ofNat n)

/-- A byte string after its length. -/
def blob (bs : Bytes) : Bytes := count bs.length ++ bs

/-- A text after its length in bytes. -/
def string (s : String) : Bytes := blob (Bytes.ofText s)

/-- A value that may be absent, after a flag. -/
def option (write : α → Bytes) : Option α → Bytes
  | some v => bool true ++ write v
  | none => bool false

/-- Values in a row after their count. -/
def vector (write : α → Bytes) (vs : List α) : Bytes := count vs.length ++ vs.flatMap write

end StateHistory.Encoder
