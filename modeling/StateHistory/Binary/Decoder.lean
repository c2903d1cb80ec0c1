import StateHistory.Bytes
import StateHistory.ProtocolError

/-! # Reading the binary format

A decoder consumes a first part of a byte string and yields a value or a protocol error. What it left
unread is kept in both cases, so a reader can go on from where a failure stood:

* a fixed-size read that fails consumes nothing (`exact`);
* every other decoder is a sequence of fixed-size reads and consumes what the reads before the
  failure consumed.

Numbers are little endian. A length, a count and a variant tag are base-128 numbers of at most five
bytes (`varuint32`), an optional value follows a flag byte, a vector follows its count. -/

namespace StateHistory

/-- A reader of the binary format. Its state is the input not yet consumed. -/
abbrev Decoder := EStateM ProtocolError Bytes

namespace Decoder

variable {α : Type}

/-- How a decoder ends on an input, and the input it leaves. -/
def outcome (d : Decoder α) (input : Bytes) : Except ProtocolError α × Bytes :=
  match d.run input with
  | .ok v rest => (.ok v, rest)
  | .error e rest => (.error e, rest)

/-- The value at the front of an input; what follows it does not matter. -/
def decode (d : Decoder α) (input : Bytes) : Except ProtocolError α := (d.outcome input).1

/-- The number of bytes left to read. -/
def remaining : Decoder Nat := fun input => .ok input.length input

/-- Whether the input is used up. -/
def atEnd : Decoder Bool := fun input => .ok input.isEmpty input

/-! ### Fixed sizes -/

/-- The next `n` bytes, all of them or none. -/
def exact (n : Nat) : Decoder (Bytes.Block n) := fun input =>
  match input.split? n with
  | some (w, rest) => .ok w rest
  | none => .error (.truncated n input.length) input

/-- The next `n` bytes as a byte string. -/
def bytes (n : Nat) : Decoder Bytes := return (← exact n).bytes

/-- The next byte. -/
def uint8 : Decoder UInt8 := fun input =>
  match input with
  | b :: rest => .ok b rest
  | [] => .error (.truncated 1 0) []

/-- A number of `width` bytes without sign. -/
def unsigned (width : Nat) : Decoder Nat := return Bytes.ofLittleEndian (← bytes width)

/-- A number of `width` bytes with sign, in two's complement. -/
def signed (width : Nat) : Decoder Int := return Bytes.twosComplement width (← unsigned width)

/-- A number of four bytes without sign. -/
def uint32 : Decoder UInt32 := return UInt32.ofNat (← unsigned 4)

/-- A number of eight bytes without sign. -/
def uint64 : Decoder UInt64 := return UInt64.ofNat (← unsigned 8)

/-- A flag: one byte that is 0 or 1. -/
def bool : Decoder Bool := do
  let b ← uint8
  if b = 0 then return false
  else if b = 1 then return true
  else throw (.invalidBool b)

/-! ### Variable lengths -/

/-- A base-128 number of at most `limit` bytes, the lowest digit first. Every byte but the last has
its high bit set. -/
def base128 : (limit : Nat) → Decoder Nat
  | 0 => throw .varintOverflow
  | limit + 1 => do
    let b ← uint8
    if b < 128 then return b.toNat
    else return b.toNat - 128 + 128 * (← base128 limit)

/-- A variable-length number of 32 bits without sign. A number beyond 32 bits is refused only once
its five bytes are read. -/
def varuint32 : Decoder UInt32 := do
  let v ← base128 5
  if v < 0x100000000 then return UInt32.ofNat v else throw .varintOverflow

/-- The signed number behind a number without sign: even numbers count up from 0, odd numbers count
down from -1. -/
def unzigzag (v : Nat) : Int := if v % 2 = 0 then (v / 2 : Nat) else -((v + 1) / 2 : Nat)

/-- A variable-length number of 32 bits with sign. -/
def varint32 : Decoder Int := return unzigzag (← varuint32).toNat

/-- A byte string after its length. -/
def blob : Decoder Bytes := do bytes (← varuint32).toNat

/-- A text after its length in bytes. -/
def string : Decoder String := do
  match (← blob).toText? with
  | some s => return s
  | none => throw .invalidUtf8

/-! ### Containers -/

/-- A value that may be absent, after a flag. -/
def option (d : Decoder α) : Decoder (Option α) := do
  if ← bool then return some (← d) else return none

/-- `n` values in a row, put behind the values of `read`, which holds the latest first. -/
def timesOnto (d : Decoder α) : (n : Nat) → (read : List α) → Decoder (List α)
  | 0, read => return read.reverse
  | n + 1, read => do
    let v ← d
    timesOnto d n (v :: read)

/-- `n` values in a row. -/
def times (d : Decoder α) (n : Nat) : Decoder (List α) := timesOnto d n []

/-- Values in a row after their count. -/
def vector (d : Decoder α) : Decoder (List α) := do times d (← varuint32).toNat

end Decoder

end StateHistory
