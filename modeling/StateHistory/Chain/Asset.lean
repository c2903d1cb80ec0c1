import StateHistory.Binary.Decoder

/-! # Symbols and assets

A symbol is a word of 64 bits: its lowest byte is the number of decimal places, the bytes above it are
the letters of its code, the lowest first, up to the first byte that is zero. An asset is a signed
amount, counted in units of the last decimal place, and its symbol. -/

namespace StateHistory

namespace Symbol

/-- The letters of a code of at most `width` bytes, up to the first zero byte. A byte stands for the
character of the same number. -/
def codeChars (width v : Nat) : List Char :=
  ((Bytes.littleEndian width v).takeWhile (· != 0)).map fun b => Char.ofNat b.toNat

/-- The text of a code without places. -/
def renderCode (code : UInt64) : String := String.ofList (codeChars 8 code.toNat)

/-- The number of decimal places. -/
def places (symbol : UInt64) : Nat := symbol.toNat % 256

/-- The letters of a symbol's code. -/
def chars (symbol : UInt64) : List Char := codeChars 7 (symbol.toNat / 256)

/-- The text of a symbol: its places and its code, as in `4,EOS`. -/
def render (symbol : UInt64) : String :=
  String.ofList (Nat.toDigits 10 (places symbol) ++ ',' :: chars symbol)

end Symbol

namespace Asset

/-- The digits of an amount, with zeros in front so that one digit stands before the places. -/
def digits (places amount : Nat) : List Char :=
  let ds := Nat.toDigits 10 amount
  List.replicate (places + 1 - ds.length) '0' ++ ds

/-- The decimal text of an amount with the given number of places. -/
def amountChars (places : Nat) (amount : Int) : List Char :=
  let ds := digits places amount.natAbs
  let whole := ds.take (ds.length - places)
  let fraction := ds.drop (ds.length - places)
  (if amount < 0 then ['-'] else []) ++ whole ++ (if places = 0 then [] else '.' :: fraction)

/-- The text of an asset: its amount and its code, as in `1.0000 EOS`. -/
def render (amount : Int) (symbol : UInt64) : String :=
  String.ofList (amountChars (Symbol.places symbol) amount ++ ' ' :: Symbol.chars symbol)

/-- Reads an asset as its text. -/
def decoder : Decoder String := do
  let amount ← Decoder.signed 8
  let symbol ← Decoder.uint64
  return render amount symbol

end Asset

end StateHistory
