/-! # Account names

The name of an account, an action or a table is a word of 64 bits that packs up to thirteen letters of
an alphabet of thirty-two: twelve groups of five bits from the top, then a group of four. Letter 0 is
the dot, and dots at the end are not written, so `0` is the empty name. -/

namespace StateHistory.Name

/-- The letters, in the order of their values. -/
def alphabet : List Char := ".12345abcdefghijklmnopqrstuvwxyz".toList

/-- The letter of a value below thirty-two. -/
def letter (i : Nat) : Char := alphabet.getD i '.'

/-- The thirteen groups of a word, the highest first. -/
def groups (v : UInt64) : List Nat :=
  (List.range 12).map (fun i => v.toNat / Nat.pow 2 (59 - 5 * i) % 32) ++ [v.toNat % 16]

/-- A list without the dots at its end. -/
def dropDots (cs : List Char) : List Char := (cs.reverse.dropWhile (· == '.')).reverse

/-- The letters of a name. -/
def chars (v : UInt64) : List Char := dropDots ((groups v).map letter)

/-- The text of a name. -/
def render (v : UInt64) : String := String.ofList (chars v)

end StateHistory.Name
