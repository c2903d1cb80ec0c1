import StateHistory.Number.Literal
import StateHistory.Number.Shortest
import StateHistory.Text.Quoted

/-! # Configuration values

What a configuration holds: scalars, arrays and tables. A value remembers where it came from, so that a
message about it can say so.

A scalar is read in whatever way is asked for, as far as that makes sense.

* As an integer: the nearest integer of a fractional number, 1 and 0 for the truth values and for the
  words that stand for them, and the number that a text spells.
* As a fractional number: likewise, with every integer.
* As a text: the text that a scalar is usually written as. -/

namespace StateHistory.Configuration

/-- A value without parts. -/
inductive Scalar where
  | nothing
  | boolean (b : Bool)
  | integer (n : Int)
  | float (x : Binary64)
  | text (s : String)
deriving DecidableEq, Repr, Inhabited

/-- A value, and where it came from. -/
inductive Value where
  | scalar (origin : Option String) (content : Scalar)
  | array (origin : Option String) (items : List Value)
  | table (origin : Option String) (entries : List (String × Value))
deriving Inhabited

namespace Scalar

/-- The truth value that a word stands for, in any case. -/
def truth? (s : String) : Option Bool :=
  let word := String.ofList (s.toList.map Char.toLower)
  if word ∈ ["true", "on", "yes"] then some true
  else if word ∈ ["false", "off", "no"] then some false
  else none

/-- A scalar as an integer of 64 bits. -/
def integer? : Scalar → Option Int
  | nothing => none
  | boolean b => some b.toInt
  | integer n => some n
  | float x => some x.round
  | text s =>
    match truth? s with
    | some b => some b.toInt
    | none => Digits.integer? 0x8000000000000000 s.toList

/-- A scalar as a double-precision number. -/
def float? : Scalar → Option Binary64
  | nothing => none
  | boolean b => some (Binary64.ofInt b.toInt)
  | integer n => some (Binary64.ofInt n)
  | float x => some x
  | text s =>
    match truth? s with
    | some b => some (Binary64.ofInt b.toInt)
    | none => Binary64.ofText? s

/-- A scalar as a text. -/
def text? : Scalar → Option String
  | nothing => none
  | boolean b => some (if b then "true" else "false")
  | integer n => some (toString n)
  | float x => some (DecimalLayout.plain.render x)
  | text s => some s

/-- A scalar in a message. Fractional numbers show their fraction. -/
def describe : Scalar → String
  | nothing => "unit value"
  | boolean b => "boolean \x60" ++ (if b then "true" else "false") ++ "\x60"
  | integer n => "integer \x60" ++ toString n ++ "\x60"
  | float x => "floating point \x60" ++ { DecimalLayout.plain with pointZero := true }.render x ++ "\x60"
  | text s => "string " ++ Text.quoted s

end Scalar

namespace Value

/-- Where a value came from. -/
def origin : Value → Option String
  | scalar origin _ | array origin _ | table origin _ => origin

/-- A value in a message. -/
def describe : Value → String
  | scalar _ content => content.describe
  | array _ _ => "sequence"
  | table _ _ => "map"

/-- A scalar that came from nowhere. -/
def plain (content : Scalar) : Value := scalar none content

/-- A table without entries. -/
def empty : Value := table none []

/-- A value as a scalar. -/
def scalar? : Value → Option Scalar
  | scalar _ content => some content
  | _ => none

/-- A value as a table: any other value gives way to an empty one. -/
def asTable : Value → Option String × List (String × Value)
  | table origin entries => (origin, entries)
  | _ => (none, [])

/-- A value as an array: any other value gives way to an empty one. -/
def asArray : Value → Option String × List Value
  | array origin items => (origin, items)
  | _ => (none, [])

end Value

end StateHistory.Configuration
