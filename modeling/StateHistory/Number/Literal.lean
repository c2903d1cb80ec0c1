import StateHistory.Number.Binary64
import StateHistory.Text.Digits

/-! # Reading numbers from text

The decimal texts of double-precision numbers: a sign at will, then `inf`, `infinity` or `nan` in any
case, or digits with at most one point among them and an exponent at will. There is at least one digit,
and nothing stands before or after. The number is the nearest one to what the text says. -/

namespace StateHistory.Binary64

/-- The exponent that ends a text, 0 when the text is over already. -/
def exponent? : List Char → Option Int
  | [] => some 0
  | e :: cs =>
    if e = 'e' ∨ e = 'E' then
      match cs with
      | '-' :: cs => (Digits.toNat? 10 cs).map fun n => -(n : Int)
      | '+' :: cs => (Digits.toNat? 10 cs).map Int.ofNat
      | cs => (Digits.toNat? 10 cs).map Int.ofNat
    else none

/-- The number of a text without sign and with at least one digit. -/
def decimal? (negative : Bool) (cs : List Char) : Option Binary64 := do
  let (whole, rest) := Digits.span 10 cs
  let (places, rest) := match rest with
    | '.' :: rest => Digits.span 10 rest
    | rest => ([], rest)
  if whole.isEmpty && places.isEmpty then none
  let e ← exponent? rest
  return ofDecimal negative (Digits.toNat 10 (whole ++ places)) (e - places.length)

/-- The number of a text without sign. -/
def unsigned? (negative : Bool) (cs : List Char) : Option Binary64 :=
  let word := String.ofList (cs.map Char.toLower)
  if word = "inf" ∨ word = "infinity" then some (infinity negative)
  else if word = "nan" then some nan
  else decimal? negative cs

/-- The number of a text. -/
def ofText? (s : String) : Option Binary64 :=
  match s.toList with
  | '-' :: cs => unsigned? true cs
  | '+' :: cs => unsigned? false cs
  | cs => unsigned? false cs

end StateHistory.Binary64
