/-! # Double-precision numbers

A number of the IEEE 754 format `binary64`, held as its 64 bits and computed with exactly.

* `view` takes the bits apart: a finite number is `± m · 2 ^ q` for natural `m` and integer `q`.
* `ofRatio` is the number nearest to a quotient of natural numbers, the one with the even mantissa
  when two are equally near. Products, quotients and the reading of a decimal are the exact result,
  rounded once.
* `truncate` and `round` are the two ways to an integer. Both stop at the bounds of the words they
  fill, and a value that is no number counts as 0. -/

namespace StateHistory

/-- A number of the format `binary64`, by its bits. -/
structure Binary64 where
  bits : UInt64
deriving DecidableEq, Repr, Inhabited

namespace Binary64

/-- What the bits stand for. -/
inductive View where
  | nan
  | infinite (negative : Bool)
  /-- The value `mantissa · 2 ^ exponent`, or its opposite. -/
  | finite (negative : Bool) (mantissa : Nat) (exponent : Int)
deriving DecidableEq, Repr

/-- Sign, mantissa and exponent of a number. -/
def view (x : Binary64) : View :=
  let word := x.bits.toNat
  let negative := decide (0x8000000000000000 ≤ word)
  let biased : Nat := word / 0x10000000000000 % 2048
  let fraction := word % 0x10000000000000
  if biased = 2047 then if fraction = 0 then .infinite negative else .nan
  else if biased = 0 then .finite negative fraction (-1074)
  else .finite negative (0x10000000000000 + fraction) ((biased : Int) - 1075)

/-- A word with a given sign. -/
def ofWord (negative : Bool) (word : Nat) : Binary64 :=
  ⟨UInt64.ofNat (if negative then 0x8000000000000000 + word else word)⟩

/-- The zero of a given sign. -/
def zero (negative : Bool) : Binary64 := ofWord negative 0

/-- The infinity of a given sign. -/
def infinity (negative : Bool) : Binary64 := ofWord negative 0x7ff0000000000000

/-- A value that is no number. -/
def nan : Binary64 := ofWord false 0x7ff8000000000000

/-! ### Rounding -/

/-- The integer nearest to `num / den`, the even one of two. -/
def roundHalfEven (num den : Nat) : Nat :=
  let low := num / den
  let twice := 2 * (num % den)
  if twice < den then low
  else if den < twice then low + 1
  else low + low % 2

/-- The integer nearest to `num / den`, the larger of two. -/
def roundHalfUp (num den : Nat) : Nat := (2 * num + den) / (2 * den)

/-- Numerator and denominator of `num / den · 2 ^ e`. -/
def scale (num den : Nat) (e : Int) : Nat × Nat :=
  if 0 ≤ e then (num * Nat.pow 2 e.toNat, den) else (num, den * Nat.pow 2 (-e).toNat)

/-- The exponent `e` with `2 ^ e ≤ num / den < 2 ^ (e + 1)`, for a positive quotient. -/
def binaryExponent (num den : Nat) : Int :=
  let e : Int := (num.log2 : Int) - den.log2
  let (n, d) := scale num den (-e)
  if d ≤ n then e else e - 1

/-- The number nearest to `num / den`, with a sign. A quotient beyond the largest number becomes an
infinity. -/
def ofRatio (negative : Bool) (num den : Nat) : Binary64 :=
  if num = 0 then zero negative
  else
    let q := max (binaryExponent num den - 52) (-1074)
    let (n, d) := scale num den (-q)
    let word := (q + 1074).toNat * 0x10000000000000 + roundHalfEven n d
    if word < 0x7ff0000000000000 then ofWord negative word else infinity negative

/-- The number nearest to `mantissa · 2 ^ exponent`, with a sign. -/
def ofScaled (negative : Bool) (mantissa : Nat) (exponent : Int) : Binary64 :=
  let (n, d) := scale mantissa 1 exponent
  ofRatio negative n d

/-- The number nearest to a natural number. -/
def ofNat (n : Nat) : Binary64 := ofRatio false n 1

/-- The number nearest to an integer. -/
def ofInt (n : Int) : Binary64 := ofRatio (decide (n < 0)) n.natAbs 1

/-- The number nearest to `digits · 10 ^ exponent`, with a sign. Exponents that are far outside the
range of the format are decided without computing the power. -/
def ofDecimal (negative : Bool) (digits : Nat) (exponent : Int) : Binary64 :=
  if digits = 0 then zero negative
  else if 310 < exponent then infinity negative
  else if exponent + (digits.log2 : Int) < -1100 then zero negative
  else if 0 ≤ exponent then ofRatio negative (digits * Nat.pow 10 exponent.toNat) 1
  else ofRatio negative digits (Nat.pow 10 (-exponent).toNat)

/-! ### Arithmetic -/

/-- The product, rounded once. -/
def mul (x y : Binary64) : Binary64 :=
  match x.view, y.view with
  | .finite s m p, .finite t n q => ofScaled (s != t) (m * n) (p + q)
  | .infinite s, .infinite t => infinity (s != t)
  | .infinite s, .finite t n _ => if n = 0 then nan else infinity (s != t)
  | .finite s m _, .infinite t => if m = 0 then nan else infinity (s != t)
  | .nan, _ => nan
  | _, .nan => nan

/-- The quotient, rounded once. -/
def div (x y : Binary64) : Binary64 :=
  match x.view, y.view with
  | .finite s m p, .finite t n q =>
    if n = 0 then if m = 0 then nan else infinity (s != t)
    else
      let (num, den) := scale m n (p - q)
      ofRatio (s != t) num den
  | .infinite s, .finite t _ _ => infinity (s != t)
  | .finite s _ _, .infinite t => zero (s != t)
  | .infinite _, .infinite _ => nan
  | .nan, _ => nan
  | _, .nan => nan

/-- Whether the bits stand for no number. -/
def isNaN (x : Binary64) : Bool := x.view == .nan

/-- The place of a number in the order of all numbers; the two zeros share theirs. -/
def rank (x : Binary64) : Int :=
  let word := x.bits.toNat
  if 0x8000000000000000 ≤ word then -((word : Int) - 0x8000000000000000) else word

/-- Whether `x` is a number below the number `y`. -/
def lt (x y : Binary64) : Bool := !x.isNaN && !y.isNaN && decide (x.rank < y.rank)

/-! ### Integers -/

/-- The largest word of 64 bits. -/
def maxWord : Nat := 0xffffffffffffffff

/-- The smallest signed word of 64 bits. -/
def minInteger : Int := -0x8000000000000000

/-- The largest signed word of 64 bits. -/
def maxInteger : Int := 0x7fffffffffffffff

/-- The integer part of a number, kept between 0 and the largest word of 64 bits. -/
def truncate (x : Binary64) : Nat :=
  match x.view with
  | .nan => 0
  | .infinite negative => if negative then 0 else maxWord
  | .finite negative m q =>
    let (n, d) := scale m 1 q
    if negative then 0 else min (n / d) maxWord

/-- The nearest integer, the one farther from 0 of two, kept among the signed words of 64 bits. -/
def round (x : Binary64) : Int :=
  match x.view with
  | .nan => 0
  | .infinite negative => if negative then minInteger else maxInteger
  | .finite negative m q =>
    let (n, d) := scale m 1 q
    let magnitude := roundHalfUp n d
    if negative then max (-(magnitude : Int)) minInteger else min (magnitude : Int) maxInteger

/-! ### Single precision -/

/-- The number that a word of the format `binary32` stands for; every such number is also one of
`binary64`. -/
def ofBinary32 (bits : UInt32) : Binary64 :=
  let word := bits.toNat
  let negative := decide (0x80000000 ≤ word)
  let biased : Nat := word / 0x800000 % 256
  let fraction := word % 0x800000
  if biased = 255 then if fraction = 0 then infinity negative else nan
  else if biased = 0 then ofScaled negative fraction (-149)
  else ofScaled negative (0x800000 + fraction) ((biased : Int) - 150)

end Binary64

end StateHistory
