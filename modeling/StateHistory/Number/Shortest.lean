import StateHistory.Number.Binary64

/-! # Shortest decimals

The decimal text of a double-precision number, with the fewest digits that read back as the same
number.

A finite number `m · 2 ^ q` is what every real between its two half-way points rounds to, the
half-way points included when `m` is even. `Shortest.search` goes down the decimal grids `10 ^ k`,
coarse grids first, and stops at the first grid that has a point in this interval. A point in the
interval exists only if one of the value's two neighbours on the grid is such a point, so testing
the two is enough; of two hits the nearer one is taken.

How the digits are written is a `DecimalLayout`. -/

namespace StateHistory

/-- The number `digits · 10 ^ exponent`. -/
structure Decimal where
  digits : Nat
  exponent : Int
deriving DecidableEq, Repr

/-- How a decimal is written. -/
structure DecimalLayout where
  /-- The decimal exponents, from the first to the second, that are written without an exponent. -/
  positionalFrom : Int
  positionalTo : Int
  /-- Whether a number without a fraction ends in `.0`. -/
  pointZero : Bool
  /-- Whether a positive exponent carries a sign. -/
  exponentPlus : Bool
  /-- Whether the upper one of two equally near decimals is taken, and not the even one. -/
  tieUp : Bool
deriving DecidableEq, Repr

namespace Shortest

/-- The value `m · 2 ^ q` and its two half-way points on the grid `10 ^ k`: the three numerators and
the common denominator. The lower gap is half as wide below a power of two. -/
def onGrid (m : Nat) (q k : Int) : Nat × Nat × Nat × Nat :=
  let up := (if 2 ≤ q then Nat.pow 2 (q - 2).toNat else 1) * (if k < 0 then Nat.pow 10 (-k).toNat else 1)
  let down := (if 2 ≤ q then 1 else Nat.pow 2 (2 - q).toNat) * (if k < 0 then 1 else Nat.pow 10 k.toNat)
  let below := if m = 0x10000000000000 ∧ -1074 < q then 1 else 2
  ((4 * m - below) * up, 4 * m * up, (4 * m + 2) * up, down)

/-- The point of the grid `10 ^ k` that stands for `m · 2 ^ q`, if the grid has one. -/
def gridPoint? (tieUp : Bool) (m : Nat) (q k : Int) : Option Nat :=
  let (low, value, high, den) := onGrid m q k
  let inside (c : Nat) : Bool :=
    if m % 2 = 0 then decide (low ≤ c * den ∧ c * den ≤ high)
    else decide (low < c * den ∧ c * den < high)
  let c := value / den
  let twice := 2 * (value % den)
  let upper := if twice = den then tieUp || c % 2 = 1 else decide (den < twice)
  match inside c, inside (c + 1) with
  | true, true => some (if upper then c + 1 else c)
  | true, false => some c
  | false, true => some (c + 1)
  | false, false => none

/-- The first hit on the grids `10 ^ k`, `10 ^ (k - 1)`, … -/
def search (tieUp : Bool) (m : Nat) (q : Int) : (grids : Nat) → (k : Int) → Decimal
  | 0, k => ⟨0, k⟩
  | grids + 1, k =>
    match gridPoint? tieUp m q k with
    | some c => ⟨c, k⟩
    | none => search tieUp m q grids (k - 1)

/-- The shortest decimal that rounds to `m · 2 ^ q`, for positive `m`. The search starts above the
number's own decimal exponent, and seventeen digits always suffice. -/
def decimal (tieUp : Bool) (m : Nat) (q : Int) : Decimal :=
  search tieUp m q 21 (((m.log2 : Int) + q + 1) * 30103 / 100000 + 1)

end Shortest

namespace DecimalLayout

/-- Digits of a number, with `point` of them before the point; zeros fill up what is missing. -/
def positional (layout : DecimalLayout) (digits : List Char) (point : Int) : List Char :=
  let size : Int := digits.length
  if point ≤ 0 then '0' :: '.' :: (List.replicate (-point).toNat '0' ++ digits)
  else if point < size then digits.take point.toNat ++ '.' :: digits.drop point.toNat
  else digits ++ List.replicate (point - size).toNat '0' ++
    (if layout.pointZero then ['.', '0'] else [])

/-- Digits of a number with one of them before the point, and the exponent. -/
def scientific (layout : DecimalLayout) (digits : List Char) (exponent : Int) : List Char :=
  let mantissa := match digits with
    | d :: e :: rest => d :: '.' :: e :: rest
    | ds => ds
  mantissa ++ 'e' ::
    ((if 0 ≤ exponent && layout.exponentPlus then ['+'] else []) ++ (toString exponent).toList)

/-- The text of a decimal. -/
def decimalChars (layout : DecimalLayout) (d : Decimal) : List Char :=
  let digits := Nat.toDigits 10 d.digits
  let point : Int := digits.length + d.exponent
  if layout.positionalFrom ≤ point - 1 ∧ point - 1 ≤ layout.positionalTo then
    layout.positional digits point
  else layout.scientific digits (point - 1)

/-- The text of a number. -/
def render (layout : DecimalLayout) (x : Binary64) : String :=
  match x.view with
  | .nan => "NaN"
  | .infinite negative => if negative then "-inf" else "inf"
  | .finite negative m q =>
    let magnitude :=
      if m = 0 then layout.positional ['0'] 1
      else layout.decimalChars (Shortest.decimal layout.tieUp m q)
    String.ofList (if negative then '-' :: magnitude else magnitude)

/-- All digits are written out, and nothing follows an integer. -/
def plain : DecimalLayout where
  positionalFrom := -1000
  positionalTo := 1000
  pointZero := false
  exponentPlus := false
  tieUp := true

end DecimalLayout

end StateHistory
