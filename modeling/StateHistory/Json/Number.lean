import StateHistory.Json.Tree
import StateHistory.Number.Binary64

/-! # Numbers of a JSON text

What the numerals of a JSON text stand for. An integral numeral is an integer when it fits into a signed
word of 64 bits. Every other numeral is a double-precision number, found in two steps that each round:
its leading digits, as many as fit into an unsigned word of 64 bits, become a number, and this one is
multiplied or divided by a power of ten. A result beyond the largest number spoils the text. -/

namespace StateHistory.Json.Numeral

/-- The power of ten nearest to `10 ^ n`. -/
def powerOfTen (n : Nat) : Binary64 := Binary64.ofDecimal false 1 n

/-- The largest exponent of a power of ten that is a number. -/
def maxPower : Nat := 308

/-- The digits that fit into an unsigned word of 64 bits, and how many were left out. -/
def leading (digits : Nat) : Nat × Nat :=
  if digits < 0x10000000000000000 then (digits, 0)
  else
    let (kept, dropped) := leading (digits / 10)
    (kept, dropped + 1)
termination_by digits
decreasing_by omega

/-- A number divided by `10 ^ n`, in steps of the largest power. Two such steps leave nothing of a
number of twenty digits. -/
def shrink (x : Binary64) (n : Nat) : Binary64 :=
  if n ≤ maxPower then x.div (powerOfTen n)
  else if n ≤ 2 * maxPower then (x.div (powerOfTen maxPower)).div (powerOfTen (n - maxPower))
  else Binary64.zero false

/-- The magnitude of `digits · 10 ^ exponent`, unless it is beyond the largest number. -/
def magnitude? (digits : Nat) (exponent : Int) : Option Binary64 :=
  let (kept, dropped) := leading digits
  let e := exponent + dropped
  let x := Binary64.ofNat kept
  if kept = 0 then some x
  else if e < 0 then some (shrink x (-e).toNat)
  else if maxPower < e then none
  else
    let y := x.mul (powerOfTen e.toNat)
    if y = Binary64.infinity false then none else some y

/-- The number of a numeral. -/
def toBinary64? (n : Numeral) : Option Binary64 :=
  (magnitude? n.digits n.exponent).map fun x =>
    if n.negative then x.mul (Binary64.ofInt (-1)) else x

/-- The integer of an integral numeral that fits into a signed word of 64 bits. Zero with a sign is no
integer. -/
def toInt? (n : Numeral) : Option Int :=
  if !n.integral then none
  else if n.negative then
    if 0 < n.digits ∧ n.digits ≤ 0x8000000000000000 then some (-(n.digits : Int)) else none
  else if n.digits < 0x8000000000000000 then some n.digits else none

end StateHistory.Json.Numeral
