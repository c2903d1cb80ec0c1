/-! # Digits

Numbers written in a base up to sixteen, as lists of characters. Only the ASCII digits and letters
count as digits. -/

namespace StateHistory.Digits

/-- The value of a hexadecimal digit, in either case. -/
def value? (c : Char) : Option Nat :=
  if '0' ≤ c ∧ c ≤ '9' then some (c.toNat - 48)
  else if 'a' ≤ c ∧ c ≤ 'f' then some (c.toNat - 87)
  else if 'A' ≤ c ∧ c ≤ 'F' then some (c.toNat - 55)
  else none

/-- Whether a character is a digit in a base. -/
def isDigit (base : Nat) (c : Char) : Bool := (value? c).any (· < base)

/-- The number spelled by digits of a base; a character that is no digit counts as 0. -/
def toNat (base : Nat) (ds : List Char) : Nat :=
  ds.foldl (fun n d => base * n + (value? d).getD 0) 0

/-- The number spelled by a text that consists of at least one digit of a base and nothing else. -/
def toNat? (base : Nat) (ds : List Char) : Option Nat :=
  if !ds.isEmpty && ds.all (isDigit base) then some (toNat base ds) else none

/-- The digits at the front, and the rest. -/
def span (base : Nat) (cs : List Char) : List Char × List Char :=
  (cs.takeWhile (isDigit base), cs.dropWhile (isDigit base))

/-- A number below `bound`, written with decimal digits and, at will, a plus sign in front. -/
def natural? (bound : Nat) (cs : List Char) : Option Nat := do
  let n ← toNat? 10 (match cs with
    | '+' :: cs => cs
    | cs => cs)
  if n < bound then return n else none

/-- An integer from `-bound` to `bound - 1`, written with decimal digits and, at will, a sign in
front. -/
def integer? (bound : Nat) (cs : List Char) : Option Int :=
  match cs with
  | '-' :: cs => do
    let n ← toNat? 10 cs
    if n ≤ bound then return -(n : Int) else none
  | cs => (natural? bound cs).map Int.ofNat

end StateHistory.Digits
