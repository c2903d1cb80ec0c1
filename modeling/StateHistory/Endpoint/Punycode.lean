/-! # Punycode

International labels of host names, written with ASCII characters. The ASCII characters of a label
stand first, followed by a hyphen; the others follow as differences, in the order of their numbers and
places. A difference is written with thirty-six digits, the lowest first, under thresholds that adapt
to the differences before it.

`encode` goes through the characters of the label once for every number that is to be inserted.
`decode?` inserts one character for each difference, and refuses what is no number of a character. -/

namespace StateHistory.Punycode

/-- The digit of a number below thirty-six: letters first. -/
def digit (n : Nat) : Char := if n < 26 then Char.ofNat (97 + n) else Char.ofNat (22 + n)

/-- The number of a digit in lower case. -/
def digitValue? (c : Char) : Option Nat :=
  if 'a' ≤ c ∧ c ≤ 'z' then some (c.toNat - 97)
  else if '0' ≤ c ∧ c ≤ '9' then some (c.toNat - 22)
  else none

/-- The threshold of the digit at a position, counted in steps of 36. -/
def threshold (position bias : Nat) : Nat := min 26 (max 1 (position - bias))

/-- How often a difference is divided by 35 until it is small, and what remains. -/
def shrink (steps delta : Nat) : Nat × Nat :=
  if 455 < delta then shrink (steps + 1) (delta / 35) else (steps, delta)
termination_by delta

/-- The bias after a difference, which was inserted as the `count`-th character. -/
def adapt (delta count : Nat) (first : Bool) : Nat :=
  let delta := if first then delta / 700 else delta / 2
  let (steps, delta) := shrink 0 (delta + delta / count)
  36 * steps + 36 * delta / (delta + 38)

/-- The digits of a difference from a position on. -/
def digits (bias position n : Nat) : List Char :=
  let t := threshold position bias
  if h : n < t then [digit n]
  else digit (t + (n - t) % (36 - t)) :: digits bias (position + 36) ((n - t) / (36 - t))
termination_by n
decreasing_by
  have ht : 1 ≤ threshold position bias := by unfold threshold; omega
  have hle := Nat.div_le_self (n - threshold position bias) (36 - threshold position bias)
  omega

/-- A label on its way: the digits written, the difference so far, the bias, and the number of
characters that are done. -/
structure Encoding where
  written : List Char
  delta : Nat
  bias : Nat
  done : Nat

/-- Passes one character while the characters with number `n` are inserted. -/
def Encoding.pass (basics n : Nat) (e : Encoding) (c : Char) : Encoding :=
  if c.toNat < n then { e with delta := e.delta + 1 }
  else if c.toNat = n then
    { written := e.written ++ digits e.bias 36 e.delta
      delta := 0
      bias := adapt e.delta (e.done + 1) (e.done == basics)
      done := e.done + 1 }
  else e

/-- The numbers of the characters that are not ASCII, each once and in order. -/
def numbers (cs : List Char) : List Nat :=
  ((cs.map Char.toNat).filter (128 ≤ ·)).mergeSort.eraseDups

/-- The digits behind the ASCII characters of a label. -/
def insertions (cs : List Char) : List Char :=
  let basics := (cs.filter (·.toNat < 128)).length
  let start : Encoding := ⟨[], 0, 72, basics⟩
  let (e, _) := (numbers cs).foldl (fun (e, above) n =>
    let e := { e with delta := e.delta + (n - above) * (e.done + 1) }
    let e := cs.foldl (Encoding.pass basics n) e
    ({ e with delta := e.delta + 1 }, n + 1)) (start, 128)
  e.written

/-- The ASCII form of a label that is not ASCII. -/
def encode (cs : List Char) : List Char :=
  let basics := cs.filter (·.toNat < 128)
  (if basics.isEmpty then [] else basics ++ ['-']) ++ insertions cs

/-- The difference at the front, and the rest. -/
def difference? (bias : Nat) : (position weight sum : Nat) → List Char → Option (Nat × List Char)
  | _, _, _, [] => none
  | position, weight, sum, c :: cs => do
    let d ← digitValue? c
    let t := threshold position bias
    let sum := sum + d * weight
    if d < t then return (sum, cs)
    else difference? bias (position + 36) (weight * (36 - t)) sum cs

/-- Inserts the characters of the differences into a label. -/
def insertAll? : (bound : Nat) → (n i bias : Nat) → (label rest : List Char) → Option (List Char)
  | _, _, _, _, label, [] => some label
  | 0, _, _, _, _, _ => none
  | bound + 1, n, i, bias, label, rest => do
    let (d, rest) ← difference? bias 36 1 0 rest
    let count := label.length + 1
    let place := i + d
    let n := n + place / count
    let place := place % count
    if h : n.isValidChar then
      let c : Char := Char.ofNatAux n h
      insertAll? bound n (place + 1) (adapt d count (i == 0))
        (label.take place ++ c :: label.drop place) rest
    else none

/-- The label behind an ASCII form in lower case. -/
def decode? (cs : List Char) : Option (List Char) :=
  let tail := (cs.reverse.takeWhile (· != '-')).reverse
  let basics := (cs.take (cs.length - tail.length)).dropLast
  insertAll? (tail.length + 1) 128 0 72 basics tail

end StateHistory.Punycode
