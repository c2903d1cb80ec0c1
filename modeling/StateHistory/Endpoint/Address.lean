import StateHistory.Text.Blank
import StateHistory.Text.Digits

/-! # Internet addresses

Addresses of both versions of the internet protocol, their readings and their normal forms.

* An address of version 4 is written as up to four numbers with points between them, each in base 10,
  8 or 16; the last number fills all bytes that are left (`ipv4?`). Its normal form has four numbers
  in base 10.
* An address of version 6 is written as eight groups of up to four hexadecimal digits, where `::` stands
  once for any groups that are zero, and an address of version 4 may stand for the last two groups
  (`ipv6?`). Its normal form shortens the first of the longest runs of zero groups. -/

namespace StateHistory.Address

/-! ### Version 4 -/

/-- Base and digits of a number in a part of an address: `0x` marks base 16 and `0` base 8. -/
def baseOf : List Char → Nat × List Char
  | '0' :: 'x' :: ds => (16, ds)
  | '0' :: 'X' :: ds => (16, ds)
  | '0' :: d :: ds => (8, d :: ds)
  | ds => (10, ds)

/-- The number of a part of an address. A base without digits is the number 0. -/
def part? (cs : List Char) : Option Nat :=
  let (base, ds) := baseOf cs
  if cs.isEmpty || !ds.all (Digits.isDigit base) then none else some (Digits.toNat base ds)

/-- The parts of a host, without an empty one at the end. -/
def parts (host : List Char) : List (List Char) :=
  let ps := Text.split '.' host
  if 1 < ps.length && ps.getLast? == some [] then ps.dropLast else ps

/-- Whether a host ends in a number, so that it has to be an address. -/
def endsInNumber (host : List Char) : Bool :=
  match (parts host).getLast? with
  | none => false
  | some last => (!last.isEmpty && last.all (Digits.isDigit 10)) || (part? last).isSome

/-- The value of numbers whose last one fills the bytes that are left, each other one a byte. -/
def ipv4Value? (numbers : List Nat) : Option Nat :=
  match numbers.reverse with
  | [] => none
  | last :: bytes =>
    let bytes := bytes.reverse
    if bytes.length < 4 ∧ last < Nat.pow 256 (4 - bytes.length) ∧ bytes.all (· < 256) then
      some (bytes.foldl (fun n b => 256 * n + b) 0 * Nat.pow 256 (4 - bytes.length) + last)
    else none

/-- The address of version 4 that a host spells. -/
def ipv4? (host : List Char) : Option Nat := do
  ipv4Value? (← (parts host).mapM part?)

/-- The normal form of an address of version 4. -/
def renderIpv4 (address : Nat) : List Char :=
  Text.join '.' ([3, 2, 1, 0].map fun i => Nat.toDigits 10 (address / Nat.pow 256 i % 256))

/-! ### Version 6 -/

/-- A byte of an address of version 4 inside one of version 6: base 10, without needless zeros. -/
def strictByte? (cs : List Char) : Option Nat := do
  let n ← Digits.toNat? 10 cs
  if n < 256 && (cs.length == 1 || cs.head? != some '0') then return n else none

/-- The two groups of an address of version 4 inside one of version 6. -/
def embedded? (cs : List Char) : Option (List Nat) := do
  match ← (Text.split '.' cs).mapM strictByte? with
  | [a, b, c, d] => return [256 * a + b, 256 * c + d]
  | _ => none

/-- The groups of a text, and how many of them stand before `::`. `room` is the number of groups that
still fit, of which `::` takes one. -/
def groups? : (room : Nat) → (gap : Option Nat) → (groups : List Nat) → List Char →
    Option (List Nat × Option Nat)
  | _, gap, groups, [] => some (groups, gap)
  | 0, _, _, _ => none
  | room + 1, gap, groups, ':' :: rest =>
    if gap.isSome then none else groups? room (some groups.length) groups rest
  | room + 1, gap, groups, cs =>
    let digits := (cs.take 4).takeWhile (Digits.isDigit 16)
    let group := Digits.toNat 16 digits
    match cs.drop digits.length with
    | [] => groups? room gap (groups ++ [group]) []
    | '.' :: _ =>
      if digits.isEmpty || room = 0 then none
      else (embedded? cs).map fun tail => (groups ++ tail, gap)
    | ':' :: rest => if rest.isEmpty then none else groups? room gap (groups ++ [group]) rest
    | _ => none

/-- The eight groups of an address of version 6. -/
def ipv6? (cs : List Char) : Option (List Nat) := do
  let (groups, gap) ← match cs with
    | ':' :: ':' :: rest => groups? 7 (some 0) [] rest
    | ':' :: _ => none
    | [] => none
    | [_] => none
    | cs => groups? 8 none [] cs
  match gap with
  | some n => return groups.take n ++ List.replicate (8 - groups.length) 0 ++ groups.drop n
  | none => if groups.length = 8 then return groups else none

/-- The number of zeros at the front. -/
def zeroRun (groups : List Nat) : Nat := (groups.takeWhile (· == 0)).length

/-- Start and length of the first of the longest runs of zeros, if it has more than one zero. -/
def longestZeroRun? (groups : List Nat) : Option (Nat × Nat) :=
  let runs := (List.range groups.length).map fun i => (i, zeroRun (groups.drop i))
  let best := runs.foldl (fun best run => if best.2 < run.2 then run else best) (0, 0)
  if 1 < best.2 then some best else none

/-- The normal form of an address of version 6. -/
def renderIpv6 (groups : List Nat) : List Char :=
  let text (gs : List Nat) : List Char := Text.join ':' (gs.map (Nat.toDigits 16))
  match longestZeroRun? groups with
  | some (start, length) =>
    text (groups.take start) ++ ':' :: ':' :: text (groups.drop (start + length))
  | none => text groups

end StateHistory.Address
