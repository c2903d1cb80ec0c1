import StateHistory.Text.Blank
import StateHistory.Text.Digits

/-! # TOML dates

A date, a time of day, or both, with an offset from universal time after a date. They are brought to one
spelling: a capital `T` between date and time, a capital `Z` for universal time, and a fraction of at
most nine digits without zeros at its end. -/

namespace StateHistory.Toml.DateTime

/-- A number of exactly `width` digits up to `limit` at the front, and the rest. -/
def number? (width limit : Nat) (cs : List Char) : Option (Nat × List Char) := do
  let digits := cs.take width
  let n ← Digits.toNat? 10 digits
  if digits.length = width ∧ n ≤ limit then return (n, cs.drop width) else none

/-- What follows a character at the front. -/
def after? (c : Char) : List Char → Option (List Char)
  | d :: cs => if d = c then some cs else none
  | [] => none

/-- A number in at least `width` digits. -/
def padded (width n : Nat) : List Char :=
  let digits := Nat.toDigits 10 n
  List.replicate (width - digits.length) '0' ++ digits

/-- The date at the front in its one spelling, and the rest. -/
def date? (cs : List Char) : Option (List Char × List Char) := do
  let (year, cs) ← number? 4 9999 cs
  let (month, cs) ← number? 2 12 (← after? '-' cs)
  let (day, cs) ← number? 2 31 (← after? '-' cs)
  if month = 0 ∨ day = 0 then none
  return (padded 4 year ++ '-' :: padded 2 month ++ '-' :: padded 2 day, cs)

/-- The fraction of a second at the front in its one spelling, and the rest. -/
def fraction? : List Char → Option (List Char × List Char)
  | '.' :: cs =>
    let (digits, rest) := Digits.span 10 cs
    let kept := Text.dropEndWhile (· == '0') (digits.take 9)
    if digits.isEmpty then none
    else some (if kept.isEmpty then [] else '.' :: kept, rest)
  | cs => some ([], cs)

/-- The time of day at the front in its one spelling, and the rest. -/
def time? (cs : List Char) : Option (List Char × List Char) := do
  let (hour, cs) ← number? 2 24 cs
  let (minute, cs) ← number? 2 59 (← after? ':' cs)
  let (second, cs) ← number? 2 59 (← after? ':' cs)
  let (fraction, cs) ← fraction? cs
  return (padded 2 hour ++ ':' :: padded 2 minute ++ ':' :: padded 2 second ++ fraction, cs)

/-- The offset that a text consists of, in its one spelling. -/
def offset? : List Char → Option (List Char)
  | [] => some []
  | ['Z'] => some ['Z']
  | ['z'] => some ['Z']
  | sign :: cs => do
    if sign ≠ '+' ∧ sign ≠ '-' then none
    let (hours, cs) ← number? 2 99 cs
    let (minutes, cs) ← number? 2 99 (← after? ':' cs)
    let sign := if hours = 0 then '+' else sign
    if cs.isEmpty then return sign :: padded 2 hours ++ ':' :: padded 2 minutes else none

/-- The one spelling of a date, a time, or both. -/
def normal? (cs : List Char) : Option (List Char) := do
  if cs[2]? = some ':' then
    let (time, rest) ← time? cs
    if rest.isEmpty then return time else none
  else
    let (date, rest) ← date? cs
    match rest with
    | c :: more =>
      if c = 'T' ∨ c = 't' ∨ c = ' ' then
        let (time, rest) ← time? more
        return date ++ 'T' :: time ++ (← offset? rest)
      else return date ++ (← offset? rest)
    | [] => return date

end StateHistory.Toml.DateTime
