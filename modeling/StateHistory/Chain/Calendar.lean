/-! # Instants as calendar dates

An instant is a count of seconds since the start of 1970 and a part of a second. Its text is the date
and the time of day in the Gregorian calendar, carried on without end in both directions, with three
digits for the part of a second.

`civil` counts days from the first of March of year 0, so that a leap day is the last day of its
year: a cycle of 400 years has 146097 days, and within a year the months from March on start after
`(153 · month + 2) / 5` days. -/

namespace StateHistory

/-- A day of the Gregorian calendar. -/
structure CivilDate where
  year : Int
  month : Nat
  day : Nat
deriving DecidableEq, Repr

namespace CivilDate

/-- The day that lies `days` days after the first of January 1970. -/
def ofDays (days : Int) : CivilDate :=
  let shifted := days + 719468
  let cycle := shifted / 146097
  let dayOfCycle := (shifted % 146097).toNat
  let yearOfCycle :=
    (dayOfCycle - dayOfCycle / 1460 + dayOfCycle / 36524 - dayOfCycle / 146096) / 365
  let dayOfYear := dayOfCycle - (365 * yearOfCycle + yearOfCycle / 4 - yearOfCycle / 100)
  let march := (5 * dayOfYear + 2) / 153
  { year := yearOfCycle + 400 * cycle + (if march < 10 then 0 else 1)
    month := if march < 10 then march + 3 else march - 9
    day := dayOfYear - (153 * march + 2) / 5 + 1 }

/-- Days from the first of January 1970 to a date. -/
def toDays (d : CivilDate) : Int :=
  let year := if d.month ≤ 2 then d.year - 1 else d.year
  let cycle := year / 400
  let yearOfCycle := (year % 400).toNat
  let march := if d.month ≤ 2 then d.month + 9 else d.month - 3
  let dayOfYear := (153 * march + 2) / 5 + d.day - 1
  let dayOfCycle := 365 * yearOfCycle + yearOfCycle / 4 - yearOfCycle / 100 + dayOfYear
  146097 * cycle + dayOfCycle - 719468

end CivilDate

namespace Instant

/-- A number in at least `width` digits. -/
def padded (width n : Nat) : List Char :=
  let digits := Nat.toDigits 10 n
  List.replicate (width - digits.length) '0' ++ digits

/-- A year in at least four digits, with a sign outside the years 0 to 9999. -/
def yearChars (year : Int) : List Char :=
  if 0 ≤ year ∧ year ≤ 9999 then padded 4 year.toNat
  else (if year < 0 then '-' else '+') :: padded 4 year.natAbs

/-- The years that have a calendar text. -/
def inRange (year : Int) : Bool := decide (-262143 ≤ year ∧ year ≤ 262142)

/-- The text of the instant `seconds` seconds and `millis` thousandths after the start of 1970: its
date and time of day. An instant outside the supported years is written as its count of seconds. -/
def render (seconds : Int) (millis : Nat) : String :=
  let date := CivilDate.ofDays (seconds / 86400)
  let second := (seconds % 86400).toNat
  if inRange date.year then
    String.ofList <|
      yearChars date.year ++ '-' :: padded 2 date.month ++ '-' :: padded 2 date.day
        ++ 'T' :: padded 2 (second / 3600) ++ ':' :: padded 2 (second / 60 % 60)
        ++ ':' :: padded 2 (second % 60) ++ '.' :: padded 3 millis
  else toString seconds

end Instant

end StateHistory
