import Mathlib.Data.String.Basic
import StateHistory.Proofs.Binary.Numbers
import StateHistory.Proofs.Chain.Calendar
import StateHistory.Proofs.Text.Decimal

/-! # Instants in calendar notation

The text of an instant is read back (`Instant.ofText?`) by taking its date for a day of the calendar, its time of day
for seconds, and the digits behind the point for thousandths. What is read back is the instant (`ofText?_render`). All
numbers but the year are filled up with zeros to a fixed count of digits, so that in years of four digits later
instants have later texts (`render_lt_render`).

A type of instants has its own unit and its own start. Seconds and billionths are computed from it in numbers of 64
bits (`Instant.Parts`), and nothing gets too large for these (`Writes.computed`). -/

namespace StateHistory

open Schema (Builtin)

namespace Instant

variable {width n n' : Nat} {s t : List Char}

/-! ### Numbers of a fixed width -/

theorem length_padded (hwidth : 0 < width) (h : n < 10 ^ width) : (padded width n).length = width := by
  have hle := (Nat.length_toDigits_le_iff (by decide) hwidth).mpr h
  rw [padded, List.length_append, List.length_replicate, Nat.sub_add_cancel hle]

theorem le_length_padded (width n : Nat) : width ≤ (padded width n).length := by
  rw [padded, List.length_append, List.length_replicate]
  omega

theorem isDigit_of_mem_padded {c : Char} (h : c ∈ padded width n) : c.isDigit :=
  Decimal.isDigit_of_mem_filled h

theorem ofDigitChars_padded : Nat.ofDigitChars 10 (padded width n) 0 = n :=
  Decimal.ofDigitChars_filled

theorem padded_lt_padded (hwidth : 0 < width) (h : n < n') (hn' : n' < 10 ^ width) :
    padded width n < padded width n' := by
  have hlength := (length_padded hwidth (h.trans hn')).trans (length_padded hwidth hn').symm
  refine Decimal.lt_of_ofDigitChars_lt hlength (fun _ => isDigit_of_mem_padded) (fun _ => isDigit_of_mem_padded) ?_
  rwa [ofDigitChars_padded, ofDigitChars_padded]

/-! ### Dates and times of day -/

/-- The text of a date. -/
def dateChars (d : CivilDate) : List Char :=
  yearChars d.year ++ '-' :: padded 2 d.month ++ '-' :: padded 2 d.day

/-- The text of a time of day, which is given in seconds. -/
def timeChars (second : Nat) : List Char :=
  'T' :: padded 2 (second / 3600) ++ ':' :: padded 2 (second / 60 % 60) ++ ':' :: padded 2 (second % 60)

theorem toList_render {seconds : Int} {millis : Nat} (h : inRange (CivilDate.ofDays (seconds / 86400)).year) :
    (render seconds millis).toList = dateChars (CivilDate.ofDays (seconds / 86400)) ++
      (timeChars (seconds % 86400).toNat ++ '.' :: padded 3 millis) := by
  simp only [render, if_pos h, String.toList_ofList, dateChars, timeChars, List.append_assoc, List.cons_append]

theorem yearChars_of_le {year : Int} (h : 0 ≤ year) (h' : year ≤ 9999) : yearChars year = padded 4 year.toNat :=
  if_pos ⟨h, h'⟩

theorem two_digits {d : CivilDate} (h : d.Valid) : d.month < 10 ^ 2 ∧ d.day < 10 ^ 2 := by
  obtain ⟨-, hmonth, -, hday⟩ := h
  have hlength := CivilDate.monthLength_bounds d.year d.month
  exact ⟨by omega, by omega⟩

/-- The seconds from the start of a year to the start of another one. -/
def Within (first last seconds : Int) : Prop :=
  86400 * CivilDate.toDays ⟨first, 1, 1⟩ ≤ seconds ∧ seconds < 86400 * CivilDate.toDays ⟨last, 1, 1⟩

theorem within_iff {first last seconds : Int} : Within first last seconds ↔
    first ≤ (CivilDate.ofDays (seconds / 86400)).year ∧ (CivilDate.ofDays (seconds / 86400)).year < last := by
  rw [Within, ← not_le (a := last), CivilDate.le_year_ofDays_iff, CivilDate.le_year_ofDays_iff]
  omega

theorem Within.inRange {seconds : Int} (h : Within (-262143) 262143 seconds) :
    inRange (CivilDate.ofDays (seconds / 86400)).year := by
  obtain ⟨hlow, hhigh⟩ := within_iff.mp h
  exact decide_eq_true ⟨hlow, by omega⟩

theorem Within.widen {seconds : Int} (h : Within 0 10000 seconds) : Within (-262143) 262143 seconds := by
  obtain ⟨hlow, hhigh⟩ := within_iff.mp h
  exact within_iff.mpr ⟨by omega, by omega⟩

theorem within_of_lt {seconds : Int} (h : 0 ≤ seconds) (h' : seconds < 2 ^ 32) : Within 0 10000 seconds := by
  have hfirst : CivilDate.toDays ⟨0, 1, 1⟩ = -719528 := by decide
  have hlast : CivilDate.toDays ⟨10000, 1, 1⟩ = 2932897 := by decide
  rw [Within, hfirst, hlast]
  omega

/-! ### The order of texts -/

/-- Of two texts that begin with a number, the one with the smaller number comes first. -/
theorem padded_append_lt (hwidth : 0 < width) (hn : n < 10 ^ width) (hn' : n' < 10 ^ width)
    (h : n < n' ∨ n = n' ∧ s < t) : padded width n ++ s < padded width n' ++ t := by
  rcases h with hlt | ⟨rfl, hlt⟩
  · refine Decimal.append_lt_append ?_ (padded_lt_padded hwidth hlt hn')
    rw [length_padded hwidth hn, length_padded hwidth hn']
  · exact List.append_left_lt hlt

theorem field_append_lt {mark : Char} (hwidth : 0 < width) (hn : n < 10 ^ width) (hn' : n' < 10 ^ width)
    (h : n < n' ∨ n = n' ∧ s < t) : mark :: (padded width n ++ s) < mark :: (padded width n' ++ t) :=
  List.cons_lt_cons_self.mpr (padded_append_lt hwidth hn hn' h)

theorem dateChars_append_lt {d d' : CivilDate} (hd : d.Valid) (hd' : d'.Valid) (hyear : 0 ≤ d.year ∧ d.year ≤ 9999)
    (hyear' : 0 ≤ d'.year ∧ d'.year ≤ 9999) (h : d.Before d' ∨ d = d' ∧ s < t) :
    dateChars d ++ s < dateChars d' ++ t := by
  rcases h with h | ⟨rfl, h⟩
  · obtain ⟨hmonth, hday⟩ := two_digits hd
    obtain ⟨hmonth', hday'⟩ := two_digits hd'
    simp only [dateChars, List.append_assoc, List.cons_append]
    rw [yearChars_of_le hyear.1 hyear.2, yearChars_of_le hyear'.1 hyear'.2]
    refine padded_append_lt (by decide) (by omega) (by omega) ?_
    rcases h with h | ⟨hsame, h⟩
    · exact .inl (by omega)
    refine .inr ⟨by rw [hsame], field_append_lt (by decide) hmonth hmonth' ?_⟩
    rcases h with h | ⟨hsame, h⟩
    · exact .inl h
    exact .inr ⟨hsame, field_append_lt (by decide) hday hday' (.inl h)⟩
  · exact List.append_left_lt h

theorem timeChars_append_lt {second second' : Nat} (hsecond : second < 86400) (hsecond' : second' < 86400)
    (h : second < second' ∨ second = second' ∧ s < t) : timeChars second ++ s < timeChars second' ++ t := by
  rcases h with h | ⟨rfl, h⟩
  · simp only [timeChars, List.append_assoc, List.cons_append]
    refine field_append_lt (by decide) (by omega) (by omega) ?_
    rcases Nat.lt_or_ge (second / 3600) (second' / 3600) with hhour | hhour
    · exact .inl hhour
    refine .inr ⟨by omega, field_append_lt (by decide) (by omega) (by omega) ?_⟩
    rcases Nat.lt_or_ge (second / 60) (second' / 60) with hminute | hminute
    · exact .inl (by omega)
    exact .inr ⟨by omega, field_append_lt (by decide) (by omega) (by omega) (.inl (by omega))⟩
  · exact List.append_left_lt h

theorem render_lt_render {seconds seconds' : Int} {millis millis' : Nat} (hseconds : Within 0 10000 seconds)
    (hseconds' : Within 0 10000 seconds') (hmillis : millis < 1000) (hmillis' : millis' < 1000)
    (h : 1000 * seconds + millis < 1000 * seconds' + millis') : render seconds millis < render seconds' millis' := by
  have hyear := within_iff.mp hseconds
  have hyear' := within_iff.mp hseconds'
  rw [String.lt_iff_toList_lt, toList_render hseconds.widen.inRange, toList_render hseconds'.widen.inRange]
  refine dateChars_append_lt (CivilDate.valid_ofDays _) (CivilDate.valid_ofDays _) ⟨hyear.1, by omega⟩
    ⟨hyear'.1, by omega⟩ ?_
  rcases Int.lt_or_le (seconds / 86400) (seconds' / 86400) with hday | hday
  · exact .inl (CivilDate.before_ofDays hday)
  have hsame : seconds / 86400 = seconds' / 86400 := by omega
  refine .inr ⟨by rw [hsame], timeChars_append_lt (by omega) (by omega) ?_⟩
  rcases Int.lt_or_le seconds seconds' with hsecond | hsecond
  · exact .inl (by omega)
  · exact .inr ⟨by omega, List.cons_lt_cons_self.mpr (padded_lt_padded (by decide) (by omega) hmillis')⟩

theorem length_render {seconds : Int} {millis : Nat} (h : Within 0 10000 seconds) (hmillis : millis < 1000) :
    (render seconds millis).length = 23 := by
  obtain ⟨hlow, hhigh⟩ := within_iff.mp h
  obtain ⟨hmonth, hday⟩ := two_digits (CivilDate.valid_ofDays (seconds / 86400))
  rw [← String.length_toList, toList_render h.widen.inRange, dateChars, timeChars, yearChars_of_le hlow (by omega)]
  simp only [List.length_append, List.length_cons]
  rw [length_padded (by decide) (by omega), length_padded (by decide) hmonth, length_padded (by decide) hday,
    length_padded (by decide) (by omega), length_padded (by decide) (by omega), length_padded (by decide) (by omega),
    length_padded (by decide) hmillis]

/-! ### Reading a text -/

/-- A number in `width` digits behind a mark, and the rest of a text. -/
def field? (mark : Char) (width : Nat) : List Char → Option (Nat × List Char)
  | [] => none
  | c :: s =>
      if c = mark ∧ (s.take width).length = width ∧ (s.take width).all Char.isDigit then
        some (Nat.ofDigitChars 10 (s.take width) 0, s.drop width)
      else none

/-- A number in four digits or more, and the rest of a text. -/
def digits? (s : List Char) : Option (Nat × List Char) :=
  if 4 ≤ (s.takeWhile Char.isDigit).length then
    some (Nat.ofDigitChars 10 (s.takeWhile Char.isDigit) 0, s.dropWhile Char.isDigit)
  else none

/-- A year, with a sign in front at will, and the rest of a text. -/
def year? : List Char → Option (Int × List Char)
  | '-' :: s => (digits? s).map fun (n, s) => (-n, s)
  | '+' :: s => (digits? s).map fun (n, s) => (n, s)
  | s => (digits? s).map fun (n, s) => (n, s)

/-- A date that is in the calendar, and the rest of a text. -/
def date? (s : List Char) : Option (CivilDate × List Char) := do
  let (year, s) ← year? s
  let (month, s) ← field? '-' 2 s
  let (day, s) ← field? '-' 2 s
  if CivilDate.Valid ⟨year, month, day⟩ then some (⟨year, month, day⟩, s) else none

/-- A time of day, in seconds, and the rest of a text. -/
def time? (s : List Char) : Option (Nat × List Char) := do
  let (hour, s) ← field? 'T' 2 s
  let (minute, s) ← field? ':' 2 s
  let (second, s) ← field? ':' 2 s
  if hour < 24 ∧ minute < 60 ∧ second < 60 then some (3600 * hour + 60 * minute + second, s) else none

/-- The instant that a text denotes, in thousandths of a second after the start of 1970. -/
def ofText? (text : String) : Option Int := do
  let (date, s) ← date? text.toList
  let (second, s) ← time? s
  let (millis, s) ← field? '.' 3 s
  if s = [] then some (1000 * (86400 * date.toDays + second) + millis) else none

theorem field?_padded {mark : Char} (hwidth : 0 < width) (h : n < 10 ^ width) :
    field? mark width (mark :: (padded width n ++ s)) = some (n, s) := by
  have hlength := length_padded hwidth h
  have htake : (padded width n ++ s).take width = padded width n := List.take_left' hlength
  have hdigits : (padded width n).all Char.isDigit := List.all_eq_true.mpr fun _ => isDigit_of_mem_padded
  rw [field?, htake, if_pos ⟨rfl, hlength, hdigits⟩, ofDigitChars_padded, List.drop_left' hlength]

theorem digits?_padded {mark : Char} (hmark : mark.isDigit = false) :
    digits? (padded 4 n ++ mark :: s) = some (n, mark :: s) := by
  have htake : (padded 4 n ++ mark :: s).takeWhile Char.isDigit = padded 4 n := by
    rw [List.takeWhile_append_of_pos fun _ => isDigit_of_mem_padded, List.takeWhile_cons_of_neg (by simp [hmark]),
      List.append_nil]
  have hdrop : (padded 4 n ++ mark :: s).dropWhile Char.isDigit = mark :: s := by
    rw [List.dropWhile_append_of_pos fun _ => isDigit_of_mem_padded, List.dropWhile_cons_of_neg (by simp [hmark])]
  rw [digits?, htake, hdrop, if_pos (le_length_padded 4 n), ofDigitChars_padded]

theorem year?_of_isDigit {c : Char} (h : c.isDigit) :
    year? (c :: s) = (digits? (c :: s)).map fun (n, s) => (n, s) := by
  rw [year?]
  · rintro _ ⟨rfl, -⟩
    cases h
  · rintro _ ⟨rfl, -⟩
    cases h

theorem year?_yearChars {year : Int} {mark : Char} (hmark : mark.isDigit = false) :
    year? (yearChars year ++ mark :: s) = some (year, mark :: s) := by
  rw [yearChars]
  split
  · rename_i hyear
    obtain ⟨c, rest, hdigits⟩ := List.exists_cons_of_length_pos
      (Nat.lt_of_lt_of_le (by decide) (le_length_padded 4 year.toNat))
    have hc : c.isDigit := isDigit_of_mem_padded (hdigits ▸ List.mem_cons_self ..)
    have hread := digits?_padded (n := year.toNat) (s := s) hmark
    rw [hdigits, List.cons_append] at hread ⊢
    rw [year?_of_isDigit hc, hread, Option.map_some]
    dsimp only
    rw [Int.toNat_of_nonneg hyear.1]
  · split
    · rename_i hnegative
      rw [List.cons_append, year?, digits?_padded hmark, Option.map_some]
      dsimp only
      rw [Int.ofNat_natAbs_of_nonpos hnegative.le, Int.neg_neg]
    · rename_i hpositive
      rw [List.cons_append, year?, digits?_padded hmark, Option.map_some]
      dsimp only
      rw [Int.natAbs_of_nonneg (not_lt.mp hpositive)]

theorem date?_dateChars {d : CivilDate} (h : d.Valid) : date? (dateChars d ++ s) = some (d, s) := by
  obtain ⟨hmonth, hday⟩ := two_digits h
  have hmark : '-'.isDigit = false := rfl
  simp only [date?, dateChars, List.append_assoc, List.cons_append, year?_yearChars hmark,
    field?_padded Nat.two_pos hmonth, field?_padded Nat.two_pos hday, Option.bind_eq_bind, Option.bind_some]
  exact if_pos h

theorem time?_timeChars {second : Nat} (h : second < 86400) : time? (timeChars second ++ s) = some (second, s) := by
  have hhour : second / 3600 < 10 ^ 2 := by omega
  have hminute : second / 60 % 60 < 10 ^ 2 := by omega
  have hsecond : second % 60 < 10 ^ 2 := by omega
  have hsum : 3600 * (second / 3600) + 60 * (second / 60 % 60) + second % 60 = second := by omega
  simp only [time?, timeChars, List.append_assoc, List.cons_append, field?_padded Nat.two_pos hhour,
    field?_padded Nat.two_pos hminute, field?_padded Nat.two_pos hsecond, Option.bind_eq_bind, Option.bind_some]
  rw [if_pos ⟨by omega, by omega, by omega⟩, hsum]

/-- The text of an instant denotes this instant. -/
theorem ofText?_render {seconds : Int} {millis : Nat} (h : Within (-262143) 262143 seconds)
    (hmillis : millis < 1000) : ofText? (render seconds millis) = some (1000 * seconds + millis) := by
  have hmillis := @field?_padded 3 millis [] '.' (by decide) hmillis
  rw [List.append_nil] at hmillis
  have htime : (seconds % 86400).toNat < 86400 := by omega
  simp only [ofText?, toList_render h.inRange, date?_dateChars (CivilDate.valid_ofDays _), time?_timeChars htime,
    hmillis, Option.bind_eq_bind, Option.bind_some, CivilDate.toDays_ofDays, if_true, Option.some.injEq]
  omega

example : ofText? "1969-12-31T23:59:59.999" = some (-1) := by decide +kernel

/-! ### Numbers of 64 bits -/

/-- A number in 64 bits with sign, if it fits. -/
def int64? (n : Int) : Option Int64 := if -2 ^ 63 ≤ n ∧ n < 2 ^ 63 then some (Int64.ofInt n) else none

/-- A number in 32 bits without sign, if it fits. -/
def uint32? (n : Int) : Option UInt32 := if 0 ≤ n ∧ n < 2 ^ 32 then some (UInt32.ofNat n.toNat) else none

theorem exists_int64? {n : Int} (h : -2 ^ 63 ≤ n) (h' : n < 2 ^ 63) : ∃ v, int64? n = some v ∧ v.toInt = n :=
  ⟨_, if_pos ⟨h, h'⟩, Int64.toInt_ofInt_of_le h h'⟩

theorem exists_uint32? {n : Int} (h : 0 ≤ n) (h' : n < 2 ^ 32) : ∃ v, uint32? n = some v ∧ (v.toNat : Int) = n := by
  refine ⟨_, if_pos ⟨h, h'⟩, ?_⟩
  rw [UInt32.toNat_ofNat_of_lt' (by rw [UInt32.size]; omega)]
  omega

/-- Seconds after the start of 1970 and billionths of a second after them. -/
structure Parts where
  seconds : Int64
  nanos : UInt32

namespace Parts

/-- The text of an instant, with the billionths cut to thousandths. -/
def render (p : Parts) : String := Instant.render p.seconds.toInt (p.nanos.toNat / 1000000)

/-- The parts of a count of seconds. -/
def ofSeconds? (seconds : UInt32) : Option Parts := do
  return { seconds := ← int64? seconds.toNat, nanos := 0 }

/-- The parts of a count of millionths, by division with a remainder that is not negative. -/
def ofMicros? (micros : Int64) : Option Parts := do
  let seconds ← int64? (micros.toInt / 1000000)
  let left ← int64? (micros.toInt % 1000000)
  let nanos ← int64? (left.toInt * 1000)
  return { seconds, nanos := ← uint32? nanos.toInt }

/-- The parts of a count of half seconds since the start of the year 2000, by division towards zero. -/
def ofSlot? (slot : UInt32) : Option Parts := do
  let halves ← int64? (slot.toNat * 500)
  let millis ← int64? (halves.toInt + 946684800000)
  let seconds ← int64? (millis.toInt.tdiv 1000)
  let left ← int64? (millis.toInt.tmod 1000)
  let nanos ← int64? (left.toInt * 1000000)
  return { seconds, nanos := ← uint32? nanos.toInt }

theorem exists_ofSeconds? (seconds : UInt32) : ∃ p, ofSeconds? seconds = some p ∧
    p.seconds.toInt = seconds.toNat ∧ p.nanos.toNat = 0 := by
  have hbound := seconds.toNat_lt
  obtain ⟨v, hv, hvalue⟩ := exists_int64? (n := seconds.toNat) (by omega) (by omega)
  exact ⟨⟨v, 0⟩, by rw [ofSeconds?, hv]; rfl, hvalue, rfl⟩

theorem exists_ofMicros? (micros : Int64) : ∃ p, ofMicros? micros = some p ∧
    p.seconds.toInt = micros.toInt / 1000000 ∧ (p.nanos.toNat : Int) = micros.toInt % 1000000 * 1000 := by
  have hlow := micros.le_toInt
  have hhigh := micros.toInt_lt
  obtain ⟨seconds, hseconds, hvalue⟩ := exists_int64? (n := micros.toInt / 1000000) (by omega) (by omega)
  obtain ⟨left, hleft, hrest⟩ := exists_int64? (n := micros.toInt % 1000000) (by omega) (by omega)
  obtain ⟨nanos, hnanos, hproduct⟩ := exists_int64? (n := left.toInt * 1000) (by omega) (by omega)
  obtain ⟨word, hword, hnumber⟩ := exists_uint32? (n := nanos.toInt) (by omega) (by omega)
  refine ⟨⟨seconds, word⟩, ?_, hvalue, by dsimp only; omega⟩
  simp only [ofMicros?, Option.bind_eq_bind, Option.bind_some, hseconds, hleft, hnanos, hword]
  rfl

theorem exists_ofSlot? (slot : UInt32) : ∃ p, ofSlot? slot = some p ∧
    p.seconds.toInt = ((slot.toNat * 500 + 946684800000) / 1000 : Nat) ∧
      p.nanos.toNat = (slot.toNat * 500 + 946684800000) % 1000 * 1000000 := by
  have hbound := slot.toNat_lt
  obtain ⟨halves, hhalves, hproduct⟩ := exists_int64? (n := slot.toNat * 500) (by omega) (by omega)
  obtain ⟨millis, hmillis, hsum⟩ := exists_int64? (n := halves.toInt + 946684800000) (by omega) (by omega)
  have htdiv : millis.toInt.tdiv 1000 = millis.toInt / 1000 := Int.tdiv_eq_ediv_of_nonneg (by omega)
  have htmod : millis.toInt.tmod 1000 = millis.toInt % 1000 := Int.tmod_eq_emod_of_nonneg (by omega)
  obtain ⟨seconds, hseconds, hvalue⟩ := exists_int64? (n := millis.toInt.tdiv 1000) (by omega) (by omega)
  obtain ⟨left, hleft, hrest⟩ := exists_int64? (n := millis.toInt.tmod 1000) (by omega) (by omega)
  obtain ⟨nanos, hnanos, hproduct'⟩ := exists_int64? (n := left.toInt * 1000000) (by omega) (by omega)
  obtain ⟨word, hword, hnumber⟩ := exists_uint32? (n := nanos.toInt) (by omega) (by omega)
  refine ⟨⟨seconds, word⟩, ?_, by dsimp only; omega, by dsimp only; omega⟩
  simp only [ofSlot?, Option.bind_eq_bind, Option.bind_some, hhalves, hmillis, hseconds, hleft, hnanos, hword]
  rfl

end Parts

/-! ### Readers -/

/-- Bytes are read as the text of an instant, whose parts are computed without overflow. -/
structure Writes (type : Builtin) (w : Bytes) (parts : Option Parts) (text : String) : Prop where
  read : ∀ s, type.decoder.outcome (w ++ s) = (.ok (.string text), s)
  computed : ∃ p, parts = some p ∧ p.nanos.toNat < 1000000000 ∧ text = p.render

theorem run_unsigned_uint32 (v : UInt32) (s : Bytes) :
    (Decoder.unsigned 4).run (Encoder.uint32 v ++ s) = .ok v.toNat s := by
  rw [Encoder.uint32, Decoder.run_unsigned (Bytes.length_littleEndian 4 v.toNat),
    Bytes.ofLittleEndian_littleEndian v.toNat_lt]

theorem writes_timePointSec (v : UInt32) :
    Writes .timePointSec (Encoder.uint32 v) (Parts.ofSeconds? v) (render v.toNat 0) where
  read := fun s => by
    rw [Decoder.outcome_eq_ok_iff, Builtin.decoder, EStateM.run_bind, run_unsigned_uint32]
    rfl
  computed := by
    obtain ⟨p, hp, hseconds, hnanos⟩ := Parts.exists_ofSeconds? v
    exact ⟨p, hp, by omega, by rw [Parts.render, hseconds, hnanos]⟩

theorem writes_blockTimestamp (v : UInt32) :
    Writes .blockTimestamp (Encoder.uint32 v) (Parts.ofSlot? v) (Builtin.instantOfBlock v.toNat) where
  read := fun s => by
    rw [Decoder.outcome_eq_ok_iff, Builtin.decoder, EStateM.run_bind, run_unsigned_uint32]
    rfl
  computed := by
    obtain ⟨p, hp, hseconds, hnanos⟩ := Parts.exists_ofSlot? v
    refine ⟨p, hp, by omega, ?_⟩
    rw [Parts.render, hseconds, hnanos, Nat.mul_div_cancel _ (by decide)]
    rfl

theorem writes_timePoint (v : Int64) :
    Writes .timePoint (Encoder.signed 8 v.toInt) (Parts.ofMicros? v) (Builtin.instantOfMicros v.toInt) where
  read := fun s => by
    have hlow := v.le_toInt
    have hhigh := v.toInt_lt
    have hpow : Nat.pow 256 8 = 0x10000000000000000 := rfl
    rw [Decoder.outcome_eq_ok_iff, Builtin.decoder, EStateM.run_bind, Decoder.run_signed (by omega) (by omega)]
    rfl
  computed := by
    obtain ⟨p, hp, hseconds, hnanos⟩ := Parts.exists_ofMicros? v
    have hmillis : p.nanos.toNat / 1000000 = (v.toInt % 1000000 / 1000).toNat := by omega
    exact ⟨p, hp, by omega, by rw [Parts.render, hseconds, hmillis, Builtin.instantOfMicros]⟩

theorem millis_instantOfBlock (v : UInt32) : ∃ (seconds : Int) (millis : Nat),
    Builtin.instantOfBlock v.toNat = render seconds millis ∧ Within 0 10000 seconds ∧ millis < 1000 ∧
      1000 * seconds + millis = 86400000 * CivilDate.toDays ⟨2000, 1, 1⟩ + 500 * v.toNat := by
  have hbound := v.toNat_lt
  have hstart : CivilDate.toDays ⟨2000, 1, 1⟩ = 10957 := by decide
  have hseconds : Within 0 10000 ((v.toNat * 500 + Builtin.blockEpoch) / 1000 : Nat) :=
    within_of_lt (Int.natCast_nonneg _) (by rw [Builtin.blockEpoch]; omega)
  refine ⟨_, _, rfl, hseconds, Nat.mod_lt _ (by decide), ?_⟩
  rw [hstart, Builtin.blockEpoch]
  omega

/-- What is read is the text of the exact instant: of the seconds after the start of 1970, of the half seconds after
the start of 2000, and of the millionths of a second around the start of 1970, rounded down to thousandths. Numbers
of 64 bits are enough for it. For the first two types, a larger number has a later text of the same length. Days are
counted as they follow one another in the calendar. -/
theorem texts_exact :
    (CivilDate.toDays ⟨1970, 1, 1⟩ = 0 ∧
      ∀ d : CivilDate, d.Valid → d.next.Valid ∧ d.next.toDays = d.toDays + 1) ∧
    (∃ text : UInt32 → String, ∀ v, Writes .timePointSec (Encoder.uint32 v) (Parts.ofSeconds? v) (text v) ∧
      ofText? (text v) = some (1000 * v.toNat) ∧
      ∀ v', v < v' → text v < text v' ∧ (text v).length = (text v').length) ∧
    (∃ text : UInt32 → String, ∀ v, Writes .blockTimestamp (Encoder.uint32 v) (Parts.ofSlot? v) (text v) ∧
      ofText? (text v) = some (86400000 * CivilDate.toDays ⟨2000, 1, 1⟩ + 500 * v.toNat) ∧
      ∀ v', v < v' → text v < text v' ∧ (text v).length = (text v').length) ∧
    ∃ text : Int64 → String, ∀ v, Writes .timePoint (Encoder.signed 8 v.toInt) (Parts.ofMicros? v) (text v) ∧
      (Within (-262143) 262143 (v.toInt / 1000000) → ofText? (text v) = some (v.toInt / 1000)) := by
  refine ⟨⟨by decide, fun d hd => hd.next⟩, ?_, ?_, ?_⟩
  · have hwithin : ∀ v : UInt32, Within 0 10000 v.toNat := fun v =>
      within_of_lt (Int.natCast_nonneg _) (by have := v.toNat_lt; omega)
    refine ⟨_, fun v => ⟨writes_timePointSec v, ofText?_render (hwithin v).widen (by decide), fun v' hv => ?_⟩⟩
    have hlt := UInt32.lt_iff_toNat_lt.mp hv
    rw [length_render (hwithin v) (by decide), length_render (hwithin v') (by decide)]
    exact ⟨render_lt_render (hwithin v) (hwithin v') (by decide) (by decide) (by omega), rfl⟩
  · refine ⟨_, fun v => ⟨writes_blockTimestamp v, ?_, fun v' hv => ?_⟩⟩
    · obtain ⟨seconds, millis, htext, hwithin, hmillis, hinstant⟩ := millis_instantOfBlock v
      rw [htext, ofText?_render hwithin.widen hmillis, hinstant]
    · have hlt := UInt32.lt_iff_toNat_lt.mp hv
      obtain ⟨seconds, millis, htext, hwithin, hmillis, hinstant⟩ := millis_instantOfBlock v
      obtain ⟨seconds', millis', htext', hwithin', hmillis', hinstant'⟩ := millis_instantOfBlock v'
      rw [htext, htext', length_render hwithin hmillis, length_render hwithin' hmillis']
      exact ⟨render_lt_render hwithin hwithin' hmillis hmillis' (by omega), rfl⟩
  · refine ⟨_, fun v => ⟨writes_timePoint v, fun hwithin => ?_⟩⟩
    rw [Builtin.instantOfMicros, ofText?_render hwithin (by omega), Option.some.injEq]
    omega

theorem texts_exact_samples :
    (CivilDate.Valid ⟨1972, 2, 29⟩ ∧
      (CivilDate.next ⟨1972, 2, 29⟩).toDays = CivilDate.toDays ⟨1972, 2, 29⟩ + 1) ∧
    ((0 : UInt32) < 1 ∧ ∃ text text', Writes .timePointSec (Encoder.uint32 0) (Parts.ofSeconds? 0) text ∧
      Writes .timePointSec (Encoder.uint32 1) (Parts.ofSeconds? 1) text' ∧ text < text') ∧
    (∃ text text', Writes .blockTimestamp (Encoder.uint32 0) (Parts.ofSlot? 0) text ∧
      Writes .blockTimestamp (Encoder.uint32 1) (Parts.ofSlot? 1) text' ∧ text < text') ∧
    Within (-262143) 262143 ((-1 : Int64).toInt / 1000000) ∧
      ∃ text, Writes .timePoint (Encoder.signed 8 (-1 : Int64).toInt) (Parts.ofMicros? (-1)) text ∧
        ofText? text = some (-1) := by
  have hvalid : CivilDate.Valid ⟨1972, 2, 29⟩ := by decide
  have hwithin : Within (-262143) 262143 ((-1 : Int64).toInt / 1000000) := by
    unfold Within
    decide
  obtain ⟨⟨-, hcalendar⟩, ⟨seconds, hseconds⟩, ⟨slots, hslots⟩, micros, hmicros⟩ := texts_exact
  exact ⟨⟨hvalid, (hcalendar _ hvalid).2⟩,
    ⟨by decide, _, _, (hseconds 0).1, (hseconds 1).1, ((hseconds 0).2.2 1 (by decide)).1⟩,
    ⟨_, _, (hslots 0).1, (hslots 1).1, ((hslots 0).2.2 1 (by decide)).1⟩,
    hwithin, _, (hmicros (-1)).1, (hmicros (-1)).2 hwithin⟩

end Instant

end StateHistory
