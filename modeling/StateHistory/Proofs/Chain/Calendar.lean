import Mathlib.Data.Int.Order.Basic
import Mathlib.Tactic.IntervalCases
import StateHistory.Chain.Calendar

/-! # The Gregorian calendar

After the last day of a month comes the first of the next one (`CivilDate.next`), and only the length of the second
month depends on the year. `CivilDate.ofDays` is this calendar, carried on in both directions from the first of
January 1970: the date after goes to the day after (`ofDays_add_one`). `CivilDate.toDays` counts the days back
(`toDays_ofDays`, `Valid.ofDays_toDays`), so that later days have later dates (`before_ofDays`).

`CivilDate.ofDays` counts years from March on. A date is then given by such a year, by the months since March and by
the days since the first of the month (`dateAt`), and its day is the sum of three counts (`toDays_dateAt`,
`ofDays_dateAt`). -/

namespace StateHistory

namespace CivilDate

/-- Every fourth year is a leap year, but of those that end a century only every fourth. -/
def IsLeap (year : Int) : Prop := 4 ∣ year ∧ (100 ∣ year → 400 ∣ year)

instance (year : Int) : Decidable (IsLeap year) := inferInstanceAs (Decidable (_ ∧ (_ → _)))

/-- The days that a year has beyond 365. -/
def leapDays (year : Int) : Nat := if IsLeap year then 1 else 0

/-- The number of days of a month. -/
def monthLength (year : Int) : Nat → Nat
  | 2 => 28 + leapDays year
  | 4 | 6 | 9 | 11 => 30
  | _ => 31

/-- The dates that are in the calendar. -/
def Valid (d : CivilDate) : Prop :=
  1 ≤ d.month ∧ d.month ≤ 12 ∧ 1 ≤ d.day ∧ d.day ≤ monthLength d.year d.month

instance (d : CivilDate) : Decidable d.Valid := inferInstanceAs (Decidable (_ ∧ _ ∧ _ ∧ _))

/-- The date after a date. -/
def next (d : CivilDate) : CivilDate :=
  if d.day < monthLength d.year d.month then ⟨d.year, d.month, d.day + 1⟩
  else if d.month < 12 then ⟨d.year, d.month + 1, 1⟩
  else ⟨d.year + 1, 1, 1⟩

/-- The order of dates. -/
def Before (d d' : CivilDate) : Prop :=
  d.year < d'.year ∨ d.year = d'.year ∧ (d.month < d'.month ∨ d.month = d'.month ∧ d.day < d'.day)

theorem before_next (d : CivilDate) : d.Before d.next := by
  unfold Before next
  split
  · simp
  · split <;> simp

theorem Before.trans {d d' d'' : CivilDate} (h : d.Before d') (h' : d'.Before d'') : d.Before d'' := by
  unfold Before at *
  omega

theorem leapDays_cases (year : Int) :
    leapDays year = 1 ∧ 4 ∣ year ∧ (100 ∣ year → 400 ∣ year) ∨
      leapDays year = 0 ∧ ¬ (4 ∣ year ∧ (100 ∣ year → 400 ∣ year)) := by
  unfold leapDays
  split
  · rename_i hleap
    exact .inl ⟨rfl, hleap⟩
  · rename_i hleap
    exact .inr ⟨rfl, hleap⟩

theorem leapDays_le (year : Int) : leapDays year ≤ 1 := by
  have hleap := leapDays_cases year
  omega

theorem monthLength_bounds (year : Int) (month : Nat) :
    28 ≤ monthLength year month ∧ monthLength year month ≤ 31 := by
  have hleap := leapDays_le year
  unfold monthLength
  split <;> omega

/-! ### Years from March on -/

/-- The number of days from the first of March of a year to the end of the next February. -/
def marchLength (year : Int) : Nat := 365 + leapDays (year + 1)

/-- The day of the first of March of a year. -/
def marchStart (year : Int) : Int := 365 * year + year / 4 - year / 100 + year / 400 - 719468

/-- The days from the first of March to the first of the month that comes `march` months later. -/
def monthStart (march : Nat) : Nat := (153 * march + 2) / 5

/-- The date that lies `days` days after the first of the month that comes `march` months after March. -/
def dateAt (year : Int) (march days : Nat) : CivilDate where
  year := year + (if march < 10 then 0 else 1)
  month := if march < 10 then march + 3 else march - 9
  day := days + 1

/-- The number of days of the month that comes `march` months after March. -/
def lengthAt (year : Int) (march : Nat) : Nat :=
  monthLength (dateAt year march 0).year (dateAt year march 0).month

variable {year : Int} {march days : Nat}

theorem dateAt_of_lt (h : march < 10) : dateAt year march days = ⟨year, march + 3, days + 1⟩ := by
  rw [dateAt, if_pos h, if_pos h, add_zero]

theorem dateAt_of_ge (h : 10 ≤ march) : dateAt year march days = ⟨year + 1, march - 9, days + 1⟩ := by
  rw [dateAt, if_neg (by omega), if_neg (by omega)]

theorem marchStart_add_one (year : Int) : marchStart (year + 1) = marchStart year + marchLength year := by
  have hleap := leapDays_cases (year + 1)
  unfold marchStart marchLength
  omega

/-- The months follow one another without a gap and fill the year. -/
theorem monthStart_add_lengthAt (year : Int) (h : march ≤ 11) : monthStart march + lengthAt year march =
    if march < 11 then monthStart (march + 1) else marchLength year := by
  unfold marchLength
  interval_cases march <;> simp [monthStart, lengthAt, dateAt, monthLength]
  omega

theorem month_of_day (h : march ≤ 11) (hdays : days < lengthAt year march) :
    (5 * (monthStart march + days) + 2) / 153 = march ∧ monthStart march + days < marchLength year := by
  have hmonth := monthStart_add_lengthAt year h
  have hleap := leapDays_le (year + 1)
  unfold marchLength monthStart at *
  split at hmonth <;> omega

theorem exists_month {r : Nat} (hr : r < marchLength year) :
    ∃ march ≤ 11, ∃ days < lengthAt year march, r = monthStart march + days := by
  have hleap := leapDays_le (year + 1)
  have hmarch : (5 * r + 2) / 153 ≤ 11 := by
    unfold marchLength at hr
    omega
  have hmonth := monthStart_add_lengthAt year hmarch
  refine ⟨_, hmarch, r - monthStart ((5 * r + 2) / 153), ?_, ?_⟩
  · unfold monthStart at *
    split at hmonth <;> omega
  · unfold monthStart
    omega

theorem valid_dateAt (h : march ≤ 11) (hdays : days < lengthAt year march) : (dateAt year march days).Valid := by
  have hmonth : 1 ≤ (dateAt year march days).month ∧ (dateAt year march days).month ≤ 12 := by
    rcases Nat.lt_or_ge march 10 with hearly | hlate
    · rw [dateAt_of_lt hearly]
      exact ⟨Nat.succ_pos _, Nat.add_le_of_le_sub (by decide) (Nat.le_of_lt_succ hearly)⟩
    · rw [dateAt_of_ge hlate]
      exact ⟨Nat.sub_pos_of_lt hlate, (Nat.sub_le _ _).trans (h.trans (by decide))⟩
  exact ⟨hmonth.1, hmonth.2, Nat.succ_pos _, hdays⟩

theorem Valid.exists_dateAt {d : CivilDate} (h : d.Valid) :
    ∃ year, ∃ march ≤ 11, ∃ days < lengthAt year march, dateAt year march days = d := by
  obtain ⟨hfirst, hlast, hday, hlong⟩ := h
  obtain ⟨year, march, hmarch, hdate⟩ : ∃ year, ∃ march ≤ 11, dateAt year march (d.day - 1) = d := by
    rcases Nat.lt_or_ge d.month 3 with hearly | hlate
    · refine ⟨d.year - 1, d.month + 9, by omega, ?_⟩
      rw [dateAt_of_ge (by omega), sub_add_cancel, Nat.add_sub_cancel, Nat.sub_add_cancel hday]
    · refine ⟨d.year, d.month - 3, by omega, ?_⟩
      rw [dateAt_of_lt (by omega), Nat.sub_add_cancel hlate, Nat.sub_add_cancel hday]
  have hlength : lengthAt year march = monthLength (dateAt year march (d.day - 1)).year
      (dateAt year march (d.day - 1)).month := rfl
  rw [hdate] at hlength
  exact ⟨year, march, hmarch, d.day - 1, by omega, hdate⟩

theorem toDays_dateAt (h : march ≤ 11) :
    (dateAt year march days).toDays = marchStart year + (monthStart march + days : Nat) := by
  unfold marchStart monthStart
  rcases Nat.lt_or_ge march 10 with hearly | hlate
  · have hlater : ¬ march + 3 ≤ 2 := by omega
    rw [dateAt_of_lt hearly, toDays]
    simp only [if_neg hlater, Nat.add_sub_cancel]
    omega
  · have hearlier : march - 9 ≤ 2 := by omega
    have hmonth : 9 ≤ march := by omega
    rw [dateAt_of_ge hlate, toDays]
    simp only [if_pos hearlier, Int.add_sub_cancel, Nat.sub_add_cancel hmonth]
    omega

/-- After the last day of a month comes the first of the next one, and March comes after February. -/
theorem next_dateAt_of_last (h : march ≤ 11) (hlast : lengthAt year march = days + 1) :
    (dateAt year march days).next = if march < 11 then dateAt year (march + 1) 0 else dateAt (year + 1) 0 0 := by
  have hover : ¬ (dateAt year march days).day <
      monthLength (dateAt year march days).year (dateAt year march days).month := Nat.not_lt.mpr hlast.le
  rw [next, if_neg hover]
  interval_cases march <;> simp [dateAt]

/-- The date after is one more day after the first of a month from March on. -/
theorem exists_next_dateAt (h : march ≤ 11) (hdays : days < lengthAt year march) :
    ∃ year', ∃ march' ≤ 11, ∃ days' < lengthAt year' march',
      (dateAt year march days).next = dateAt year' march' days' ∧
        marchStart year' + (monthStart march' + days' : Nat) =
          marchStart year + (monthStart march + days : Nat) + 1 := by
  have hmonth := monthStart_add_lengthAt year h
  have hpos : ∀ year march, 0 < lengthAt year march := fun year march =>
    Nat.lt_of_lt_of_le (by decide) (monthLength_bounds _ _).1
  rcases Nat.lt_or_ge (days + 1) (lengthAt year march) with hwithin | hover
  · exact ⟨year, march, h, days + 1, hwithin, if_pos hwithin, by omega⟩
  · have hlast : lengthAt year march = days + 1 := by omega
    have hnext := next_dateAt_of_last h hlast
    split at hnext
    · rename_i hmarch
      rw [if_pos hmarch] at hmonth
      exact ⟨year, march + 1, hmarch, 0, hpos _ _, hnext, by omega⟩
    · rename_i hmarch
      rw [if_neg hmarch] at hmonth
      have hyear := marchStart_add_one year
      have hzero : monthStart 0 = 0 := rfl
      exact ⟨year + 1, 0, by omega, 0, hpos _ _, hnext, by omega⟩

/-! ### Cycles of 400 years -/

/-- The year of a cycle that a day is in. -/
def cycleYear (dayOfCycle : Nat) : Nat :=
  (dayOfCycle - dayOfCycle / 1460 + dayOfCycle / 36524 - dayOfCycle / 146096) / 365

/-- The year of a day that is given by centuries, by times of four years in a century, by years in these and by
days. -/
theorem cycleYear_of_parts {c q p r : Nat} (hc : c < 4) (hq : q < 25) (hp : p < 4) (hr : r ≤ 365)
    (hleap : r = 365 → p = 3 ∧ (q = 24 → c = 3)) :
    cycleYear (36524 * c + 1461 * q + 365 * p + r) = 100 * c + 4 * q + p := by
  have hcentury : (36524 * c + 1461 * q + 365 * p + r) / 36524 =
      c + (36524 * c + 1461 * q + 365 * p + r) / 146096 := by
    rcases Nat.lt_or_ge (1461 * q + 365 * p + r) 36524 with hwithin | hlast
    · have hdiv : (36524 * c + 1461 * q + 365 * p + r) / 36524 = c := by omega
      have hdiv' : (36524 * c + 1461 * q + 365 * p + r) / 146096 = 0 := by omega
      rw [hdiv, hdiv', Nat.add_zero]
    · obtain ⟨rfl, rfl, rfl, rfl⟩ : c = 3 ∧ q = 24 ∧ p = 3 ∧ r = 365 := by omega
      decide
  -- The quotient by 1460 counts the leap days before the year, or one more late in a year; so a leap day is not
  -- counted as the first day of the year after.
  obtain ⟨e, hfour, hbefore, hbehind⟩ : ∃ e, (36524 * c + 1461 * q + 365 * p + r) / 1460 = 25 * c + q + e ∧
      e ≤ r ∧ r < 365 + e := by
    rcases Nat.lt_or_ge (24 * c + q + 365 * p + r) 1460 with hwithin | hlate
    · exact ⟨0, by omega, by omega, by omega⟩
    · exact ⟨1, by omega, by omega, by omega⟩
  have hnumerator : 36524 * c + 1461 * q + 365 * p + r - (25 * c + q + e) + c =
      365 * (100 * c + 4 * q + p) + (r - e) := by
    clear hcentury hfour
    omega
  rw [cycleYear, hcentury, hfour, ← Nat.add_assoc, Nat.add_sub_cancel, hnumerator, Nat.mul_add_div (by decide),
    Nat.div_eq_of_lt (by omega), Nat.add_zero]

theorem cycleYear_of_day {y r : Nat} (hy : y < 400) (hr : r < marchLength y) :
    cycleYear (365 * y + y / 4 - y / 100 + r) = y ∧ 365 * y + y / 4 - y / 100 + r < 146097 := by
  obtain ⟨c, q, p, hc, hq, hp, rfl⟩ : ∃ c q p, c < 4 ∧ q < 25 ∧ p < 4 ∧ y = 100 * c + 4 * q + p :=
    ⟨y / 100, y % 100 / 4, y % 4, by omega, by omega, by omega, by omega⟩
  have hday : 365 * (100 * c + 4 * q + p) + (100 * c + 4 * q + p) / 4 - (100 * c + 4 * q + p) / 100 + r =
      36524 * c + 1461 * q + 365 * p + r := by omega
  have hlast : r ≤ 365 ∧ (r = 365 → p = 3 ∧ (q = 24 → c = 3)) := by
    have hleap := leapDays_cases ((100 * c + 4 * q + p : Nat) + 1)
    unfold marchLength at hr
    omega
  rw [hday]
  exact ⟨cycleYear_of_parts hc hq hp hlast.1 hlast.2, by omega⟩

theorem marchLength_add_cycle (y : Nat) (c : Int) : marchLength (y + 400 * c) = marchLength y := by
  have hleap := leapDays_cases (y + 400 * c + 1)
  have hleap' := leapDays_cases (y + 1)
  unfold marchLength
  omega

theorem marchStart_add_cycle {y : Nat} (hy : y < 400) (c : Int) :
    marchStart (y + 400 * c) + 719468 = (365 * y + y / 4 - y / 100 : Nat) + 146097 * c := by
  have hfour : ((y : Int) + 400 * c) / 4 = y / 4 + 100 * c := by omega
  have hcentury : ((y : Int) + 400 * c) / 100 = y / 100 + 4 * c := by omega
  have hcycle : ((y : Int) + 400 * c) / 400 = c := by omega
  rw [marchStart, hfour, hcentury, hcycle]
  omega

theorem ofDays_dateAt (h : march ≤ 11) (hdays : days < lengthAt year march) :
    ofDays (marchStart year + (monthStart march + days : Nat)) = dateAt year march days := by
  obtain ⟨hmarch, hr⟩ := month_of_day h hdays
  have hday : monthStart march + days - (153 * march + 2) / 5 = days := Nat.add_sub_cancel_left ..
  obtain ⟨c, y, hy, rfl⟩ : ∃ (c : Int) (y : Nat), y < 400 ∧ year = y + 400 * c :=
    ⟨year / 400, (year % 400).toNat, by omega, by omega⟩
  rw [marchLength_add_cycle] at hr
  obtain ⟨hyear, hwithin⟩ := cycleYear_of_day hy hr
  have hstart := marchStart_add_cycle hy c
  generalize monthStart march + days = r at *
  have hshift : marchStart (y + 400 * c) + r + 719468 = (365 * y + y / 4 - y / 100 + r : Nat) + 146097 * c := by
    omega
  have hrest : 365 * y + y / 4 - y / 100 + r - (365 * y + y / 4 - y / 100) = r := Nat.add_sub_cancel_left ..
  generalize 365 * y + y / 4 - y / 100 + r = dayOfCycle at *
  have hdiv : ((dayOfCycle : Int) + 146097 * c) / 146097 = c := by omega
  have hmod : (((dayOfCycle : Int) + 146097 * c) % 146097).toNat = dayOfCycle := by omega
  unfold cycleYear at hyear
  unfold ofDays
  rw [hshift]
  dsimp only
  rw [hmod, hdiv, hyear, hrest, hmarch, hday]
  rfl

/-! ### Dates and days -/

/-- Every day is in a year from March on. -/
theorem exists_marchStart_add (n : Int) : ∃ year, ∃ r < marchLength year, n = marchStart year + r := by
  induction n using Int.induction_on with
  | zero => exact ⟨1969, 306, by decide, by decide⟩
  | succ n ih =>
      obtain ⟨year, r, hr, hn⟩ := ih
      rcases Nat.lt_or_ge (r + 1) (marchLength year) with hwithin | hlast
      · exact ⟨year, r + 1, hwithin, by omega⟩
      · have hnext := marchStart_add_one year
        exact ⟨year + 1, 0, Nat.add_pos_left (by decide) _, by omega⟩
  | pred n ih =>
      obtain ⟨year, r, hr, hn⟩ := ih
      cases r with
      | zero =>
          have hnext := marchStart_add_one (year - 1)
          rw [sub_add_cancel] at hnext
          have hlength : marchLength (year - 1) = 364 + leapDays (year - 1 + 1) + 1 := Nat.add_right_comm 364 1 _
          exact ⟨year - 1, 364 + leapDays (year - 1 + 1), by omega, by omega⟩
      | succ r => exact ⟨year, r, by omega, by omega⟩

theorem exists_dateAt (n : Int) : ∃ year, ∃ march ≤ 11, ∃ days < lengthAt year march,
    ofDays n = dateAt year march days ∧ n = marchStart year + (monthStart march + days : Nat) := by
  obtain ⟨year, r, hr, rfl⟩ := exists_marchStart_add n
  obtain ⟨march, hmarch, days, hdays, rfl⟩ := exists_month hr
  exact ⟨year, march, hmarch, days, hdays, ofDays_dateAt hmarch hdays, rfl⟩

theorem valid_ofDays (n : Int) : (ofDays n).Valid := by
  obtain ⟨year, march, hmarch, days, hdays, hdate, -⟩ := exists_dateAt n
  rw [hdate]
  exact valid_dateAt hmarch hdays

theorem toDays_ofDays (n : Int) : (ofDays n).toDays = n := by
  obtain ⟨year, march, hmarch, days, hdays, hdate, hn⟩ := exists_dateAt n
  rw [hdate, toDays_dateAt hmarch, hn]

theorem Valid.ofDays_toDays {d : CivilDate} (h : d.Valid) : ofDays d.toDays = d := by
  obtain ⟨year, march, hmarch, days, hdays, rfl⟩ := h.exists_dateAt
  rw [toDays_dateAt hmarch, ofDays_dateAt hmarch hdays]

theorem Valid.next {d : CivilDate} (h : d.Valid) : d.next.Valid ∧ d.next.toDays = d.toDays + 1 := by
  obtain ⟨year, march, hmarch, days, hdays, rfl⟩ := h.exists_dateAt
  obtain ⟨year', march', hmarch', days', hdays', hnext, hday⟩ := exists_next_dateAt hmarch hdays
  rw [hnext, toDays_dateAt hmarch, toDays_dateAt hmarch']
  exact ⟨valid_dateAt hmarch' hdays', hday⟩

theorem ofDays_add_one (n : Int) : ofDays (n + 1) = (ofDays n).next := by
  obtain ⟨hvalid, hday⟩ := (valid_ofDays n).next
  rw [toDays_ofDays] at hday
  rw [← hday, hvalid.ofDays_toDays]

example : ofDays (-25509) = ⟨1900, 2, 28⟩ ∧ ofDays (-25508) = ⟨1900, 3, 1⟩ := by decide

theorem before_ofDays {n n' : Int} (h : n < n') : (ofDays n).Before (ofDays n') := by
  induction n', h using Int.leInduction with
  | base => exact ofDays_add_one n ▸ before_next _
  | succ n' _ ih => exact ih.trans (ofDays_add_one n' ▸ before_next _)

/-- A year begins on the day of its first of January. -/
theorem le_year_ofDays_iff {year n : Int} : year ≤ (ofDays n).year ↔ toDays ⟨year, 1, 1⟩ ≤ n := by
  have hfirst : Valid ⟨year, 1, 1⟩ := ⟨le_refl 1, show 1 ≤ 12 by decide, le_refl 1, show 1 ≤ 31 by decide⟩
  obtain ⟨hmonth, -, hday, -⟩ := valid_ofDays n
  have hdate := hfirst.ofDays_toDays
  generalize toDays ⟨year, 1, 1⟩ = start at *
  constructor
  · intro hyear
    by_contra hlt
    have hbefore := before_ofDays (not_le.mp hlt)
    rw [hdate] at hbefore
    simp only [Before] at hbefore
    omega
  · intro hle
    rcases hle.lt_or_eq with hlt | rfl
    · have hbefore := before_ofDays hlt
      rw [hdate] at hbefore
      simp only [Before] at hbefore
      omega
    · rw [hdate]

end CivilDate

end StateHistory
