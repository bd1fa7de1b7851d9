import Volforge.Core.Types
import Volforge.Lib.Calendar

/-!
# `Core.Correctness.CivilDates` — dates and day numbers

The two conversions of the source are those of the calendar, for the years whose `yyyymmdd` fits 32 bits.

## Contents
- **Encoding.** The parts of an encoded date.
- **To day numbers**, and **from day numbers**.
- **Main result.** `civil_dates_invert`.
-/

namespace Volforge

open Calendar

/-! ## Encoding -/

/-- The day of the epoch, counted as the calendar counts. -/
def epochDay : Int := 719468

def Date.ofCivil (y : Int) (m d : Nat) : Date := ⟨Int32.ofInt (y * 10000 + m * 100 + d)⟩

/-- The years the conversions are for. -/
def YearInRange (y : Int) : Prop := 1 ≤ y ∧ y ≤ 200000

instance (y : Int) : Decidable (YearInRange y) := inferInstanceAs (Decidable (_ ∧ _))

/-- A date of the calendar, in a year in range. -/
structure Date.Real (d : Date) : Prop where
  year : YearInRange d.year
  date : IsDate d.year d.month.toNat d.day.toNat

/-- The day numbers of these dates. -/
def DayInRange (z : Int) : Prop := daysFromCivil 1 1 1 ≤ z ∧ z ≤ daysFromCivil 200000 12 31

theorem monthLength_le (y : Int) (m : Nat) : monthLength y m ≤ 31 := by
  unfold monthLength
  split_ifs <;> omega

theorem toInt_ofCivil_of_lt {y : Int} {m d : Nat} (hy : YearInRange y) (hm : m < 100) (hd : d < 100) :
    (Date.ofCivil y m d).yyyymmdd.toInt = y * 10000 + m * 100 + d := by
  obtain ⟨hlow, hhigh⟩ := hy
  exact Int32.toInt_ofInt_of_le (by omega) (by omega)

theorem parts_of_lt {y : Int} {m d : Nat} (hy : YearInRange y) (hm : m < 100) (hd : d < 100) :
    (Date.ofCivil y m d).year = y ∧ (Date.ofCivil y m d).month = m ∧ (Date.ofCivil y m d).day = d := by
  have hvalue := toInt_ofCivil_of_lt hy hm hd
  obtain ⟨hlow, hhigh⟩ := hy
  unfold Date.year Date.month Date.day
  rw [hvalue, Int.tdiv_eq_ediv_of_nonneg (by omega), Int.tdiv_eq_ediv_of_nonneg (by omega),
    Int.tmod_eq_emod_of_nonneg (by omega), Int.tmod_eq_emod_of_nonneg (by omega)]
  omega

/-- The month and the day of a date have two digits. -/
theorem two_digits_of_date {y : Int} {m d : Nat} (h : IsDate y m d) : m < 100 ∧ d < 100 := by
  have hm := h.month
  have hd := le_trans h.day.2 (monthLength_le y m)
  omega

theorem toInt_ofCivil {y : Int} {m d : Nat} (hy : YearInRange y) (h : IsDate y m d) :
    (Date.ofCivil y m d).yyyymmdd.toInt = y * 10000 + m * 100 + d :=
  toInt_ofCivil_of_lt hy (two_digits_of_date h).1 (two_digits_of_date h).2

/-- The parts of an encoded date. -/
theorem ofCivil_parts {y : Int} {m d : Nat} (hy : YearInRange y) (h : IsDate y m d) :
    (Date.ofCivil y m d).year = y ∧ (Date.ofCivil y m d).month = m ∧ (Date.ofCivil y m d).day = d :=
  parts_of_lt hy (two_digits_of_date h).1 (two_digits_of_date h).2

theorem real_ofCivil {y : Int} {m d : Nat} (hy : YearInRange y) (h : IsDate y m d) : (Date.ofCivil y m d).Real := by
  obtain ⟨hyear, hmonth, hday⟩ := ofCivil_parts hy h
  constructor
  · rw [hyear]
    exact hy
  · rw [hyear, hmonth, hday]
    exact h

/-- A date is its parts. -/
theorem Date.Real.eq_ofCivil {d : Date} (h : d.Real) : d = .ofCivil d.year d.month.toNat d.day.toNat := by
  have hvalue := toInt_ofCivil h.year h.date
  have hlow := h.year.1
  have hm := h.date.month
  have hd := h.date.day
  have hpos : 0 ≤ d.yyyymmdd.toInt := by
    by_contra hneg
    have hyear : 0 ≤ (-d.yyyymmdd.toInt).tdiv 10000 := Int.tdiv_nonneg (by omega) (by omega)
    rw [Int.neg_tdiv] at hyear
    have hlow : 1 ≤ d.yyyymmdd.toInt.tdiv 10000 := hlow
    omega
  have hyear : d.year = d.yyyymmdd.toInt / 10000 := Int.tdiv_eq_ediv_of_nonneg hpos
  have hmonth : d.month = d.yyyymmdd.toInt / 100 % 100 := by
    unfold Date.month
    rw [Int.tdiv_eq_ediv_of_nonneg hpos, Int.tmod_eq_emod_of_nonneg (by omega)]
  have hday : d.day = d.yyyymmdd.toInt % 100 := Int.tmod_eq_emod_of_nonneg hpos
  have hsplit : d.yyyymmdd.toInt = d.year * 10000 + d.month.toNat * 100 + d.day.toNat := by omega
  obtain ⟨code⟩ := d
  refine congrArg Date.mk (Int32.toInt_inj.mp ?_)
  exact hsplit.trans hvalue.symm

/-! ## To day numbers -/

theorem daysFromCivil_eq {y : Int} {m d : Nat} (hy : YearInRange y) (h : IsDate y m d) :
    daysFromCivil y m d = dayNumber y m d - epochDay := by
  obtain ⟨hlow, hhigh⟩ := hy
  have hm := h.month
  have hd := h.day.1
  have hd' := le_trans h.day.2 (monthLength_le y m)
  unfold daysFromCivil dayNumber epochDay marchMonth monthStart
  dsimp only
  rw [show (if m ≤ 2 then y - 1 else y) = marchYear y m from rfl]
  have hyear : 0 ≤ marchYear y m ∧ marchYear y m ≤ 200000 := by
    unfold marchYear
    split_ifs <;> omega
  -- in this range no division truncates a negative year and no unsigned sum wraps
  generalize marchYear y m = year at hyear ⊢
  rw [if_pos hyear.1, Int.tdiv_eq_ediv_of_nonneg hyear.1]
  have hyoe : toUnsigned (year - year / 400 * 400) = (year % 400).toNat := by
    unfold toUnsigned
    omega
  have hera : (year % 400).toNat < 400 := by omega
  have hstart := yearStart_era (year / 400) hera
  rw [show ((year % 400).toNat : Int) + year / 400 * 400 = year by omega] at hstart
  rw [hstart, hyoe]
  generalize (year % 400).toNat = yoe at hera ⊢
  have hmp : (m + 9) % 2 ^ 32 % 12 = (m + 9) % 12 := by omega
  rw [hmp]
  have hmonth : (153 * ((m + 9) % 12) + 2) / 5 ≤ 337 := by omega
  generalize (153 * ((m + 9) % 12) + 2) / 5 = start at hmonth ⊢
  have hdoy : (start + d + (2 ^ 32 - 1)) % 2 ^ 32 = start + d - 1 := by omega
  have hdoe : (yoe * 365 + yoe / 4 - yoe / 100 + (start + d - 1)) % 2 ^ 32 =
      yoe * 365 + yoe / 4 - yoe / 100 + (start + d - 1) := Nat.mod_eq_of_lt (by omega)
  rw [hdoy, hdoe]
  unfold eraYearStart
  omega

theorem days_ofCivil {y : Int} {m d : Nat} (hy : YearInRange y) (h : IsDate y m d) :
    (Date.ofCivil y m d).days = daysFromCivil y m d := by
  obtain ⟨hyear, hmonth, hday⟩ := ofCivil_parts hy h
  have hm := h.month
  have hd := le_trans h.day.2 (monthLength_le y m)
  have hcast : ∀ n : Nat, n ≤ 31 → toUnsigned n = n := by
    intro n hn
    unfold toUnsigned
    omega
  unfold Date.days
  rw [hyear, hmonth, hday, hcast m (by omega), hcast d hd]

/-- The first and the last date. -/
theorem dayInRange_of_date {y : Int} {m d : Nat} (hy : YearInRange y) (h : IsDate y m d) :
    DayInRange (daysFromCivil y m d) := by
  have hfirst : IsDate 1 1 1 := by decide
  have hlast : IsDate 200000 12 31 := by decide
  obtain ⟨hlow, hhigh⟩ := hy
  have hm := h.month
  have hd := h.day.1
  have hd' := le_trans h.day.2 (monthLength_le y m)
  unfold DayInRange
  rw [daysFromCivil_eq ⟨hlow, hhigh⟩ h, daysFromCivil_eq (by decide) hfirst, daysFromCivil_eq (by decide) hlast]
  have hge := (dayNumber_lt_iff h hfirst).not.mpr (by omega)
  have hle := (dayNumber_lt_iff hlast h).not.mpr (by omega)
  omega

/-! ## From day numbers -/

/-- The year, the month and the day that `dateFromDays` finds are those of a date with the day's number. -/
theorem dateFromDays_spec {z : Int} (hz : 0 ≤ z + epochDay) : ∃ y m d, IsDate y m d ∧
    dayNumber y m d = z + epochDay ∧ dateFromDays z = .ofCivil y m d := by
  -- the era, and the day in it
  have hera : (if 0 ≤ z + epochDay then z + epochDay else z + epochDay - 146096).tdiv 146097 =
      (z + epochDay) / 146097 := by
    rw [if_pos hz, Int.tdiv_eq_ediv_of_nonneg hz]
  unfold dateFromDays
  dsimp only
  rw [show z + 719468 = z + epochDay from rfl, hera]
  have hday : z + epochDay = (z + epochDay) / 146097 * 146097 + (z + epochDay - (z + epochDay) / 146097 * 146097).toNat := by
    omega
  have hlt : (z + epochDay - (z + epochDay) / 146097 * 146097).toNat < 146097 := by omega
  generalize (z + epochDay) / 146097 = era at hday hlt ⊢
  generalize (z + epochDay - era * 146097).toNat = doe at hday hlt ⊢
  obtain ⟨hyoe, hbegun, _⟩ := yearOfEra_spec hlt
  obtain ⟨hstart, hend⟩ := yearOfEra_within era hlt
  rw [show (doe - doe / 1460 + doe / 36524 - doe / 146096) = flatDays doe from rfl]
  rw [yearStart_era era hyoe] at hstart
  rw [yearStart_succ, yearStart_era era hyoe] at hend
  generalize hyear : flatDays doe / 365 = yoe at hyoe hbegun hstart hend ⊢
  -- the day of the year, and the month
  rw [show 365 * yoe + yoe / 4 - yoe / 100 = eraYearStart yoe from rfl]
  have hleap : ((doe - eraYearStart yoe : Nat) : Int) < 365 + if Leap (yoe + era * 400 + 1) then 1 else 0 := by
    omega
  have hlength : doe - eraYearStart yoe < 366 := by
    split_ifs at hleap <;> omega
  obtain ⟨hmp, hmonth, hlast⟩ := ofDayOfYear_spec hlength
  obtain ⟨hdate, hnumber⟩ := isDate_ofDayOfYear hmp hmonth hlast hleap
  refine ⟨_, _, _, hdate, ?_, rfl⟩
  rw [hnumber, yearStart_era era hyoe]
  omega

/-! ## Main result -/

theorem dateFromDays_daysFromCivil {y : Int} {m d : Nat} (hy : YearInRange y) (h : IsDate y m d) :
    dateFromDays (daysFromCivil y m d) = .ofCivil y m d := by
  have hrange := (dayInRange_of_date hy h).1
  have hfirst : daysFromCivil 1 1 1 = -719162 := by decide
  obtain ⟨y', m', d', hdate, hnumber, heq⟩ := dateFromDays_spec (z := daysFromCivil y m d) (by unfold epochDay; omega)
  rw [daysFromCivil_eq hy h, Int.sub_add_cancel] at hnumber
  obtain ⟨rfl, rfl, rfl⟩ := dayNumber_inj hdate h hnumber
  exact heq

/-- A day in range is that of a date in range. -/
theorem exists_date_of_day {z : Int} (hz : DayInRange z) : ∃ y m d, YearInRange y ∧ IsDate y m d ∧
    daysFromCivil y m d = z ∧ dateFromDays z = .ofCivil y m d := by
  obtain ⟨hlow, hhigh⟩ := hz
  have hfirst : IsDate 1 1 1 := by decide
  have hlast : IsDate 200000 12 31 := by decide
  rw [daysFromCivil_eq (by decide) hfirst] at hlow
  rw [daysFromCivil_eq (by decide) hlast] at hhigh
  have hstart : dayNumber 1 1 1 = 306 := by decide
  obtain ⟨y, m, d, hdate, hnumber, heq⟩ := dateFromDays_spec (z := z) (by omega)
  have hy : YearInRange y := by
    have hge := (dayNumber_lt_iff hdate hfirst).not.mp (by omega)
    have hle := (dayNumber_lt_iff hlast hdate).not.mp (by omega)
    unfold YearInRange
    omega
  refine ⟨y, m, d, hy, hdate, ?_, heq⟩
  rw [daysFromCivil_eq hy hdate, hnumber, Int.add_sub_cancel]

theorem days_dateFromDays {z : Int} (hz : DayInRange z) : (dateFromDays z).Real ∧ (dateFromDays z).days = z := by
  obtain ⟨y, m, d, hy, hdate, hnumber, heq⟩ := exists_date_of_day hz
  rw [heq, days_ofCivil hy hdate]
  exact ⟨real_ofCivil hy hdate, hnumber⟩

theorem dateFromDays_lt {z z' : Int} (hz : DayInRange z) (hz' : DayInRange z') (hlt : z < z') :
    dateFromDays z < dateFromDays z' := by
  obtain ⟨y, m, d, hy, hdate, rfl, heq⟩ := exists_date_of_day hz
  obtain ⟨y', m', d', hy', hdate', rfl, heq'⟩ := exists_date_of_day hz'
  rw [daysFromCivil_eq hy hdate, daysFromCivil_eq hy' hdate'] at hlt
  have horder := (dayNumber_lt_iff hdate hdate').mp (by omega)
  rw [heq, heq']
  show (Date.ofCivil y m d).yyyymmdd < (Date.ofCivil y' m' d').yyyymmdd
  rw [Int32.lt_iff_toInt_lt, toInt_ofCivil hy hdate, toInt_ofCivil hy' hdate']
  have hm := hdate.month
  have hm' := hdate'.month
  have hd := le_trans hdate.day.2 (monthLength_le y m)
  have hd' := hdate'.day.1
  omega

/-- **Dates and day numbers** are inverse to each other and in the same order, so days are added as numbers are. -/
theorem civil_dates_invert :
    (∀ y m d, YearInRange y → IsDate y m d →
      dateFromDays (daysFromCivil y m d) = .ofCivil y m d ∧ (Date.ofCivil y m d).days = daysFromCivil y m d) ∧
    (∀ z, DayInRange z → (dateFromDays z).Real ∧ (dateFromDays z).days = z) ∧
    (∀ z z', DayInRange z → DayInRange z' → z < z' → dateFromDays z < dateFromDays z') ∧
    (∀ (d : Date) (m n : Int), d.Real → DayInRange (d.days + m) → DayInRange (d.days + m + n) →
      addDays (addDays d m) n = addDays d (m + n)) ∧
    ∀ (d : Date) (n : Int), d.Real → DayInRange (d.days + n) → weekdayOf (addDays d n) = (weekdayOf d + n) % 7 := by
  have hweekday : ∀ d : Date, weekdayOf d = (d.days + 4) % 7 := by
    intro d
    unfold weekdayOf
    generalize d.days + 4 = z
    have hmod : -7 < z.tmod 7 ∧ z.tmod 7 % 7 = z % 7 := by
      rw [Int.tmod_eq_emod]
      split_ifs <;> omega
    rw [Int.tmod_eq_emod_of_nonneg (by omega)]
    omega
  refine ⟨?_, fun z hz => days_dateFromDays hz, fun z z' => dateFromDays_lt, ?_, ?_⟩
  · intro y m d hy h
    exact ⟨dateFromDays_daysFromCivil hy h, days_ofCivil hy h⟩
  · intro d m n _ hm _
    unfold addDays
    rw [(days_dateFromDays hm).2, Int.add_assoc]
  · intro d n _ hn
    unfold addDays
    rw [hweekday, hweekday, (days_dateFromDays hn).2]
    omega

/-- The leap day of the year 2000, there and back. -/
theorem civil_dates_invert_leap_day : dateFromDays (daysFromCivil 2000 2 29) = ⟨20000229⟩ ∧
    (Date.ofCivil 2000 2 29).days = daysFromCivil 2000 2 29 :=
  civil_dates_invert.1 2000 2 29 (by decide) (by decide)

end Volforge
