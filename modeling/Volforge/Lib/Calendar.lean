import Mathlib.Tactic

/-!
# `Lib.Calendar` — the proleptic Gregorian calendar

Days are numbered in years that begin in March, so that the leap day is the last of its year and the months before it
do not depend on it. A year is any integer, divisions round down.

## Contents
- **Dates.** `IsDate`, from the lengths of the months.
- **Day numbers.** `dayNumber` counts from the 1st of March of the year 0; `dayNumber_lt_iff`: it keeps the order of
  dates, so two dates of one number are the same.
- **Eras.** The year in a run of 400 years by one division (`yearOfEra_spec`), the month and the day in a year by one
  division (`ofDayOfYear_spec`).
-/

namespace Calendar

/-! ## Dates -/

def Leap (y : Int) : Prop := y % 4 = 0 ∧ (y % 100 ≠ 0 ∨ y % 400 = 0)

instance (y : Int) : Decidable (Leap y) := inferInstanceAs (Decidable (_ ∧ _))

def monthLength (y : Int) (m : Nat) : Nat :=
  if m = 2 then (if Leap y then 29 else 28)
  else if m = 4 ∨ m = 6 ∨ m = 9 ∨ m = 11 then 30
  else 31

/-- A date of the calendar. -/
structure IsDate (y : Int) (m d : Nat) : Prop where
  month : 1 ≤ m ∧ m ≤ 12
  day : 1 ≤ d ∧ d ≤ monthLength y m

instance (y : Int) (m d : Nat) : Decidable (IsDate y m d) :=
  decidable_of_iff ((1 ≤ m ∧ m ≤ 12) ∧ 1 ≤ d ∧ d ≤ monthLength y m)
    ⟨fun h => ⟨h.1, h.2⟩, fun h => ⟨h.month, h.day⟩⟩

/-! ## Day numbers -/

/-- The days before the 1st of March of a year. -/
def yearStart (y : Int) : Int := 365 * y + y / 4 - y / 100 + y / 400

/-- The days before a month, March being the month 0. -/
def monthStart (mp : Nat) : Nat := (153 * mp + 2) / 5

/-- The year that begins in March. -/
def marchYear (y : Int) (m : Nat) : Int := if m ≤ 2 then y - 1 else y

def marchMonth (m : Nat) : Nat := (m + 9) % 12

def dayNumber (y : Int) (m d : Nat) : Int := yearStart (marchYear y m) + (monthStart (marchMonth m) + d : Nat) - 1

theorem yearStart_succ (y : Int) : yearStart (y + 1) = yearStart y + 365 + if Leap (y + 1) then 1 else 0 := by
  unfold yearStart Leap
  split_ifs with h
  · omega
  · omega

theorem yearStart_mono {y y' : Int} (h : y ≤ y') : yearStart y ≤ yearStart y' := by
  unfold yearStart
  omega

/-- The months before a day of one, and the day, fit the year. -/
theorem IsDate.dayOfYear_lt {y : Int} {m d : Nat} (h : IsDate y m d) :
    ((monthStart (marchMonth m) + d : Nat) : Int) - 1 < 365 + if Leap (marchYear y m + 1) then 1 else 0 := by
  obtain ⟨hlow, hhigh⟩ := h.month
  have hday := h.day.2
  unfold monthLength at hday
  unfold marchYear marchMonth monthStart
  by_cases hfeb : m = 2
  · subst hfeb
    have hyear : (if 2 ≤ 2 then y - 1 else y) + 1 = y := by
      rw [if_pos (le_refl 2), Int.sub_add_cancel]
    rw [if_pos rfl] at hday
    rw [hyear]
    split_ifs at hday ⊢
    · omega
    · omega
  · rw [if_neg hfeb] at hday
    interval_cases m
    all_goals
      simp only [reduceIte, Nat.reduceEqDiff, or_self, or_true, true_or] at hday ⊢
      omega

/-- A date lies in its year. -/
theorem IsDate.within {y : Int} {m d : Nat} (h : IsDate y m d) :
    yearStart (marchYear y m) ≤ dayNumber y m d ∧ dayNumber y m d < yearStart (marchYear y m + 1) := by
  have hlt := h.dayOfYear_lt
  have hday := h.day.1
  rw [yearStart_succ]
  unfold dayNumber
  omega

/-- The lengths of the months before the last of a year. -/
theorem monthLength_eq {m : Nat} (hlow : 1 ≤ m) (hhigh : m ≤ 12) (hmarch : marchMonth m < 11) (y : Int) :
    monthStart (marchMonth m) + monthLength y m = monthStart (marchMonth m + 1) := by
  have hfeb : m ≠ 2 := by
    rintro rfl
    exact absurd hmarch (by decide)
  unfold monthLength
  rw [if_neg hfeb]
  interval_cases m
  all_goals first | exact absurd rfl hfeb | rfl

/-- **The order of dates** is that of their day numbers. -/
theorem dayNumber_lt {y y' : Int} {m m' d d' : Nat} (h : IsDate y m d) (h' : IsDate y' m' d')
    (hlt : y < y' ∨ y = y' ∧ (m < m' ∨ m = m' ∧ d < d')) : dayNumber y m d < dayNumber y' m' d' := by
  obtain ⟨hlow, hhigh⟩ := h.month
  obtain ⟨hlow', hhigh'⟩ := h'.month
  have hday := h.day
  have hday' := h'.day
  have hyears : marchYear y m < marchYear y' m' ∨ marchYear y m = marchYear y' m' ∧
      (marchMonth m < marchMonth m' ∨ m = m' ∧ d < d') := by
    unfold marchYear marchMonth
    split_ifs <;> omega
  rcases hyears with hyear | ⟨hyear, hmonth | ⟨rfl, hlt⟩⟩
  · -- the earlier year is over
    have hend := h.within.2
    have hstart := h'.within.1
    have hmono : yearStart (marchYear y m + 1) ≤ yearStart (marchYear y' m') := yearStart_mono (by omega)
    omega
  · -- the earlier month is over
    have hover : monthStart (marchMonth m) + d < monthStart (marchMonth m') + d' := by
      have hmarch : marchMonth m < 11 := by
        have hlast : marchMonth m' ≤ 11 := by unfold marchMonth; omega
        omega
      have hlength := monthLength_eq hlow hhigh hmarch y
      have hmono : monthStart (marchMonth m + 1) ≤ monthStart (marchMonth m') := by
        unfold monthStart
        omega
      omega
    unfold dayNumber
    rw [hyear]
    omega
  · unfold dayNumber
    rw [hyear]
    omega

theorem dayNumber_lt_iff {y y' : Int} {m m' d d' : Nat} (h : IsDate y m d) (h' : IsDate y' m' d') :
    dayNumber y m d < dayNumber y' m' d' ↔ y < y' ∨ y = y' ∧ (m < m' ∨ m = m' ∧ d < d') := by
  refine ⟨fun hlt => ?_, dayNumber_lt h h'⟩
  by_contra hnot
  by_cases heq : y = y' ∧ m = m' ∧ d = d'
  · obtain ⟨rfl, rfl, rfl⟩ := heq
    exact lt_irrefl _ hlt
  · have hgt : y' < y ∨ y' = y ∧ (m' < m ∨ m' = m ∧ d' < d) := by omega
    exact lt_asymm hlt (dayNumber_lt h' h hgt)

/-- Two dates of one day number are the same. -/
theorem dayNumber_inj {y y' : Int} {m m' d d' : Nat} (h : IsDate y m d) (h' : IsDate y' m' d')
    (heq : dayNumber y m d = dayNumber y' m' d') : y = y' ∧ m = m' ∧ d = d' := by
  have hle := (dayNumber_lt_iff h h').not.mp (by omega)
  have hge := (dayNumber_lt_iff h' h).not.mp (by omega)
  omega

/-! ## Eras -/

/-- The days of an era before one of its years. -/
def eraYearStart (yoe : Nat) : Nat := 365 * yoe + yoe / 4 - yoe / 100

/-- The days of an era without its leap days, one for each leap year that is over. -/
def flatDays (doe : Nat) : Nat := doe - doe / 1460 + doe / 36524 - doe / 146096

theorem flatDays_mono {a b : Nat} (h : a ≤ b) : flatDays a ≤ flatDays b := by
  unfold flatDays
  have ha : a / 146096 = a / 36524 / 4 := by rw [Nat.div_div_eq_div_mul]
  have hb : b / 146096 = b / 36524 / 4 := by rw [Nat.div_div_eq_div_mul]
  have hdays : a - a / 1460 ≤ b - b / 1460 := by omega
  have hcenturies : a / 36524 ≤ b / 36524 := Nat.div_le_div_right h
  rw [ha, hb]
  omega

/-- At both ends of each year of an era the division by 365 is right. -/
theorem flatDays_ends : ∀ yoe < 400, 365 * yoe ≤ flatDays (eraYearStart yoe) ∧
    flatDays (eraYearStart (yoe + 1) - 1) < 365 * (yoe + 1) := by
  decide +kernel

/-- **The year of an era** is one division away. -/
theorem yearOfEra_spec {doe : Nat} (h : doe < 146097) :
    flatDays doe / 365 < 400 ∧ eraYearStart (flatDays doe / 365) ≤ doe ∧
      (doe < eraYearStart (flatDays doe / 365 + 1) ∨ flatDays doe / 365 = 399) := by
  have hlast : flatDays doe ≤ flatDays 146096 := flatDays_mono (by omega)
  have hlt : flatDays doe / 365 < 400 := by
    have htop : flatDays 146096 < 146000 := by decide
    omega
  refine ⟨hlt, ?_, ?_⟩
  · by_contra hbefore
    -- the year before is not over
    obtain ⟨k, hk⟩ : ∃ k, flatDays doe / 365 = k + 1 := by
      rcases Nat.eq_zero_or_pos (flatDays doe / 365) with hzero | hpos
      · rw [hzero] at hbefore
        exact absurd (Nat.zero_le doe) hbefore
      · exact ⟨flatDays doe / 365 - 1, by omega⟩
    rw [hk] at hbefore hlt
    have hend := (flatDays_ends k (by omega)).2
    have hmono : flatDays doe ≤ flatDays (eraYearStart (k + 1) - 1) := flatDays_mono (by omega)
    omega
  · by_contra hafter
    rw [not_or, not_lt] at hafter
    have hstart := (flatDays_ends (flatDays doe / 365 + 1) (by omega)).1
    have hmono : flatDays (eraYearStart (flatDays doe / 365 + 1)) ≤ flatDays doe := flatDays_mono hafter.1
    omega

/-- The era and the year in it put together again. -/
theorem yearStart_era (era : Int) {yoe : Nat} (h : yoe < 400) :
    yearStart (yoe + era * 400) = era * 146097 + eraYearStart yoe := by
  unfold yearStart eraYearStart
  omega

/-- A day of an era lies in the year that is found. -/
theorem yearOfEra_within (era : Int) {doe : Nat} (h : doe < 146097) :
    yearStart ((flatDays doe / 365 : Nat) + era * 400) ≤ era * 146097 + doe ∧
      era * 146097 + doe < yearStart ((flatDays doe / 365 : Nat) + era * 400 + 1) := by
  obtain ⟨hyoe, hstart, hend⟩ := yearOfEra_spec h
  refine ⟨by rw [yearStart_era era hyoe]; omega, ?_⟩
  rcases hend with hend | hlast
  · by_cases hnext : flatDays doe / 365 + 1 < 400
    · have hyear := yearStart_era era hnext
      push_cast at hyear
      rw [show ((flatDays doe / 365 : Nat) : Int) + era * 400 + 1 = (flatDays doe / 365 : Nat) + 1 + era * 400 by ring]
      push_cast
      rw [hyear]
      omega
    · have hyear := yearStart_era (era + 1) (by decide : 0 < 400)
      rw [show ((flatDays doe / 365 : Nat) : Int) + era * 400 + 1 = (0 : Nat) + (era + 1) * 400 by omega, hyear]
      omega
  · have hyear := yearStart_era (era + 1) (by decide : 0 < 400)
    rw [hlast, show ((399 : Nat) : Int) + era * 400 + 1 = (0 : Nat) + (era + 1) * 400 by omega, hyear]
    omega

/-- **The month and the day** of a year are one division away. -/
theorem ofDayOfYear_spec {doy : Nat} (h : doy < 366) :
    (5 * doy + 2) / 153 < 12 ∧ monthStart ((5 * doy + 2) / 153) ≤ doy ∧
      doy < monthStart ((5 * doy + 2) / 153 + 1) := by
  unfold monthStart
  omega

/-- The month of the calendar. -/
def ofMarchMonth (mp : Nat) : Nat := if mp < 10 then mp + 3 else mp - 9

/-- A day of a year that begins in March is a date. -/
theorem isDate_ofDayOfYear {year : Int} {mp doy : Nat} (hmp : mp < 12) (hstart : monthStart mp ≤ doy)
    (hend : doy < monthStart (mp + 1)) (hdoy : (doy : Int) < 365 + if Leap (year + 1) then 1 else 0) :
    IsDate (year + if ofMarchMonth mp ≤ 2 then 1 else 0) (ofMarchMonth mp) (doy - monthStart mp + 1) ∧
      dayNumber (year + if ofMarchMonth mp ≤ 2 then 1 else 0) (ofMarchMonth mp) (doy - monthStart mp + 1) =
        yearStart year + doy := by
  have hmarch : marchMonth (ofMarchMonth mp) = mp := by
    unfold marchMonth ofMarchMonth
    split_ifs <;> omega
  have hyear : marchYear (year + if ofMarchMonth mp ≤ 2 then 1 else 0) (ofMarchMonth mp) = year := by
    unfold marchYear
    split_ifs <;> omega
  have hmonth : 1 ≤ ofMarchMonth mp ∧ ofMarchMonth mp ≤ 12 := by
    unfold ofMarchMonth
    split_ifs <;> omega
  refine ⟨⟨hmonth, by omega, ?_⟩, ?_⟩
  · by_cases hlast : mp = 11
    · -- the last month has the leap day
      subst hlast
      rw [show ofMarchMonth 11 = 2 from rfl, if_pos (le_refl 2)]
      unfold monthLength
      rw [if_pos rfl, show monthStart 11 = 337 from rfl]
      split_ifs at hdoy ⊢
      · omega
      · omega
    · have hlength := monthLength_eq hmonth.1 hmonth.2 (by omega)
        (year + if ofMarchMonth mp ≤ 2 then 1 else 0)
      rw [hmarch] at hlength
      omega
  · unfold dayNumber
    rw [hyear, hmarch]
    omega

end Calendar
