import LiquidityWatch.Calendar
import LiquidityWatch.Proofs.Outcome

/-! # Timestamps with a date

A timestamp has a text if its date lies in the years 1 to 9999, and so does the day before. In days
this is one range (`Calendar.IsDated`): the year of a day is between 1 and 9999 exactly if the day
lies between the first and the last one of these years. -/

namespace LiquidityWatch.Calendar

/-! ## The year of a day -/

/-- The year within an era of 400 years, from March to February, by the day of the era. -/
def yearOfEra (day : Nat) : Nat := (day - day / 1460 + day / 36524 - day / 146096) / 365

/-- The day within such a year, by the day of the era. -/
def dayOfYear (day : Nat) : Nat :=
  day - (365 * yearOfEra day + yearOfEra day / 4 - yearOfEra day / 100)

/-- The month, by the day of a year that begins in March. -/
def monthOf (day : Nat) : Nat :=
  if (5 * day + 2) / 153 < 10 then (5 * day + 2) / 153 + 3 else (5 * day + 2) / 153 - 9

/-- The year counts from January again. -/
theorem year_dateOfDay_eq (day : Int) : (dateOfDay day).year =
    let d := ((day + epochDay) % 146097).toNat
    let year : Int := yearOfEra d + (day + epochDay) / 146097 * 400
    if monthOf (dayOfYear d) ≤ 2 then year + 1 else year := rfl

theorem yearOfEra_le {day : Nat} (h : day < 146097) : yearOfEra day ≤ 399 := by
  rw [yearOfEra]
  omega

theorem yearOfEra_eq_zero {day : Nat} : yearOfEra day = 0 ↔ day < 365 := by
  rw [yearOfEra]
  omega

theorem yearOfEra_eq_last {day : Nat} (h : day < 146097) :
    yearOfEra day = 399 ↔ 145731 ≤ day := by
  rw [yearOfEra]
  omega

/-- January begins 306 days after March. -/
theorem monthOf_le {day : Nat} (h : day ≤ 366) : monthOf day ≤ 2 ↔ 306 ≤ day := by
  rw [monthOf]
  split <;> omega

/-- The first day of the year 1, counted from the beginning of 1970. -/
def firstDay : Int := -719162

/-- The last day of the year 9999, counted from the beginning of 1970. -/
def lastDay : Int := 2932896

theorem year_dateOfDay (day : Int) :
    1 ≤ (dateOfDay day).year ∧ (dateOfDay day).year ≤ 9999 ↔ firstDay ≤ day ∧ day ≤ lastDay := by
  rw [year_dateOfDay_eq, firstDay, lastDay]
  dsimp only
  generalize hera : (day + epochDay) / 146097 = era
  generalize hd : ((day + epochDay) % 146097).toNat = d
  have hlt : d < 146097 := by omega
  have hday : day + epochDay = era * 146097 + d := by omega
  rw [epochDay] at hday
  have hyear := yearOfEra_le hlt
  by_cases hfirst : yearOfEra d = 0
  · -- In the first year of an era the days of the year are those of the era.
    have hsmall := yearOfEra_eq_zero.mp hfirst
    have hmonth : monthOf d ≤ 2 ↔ 306 ≤ d := monthOf_le (by omega)
    have hsame : dayOfYear d = d := by rw [dayOfYear, hfirst]; omega
    rw [hsame, hfirst]
    split <;> omega
  · have hmany : ¬ d < 365 := mt yearOfEra_eq_zero.mpr hfirst
    by_cases hlast : yearOfEra d = 399
    · have hlarge := (yearOfEra_eq_last hlt).mp hlast
      have hsame : dayOfYear d = d - 145731 := by rw [dayOfYear, hlast]
      have hmonth : monthOf (d - 145731) ≤ 2 ↔ 306 ≤ d - 145731 := monthOf_le (by omega)
      rw [hsame, hlast]
      split <;> omega
    · -- Years in between lie between, whatever the month is.
      have hsmall : ¬ 145731 ≤ d := mt (yearOfEra_eq_last hlt).mpr hlast
      split <;> omega

/-! ## The text of a timestamp -/

/-- Seconds have the date of their day, from the first day to the last. -/
theorem dateOfSeconds_eq_ok {n : Int} {date : Date} : dateOfSeconds n = .ok date ↔
    (firstDay ≤ n / secondsPerDay ∧ n / secondsPerDay ≤ lastDay) ∧
      date = dateOfDay (n / secondsPerDay) := by
  rw [← year_dateOfDay, dateOfSeconds]
  -- The years in range fit the word that they are counted in.
  have hword : fieldBound = 2147483648 := rfl
  rw [yearOffset]
  split_ifs with hoverflow hrange
  · rw [false_iff]
    omega
  · rw [false_iff]
    omega
  · rw [Except.ok.injEq]
    constructor
    · exact fun h => ⟨by omega, h.symm⟩
    · exact fun h => h.2.symm

/-- The timestamp is a number of seconds in the years 1 to 9999, and not of the very first day. -/
def IsDated (x : Binary64) : Prop :=
  ∃ n, wholeSeconds x = .ok n ∧ firstDay < n / secondsPerDay ∧ n / secondsPerDay ≤ lastDay

/-- A timestamp has a text exactly if its day has a date, and so has the day before. -/
theorem exists_text_iff {x : Binary64} : (∃ time, text (.real x) = .ok time) ↔ IsDated x := by
  have hclock : clockBound = 9223372036854775808 := rfl
  have hprevious : ∀ n : Int, (n - secondsPerDay) / secondsPerDay = n / secondsPerDay - 1 := by
    intro n
    rw [secondsPerDay]
    omega
  constructor
  · rintro ⟨time, h⟩
    obtain ⟨n, hseconds, h⟩ := bind_eq_ok.mp h
    obtain ⟨date, hdate, h⟩ := bind_eq_ok.mp h
    obtain ⟨previous, hday, -⟩ := bind_eq_ok.mp h
    obtain ⟨m, hwhole, hseconds⟩ := bind_eq_ok.mp hseconds
    split at hseconds
    · obtain rfl := pure_eq_ok.mp hseconds
      obtain ⟨⟨-, hlast⟩, -⟩ := dateOfSeconds_eq_ok.mp hdate
      obtain ⟨⟨hfirst, -⟩, -⟩ := dateOfSeconds_eq_ok.mp hday
      rw [hprevious] at hfirst
      exact ⟨m, hwhole, by omega, hlast⟩
    · cases hseconds
  · rintro ⟨n, hwhole, hfirst, hlast⟩
    have hseconds : seconds (.real x) = .ok n := by
      rw [seconds, hwhole, ok_bind, if_pos]
      · rfl
      · rw [firstDay, secondsPerDay] at hfirst
        rw [lastDay, secondsPerDay] at hlast
        omega
    have hdate := dateOfSeconds_eq_ok.mpr ⟨⟨Int.le_of_lt hfirst, hlast⟩, rfl⟩
    have hday : dateOfSeconds (n - secondsPerDay) = .ok (dateOfDay (n / secondsPerDay - 1)) := by
      rw [dateOfSeconds_eq_ok, hprevious]
      exact ⟨⟨by omega, by omega⟩, rfl⟩
    rw [text, hseconds, ok_bind, hdate, ok_bind, hday, ok_bind]
    exact ⟨_, rfl⟩

/-- Any other timestamp has a fault instead. -/
theorem exists_fault_iff {x : Binary64} : (∃ f, text (.real x) = .error f) ↔ ¬ IsDated x := by
  rw [← exists_text_iff]
  cases text (.real x) with
  | error f => simp
  | ok time => simp

end LiquidityWatch.Calendar
