import LiquidityWatch.Number

/-! # Dates

A timestamp in seconds since the beginning of 1970 as a date and a time of day in the proleptic
Gregorian calendar, in universal time. Fractions are rounded to microseconds, a half going to the
even one, and then cut off. The calendar has the years 1 to 9999; the day before has to lie in
it too. -/

namespace LiquidityWatch.Calendar

def secondsPerDay : Int := 86400

def microsPerSecond : Int := 1000000

/-- The bound of a clock that counts seconds in a signed 64-bit word. -/
def clockBound : Int := Nat.pow 2 63

/-- Years count from 1900 in a signed 32-bit word where dates are split into their fields. -/
def fieldBound : Int := Nat.pow 2 31

/-- A year that is reported is counted in a signed 32-bit word too, and wraps around in it. -/
def reportedYear (year : Int) : Int := Int.bmod year (Nat.pow 2 32)

def yearOffset : Int := 1900

/-- The whole seconds of a real timestamp. Rounding to microseconds may reach the next second; the
fraction is scaled in binary64 arithmetic. -/
def wholeSeconds (x : Binary64) : Except Fault Int :=
  match x with
  | .nan => .error .nanTimestamp
  | .infinite _ => .error .timestampOutOfRange
  | .finite negative units =>
    let seconds := Binary64.signedUnits negative (units / Binary64.unitsPerOne)
    let fraction : Binary64 := .finite negative (units % Binary64.unitsPerOne)
    let micros := ((fraction.mul (.ofInt microsPerSecond)).round?).getD 0
    .ok (seconds + Int.fdiv micros microsPerSecond)

/-- The whole seconds of a timestamp, as long as a clock can count them. -/
def seconds : Number → Except Fault Int
  | .whole n =>
    if -clockBound ≤ n ∧ n < clockBound then .ok n else .error .timestampOutOfRange
  | .real x => do
    let n ← wholeSeconds x
    if -clockBound ≤ n ∧ n ≤ clockBound then return n else .error .timestampOutOfRange

/-- A date of the proleptic Gregorian calendar. -/
structure Date where
  year : Int
  month : Nat
  day : Nat
deriving DecidableEq

/-- Days from the beginning of the year 0's March to the beginning of 1970. -/
def epochDay : Int := 719468

/-- The date of a day, counted from the beginning of 1970. Years are taken from March on, so that a
leap day ends one; 400 of them have 146097 days. -/
def dateOfDay (day : Int) : Date :=
  let shifted := day + epochDay
  let era := shifted / 146097
  let dayOfEra := (shifted % 146097).toNat
  let yearOfEra := (dayOfEra - dayOfEra / 1460 + dayOfEra / 36524 - dayOfEra / 146096) / 365
  let dayOfYear := dayOfEra - (365 * yearOfEra + yearOfEra / 4 - yearOfEra / 100)
  let monthFromMarch := (5 * dayOfYear + 2) / 153
  let day := dayOfYear - (153 * monthFromMarch + 2) / 5 + 1
  let month := if monthFromMarch < 10 then monthFromMarch + 3 else monthFromMarch - 9
  let year := (yearOfEra : Int) + era * 400
  ⟨if month ≤ 2 then year + 1 else year, month, day⟩

/-- The date of a number of seconds, as long as it has one. -/
def dateOfSeconds (n : Int) : Except Fault Date :=
  let date := dateOfDay (n / secondsPerDay)
  if date.year - yearOffset < -fieldBound ∨ fieldBound ≤ date.year - yearOffset then
    .error .yearOverflow
  else if date.year < 1 ∨ 9999 < date.year then .error (.yearOutOfRange (reportedYear date.year))
  else .ok date

/-- A number in two digits at least. -/
def twoDigits (n : Nat) : String := if n < 10 then s!"0{n}" else toString n

/-- The text of a date and a time of day. -/
def render (date : Date) (secondOfDay : Nat) : String :=
  let hour := twoDigits (secondOfDay / 3600)
  let minute := twoDigits (secondOfDay / 60 % 60)
  let second := twoDigits (secondOfDay % 60)
  s!"{date.year}-{twoDigits date.month}-{twoDigits date.day} {hour}:{minute}:{second}"

/-- The text of a timestamp. -/
def text (timestamp : Number) : Except Fault String := do
  let n ← seconds timestamp
  let date ← dateOfSeconds n
  let _ ← dateOfSeconds (n - secondsPerDay)
  return render date (n % secondsPerDay).toNat

end LiquidityWatch.Calendar
