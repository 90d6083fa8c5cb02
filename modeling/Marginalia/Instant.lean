import Marginalia.Text.Basic

/-!
# Instants

A point in time as seconds since the start of 1970 and nanoseconds, shown as a date and a time of
day in Coordinated Universal Time with milliseconds. Days are counted in the Gregorian calendar in
both directions; a year outside of four digits has a sign.
-/

namespace Marginalia

/-- A point in time: seconds since the start of 1970, which may be negative, and nanoseconds. -/
structure Instant where
  seconds : Int
  nanoseconds : Nat
deriving DecidableEq, Inhabited

/-- A day of the calendar. -/
structure Date where
  year : Int
  month : Nat
  day : Nat
deriving DecidableEq

namespace Date

/-- The day that lies a number of days behind the first of January 1970. Years are counted from
March here, so that a leap day ends its year, in periods of 400 years of 146097 days. -/
def ofDays (days : Int) : Date :=
  let shifted := days + 719468
  let period := shifted.fdiv 146097
  let dayOfPeriod := (shifted.fmod 146097).toNat
  let yearOfPeriod :=
    (dayOfPeriod - dayOfPeriod / 1460 + dayOfPeriod / 36524 - dayOfPeriod / 146096) / 365
  let dayOfYear := dayOfPeriod - (365 * yearOfPeriod + yearOfPeriod / 4 - yearOfPeriod / 100)
  let monthFromMarch := (5 * dayOfYear + 2) / 153
  let month := if monthFromMarch < 10 then monthFromMarch + 3 else monthFromMarch - 9
  { year := period * 400 + yearOfPeriod + (if month ≤ 2 then 1 else 0)
    month := month
    day := dayOfYear - (153 * monthFromMarch + 2) / 5 + 1 }

end Date

namespace Instant

/-- A number with zeros in front up to a width. -/
def padded (width n : Nat) : Text :=
  List.leftpad width '0' (Text.ofNat n)

/-- A year: four digits, or a sign and at least four digits. -/
def showYear (year : Int) : Text :=
  if 0 ≤ year ∧ year ≤ 9999 then padded 4 year.toNat
  else (if year < 0 then '-' else '+') :: padded 4 year.natAbs

/-- The date, the time of day to the millisecond, and the letter of the time zone. -/
def written (t : Instant) : Text :=
  let date := Date.ofDays (t.seconds.fdiv 86400)
  let second := (t.seconds.fmod 86400).toNat
  showYear date.year ++ '-' :: padded 2 date.month ++ '-' :: padded 2 date.day ++
    'T' :: padded 2 (second / 3600) ++ ':' :: padded 2 (second / 60 % 60) ++
    ':' :: padded 2 (second % 60) ++ '.' :: padded 3 (t.nanoseconds / 1000000) ++ ['Z']

end Instant

end Marginalia
