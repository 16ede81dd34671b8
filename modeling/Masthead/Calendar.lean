import Masthead.Text

/-!
# Points in time

Seconds since the start of 1970 in universal time, and their date in the proleptic Gregorian
calendar.
-/
namespace Masthead

structure Moment where
  seconds : Int
  deriving DecidableEq, Repr

structure CivilTime where
  year : Int
  month : Nat
  day : Nat
  hour : Nat
  minute : Nat
  second : Nat
  deriving DecidableEq, Repr

namespace Moment

def secondsPerDay : Int := 86400

def epochDays : Int := 719468

def eraDays : Int := 146097

/-- Months are counted from March on, so that a leap day ends its year. -/
def civil (m : Moment) : CivilTime :=
  let days := m.seconds.fdiv secondsPerDay + epochDays
  let clock := (m.seconds.fmod secondsPerDay).toNat
  let era := days.fdiv eraDays
  let dayOfEra := (days.fmod eraDays).toNat
  let yearOfEra := (dayOfEra - dayOfEra / 1460 + dayOfEra / 36524 - dayOfEra / 146096) / 365
  let dayOfYear := dayOfEra - (365 * yearOfEra + yearOfEra / 4 - yearOfEra / 100)
  let marchMonth := (5 * dayOfYear + 2) / 153
  let month := if marchMonth < 10 then marchMonth + 3 else marchMonth - 9
  { year := (yearOfEra : Int) + era * 400 + (if month ≤ 2 then 1 else 0)
    month := month
    day := dayOfYear - (153 * marchMonth + 2) / 5 + 1
    hour := clock / 3600
    minute := clock / 60 % 60
    second := clock % 60 }

def yearRange : Int × Int := (-262143, 262142)

/-- The moment so many seconds after the start of 1970, if its year is in the calendar. -/
def ofSeconds? (seconds : Int) : Option Moment :=
  let m : Moment := ⟨seconds⟩
  if yearRange.1 ≤ m.civil.year ∧ m.civil.year ≤ yearRange.2 then some m else none

end Moment

namespace CivilTime

def twoDigits (n : Nat) : Text := if n < 10 then '0' :: Text.ofNat n else Text.ofNat n

def yearText (t : CivilTime) : Text :=
  if t.year < 0 then '-' :: Text.ofNat t.year.natAbs else Text.ofNat t.year.natAbs

def monthText (t : CivilTime) : Text := twoDigits t.month

def dayText (t : CivilTime) : Text := twoDigits t.day

def clockText (t : CivilTime) : Text :=
  twoDigits t.hour ++ ':' :: twoDigits t.minute ++ ':' :: twoDigits t.second

end CivilTime
end Masthead
