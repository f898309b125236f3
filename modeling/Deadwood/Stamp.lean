/-
# The time of a run

A run is named by its time in milliseconds since the beginning of 1970, which is
also written as a date for people to read.
-/

namespace Deadwood

/-- A day of the calendar. -/
structure Day where
  year : Int
  month : Nat
  day : Nat
deriving BEq, DecidableEq, Repr, Inhabited

/-- The day so many days after the beginning of 1970. Years are counted from
March, so that the day that only leap years have is the last of its year, and
four hundred years have a fixed number of days. -/
def Day.ofEpoch (days : Int) : Day :=
  let shifted := days + 719468
  let era := shifted.fdiv 146097
  let dayOfEra := (shifted - era * 146097).toNat
  let yearOfEra := (dayOfEra - dayOfEra / 1460 + dayOfEra / 36524 - dayOfEra / 146096) / 365
  let dayOfYear := dayOfEra - (365 * yearOfEra + yearOfEra / 4 - yearOfEra / 100)
  let monthFromMarch := (5 * dayOfYear + 2) / 153
  let month := if monthFromMarch < 10 then monthFromMarch + 3 else monthFromMarch - 9
  { year := yearOfEra + era * 400 + (if month ≤ 2 then 1 else 0)
    month
    day := dayOfYear - (153 * monthFromMarch + 2) / 5 + 1 }

/-- The time of a run in its two spellings. -/
structure Stamp where
  /-- Milliseconds since the beginning of 1970. -/
  millis : String
  /-- The date and time of day, to the millisecond. -/
  iso : String
deriving BEq, DecidableEq, Repr, Inhabited

namespace Stamp

/-- A number with leading zeros. -/
def padded (width n : Nat) : String :=
  let digits := Nat.toDigits 10 n
  String.ofList (List.replicate (width - digits.length) '0' ++ digits)

/-- A year. Only years of one to four digits go without a sign. -/
def yearText (year : Int) : String :=
  if 0 ≤ year ∧ year ≤ 9999 then padded 4 year.toNat
  else if year < 0 then "-" ++ padded 4 year.natAbs
  else "+" ++ padded 4 year.toNat

/-- The first millisecond that has a date. -/
def earliest : Int := -8334601228800000

/-- The last millisecond that has a date. -/
def latest : Int := 8210266876799999

/-- The date and time of day of a number of milliseconds. -/
def isoText (millis : Int) : String :=
  let day := Day.ofEpoch (millis.fdiv 86400000)
  let rest := (millis - millis.fdiv 86400000 * 86400000).toNat
  yearText day.year ++ "-" ++ padded 2 day.month ++ "-" ++ padded 2 day.day ++ "T" ++
    padded 2 (rest / 3600000) ++ ":" ++ padded 2 (rest / 60000 % 60) ++ ":" ++
    padded 2 (rest / 1000 % 60) ++ "." ++ padded 3 (rest % 1000) ++ "Z"

/-- The stamp of a number of milliseconds, if it has a date. -/
def ofMillis? (millis : Int) : Option Stamp :=
  if earliest ≤ millis ∧ millis ≤ latest then some ⟨toString millis, isoText millis⟩ else none

end Stamp

end Deadwood
