/-!
# Moments

Seconds since the beginning of 1970 as a date and a time of the day, and the texts that logs need of
them.

    (Moment.of 0 0).stamp = "1970-01-01T00:00:00Z"
-/

namespace Switchboard.Logging

/-- A moment as it is written: in full, its date, and its hour of the day. -/
structure Moment where
  stamp : String
  date : String
  hour : String
  deriving DecidableEq, Repr

structure Date where
  year : Nat
  month : Nat
  day : Nat
  deriving DecidableEq, Repr

namespace Date

/-- Days from the first of March of the year 0 to the first day of 1970. -/
def epoch : Nat := 719468

/-- Days of four hundred years. -/
def eraDays : Nat := 146097

/-- The date that many days after the first of 1970.  Years are counted from March, so that a leap
day is the last of its year. -/
def ofDays (days : Nat) : Date :=
  let n := days + epoch
  let day := n % eraDays
  let year := (day - day / 1460 + day / 36524 - day / 146096) / 365
  let inYear := day - (365 * year + year / 4 - year / 100)
  let month := (5 * inYear + 2) / 153
  let late := 10 ≤ month
  { year := n / eraDays * 400 + year + (if late then 1 else 0)
    month := if late then month - 9 else month + 3
    day := inYear - (153 * month + 2) / 5 + 1 }

end Date

/-- A number with zeros in front, up to a width. -/
def padZero (width n : Nat) : String :=
  let ds := Nat.toDigits 10 n
  String.ofList (List.replicate (width - ds.length) '0' ++ ds)

def Date.text (d : Date) : String :=
  padZero 4 d.year ++ "-" ++ padZero 2 d.month ++ "-" ++ padZero 2 d.day

/-- Nanoseconds as a fraction of a second, without zeros at its end. -/
def fraction (nanos : Nat) : String :=
  match (padZero 9 nanos).toList.reverse.dropWhile (· == '0') with
  | [] => ""
  | ds => "." ++ String.ofList ds.reverse

def Moment.of (seconds nanos : Nat) : Moment :=
  let date := (Date.ofDays (seconds / 86400)).text
  let hour := padZero 2 (seconds % 86400 / 3600)
  let clock :=
    hour ++ ":" ++ padZero 2 (seconds % 3600 / 60) ++ ":" ++ padZero 2 (seconds % 60)
  ⟨date ++ "T" ++ clock ++ fraction nanos ++ "Z", date, hour⟩

/-! ## Lemmas -/

theorem ofDays_zero : Date.ofDays 0 = ⟨1970, 1, 1⟩ := rfl

theorem ofDays_leap_day : Date.ofDays 19782 = ⟨2024, 2, 29⟩ := rfl

end Switchboard.Logging
