/-!
Days of the Gregorian calendar and moments of a day, with their ISO 8601 texts.
-/

namespace Schemata

structure Date where
  year : Nat
  month : Nat
  day : Nat
  deriving DecidableEq

/-- A time on a day. The offset is that of the clock from universal time, in minutes; a moment
without one is on no particular clock. -/
structure Moment where
  date : Date
  hour : Nat
  minute : Nat
  second : Nat
  microsecond : Nat
  offset : Option Int
  deriving DecidableEq

namespace Calendar

def isLeap (year : Nat) : Bool := year % 4 = 0 && (year % 100 ≠ 0 || year % 400 = 0)

def daysIn (year month : Nat) : Nat :=
  if month = 2 then (if isLeap year then 29 else 28)
  else if month = 4 || month = 6 || month = 9 || month = 11 then 30
  else 31

/-- Days of a year before a month. -/
def daysBefore (year month : Nat) : Nat :=
  ((List.range' 1 (month - 1)).map (daysIn year)).foldl (· + ·) 0

/-- The least digits are padded with zeros on the left. -/
def padded (width n : Nat) : String :=
  let digits := toString n
  String.ofList (List.replicate (width - digits.length) '0') ++ digits

end Calendar

open Calendar

/-- Whether the calendar has the day. Years run from 1 to 9999. -/
def Date.isValid (date : Date) : Bool :=
  1 ≤ date.year && date.year ≤ 9999 && 1 ≤ date.month && date.month ≤ 12 && 1 ≤ date.day
    && date.day ≤ daysIn date.year date.month

/-- Number of the day, counted from the first day of the year 1. -/
def Date.ordinal (date : Date) : Nat :=
  let years := date.year - 1
  365 * years + years / 4 - years / 100 + years / 400 + daysBefore date.year date.month + date.day

/-- Microseconds of universal time up to the moment; unknown for a moment on no particular clock. -/
def Moment.instant? (moment : Moment) : Option Int :=
  moment.offset.map fun offset =>
    let minutes : Int := ((moment.date.ordinal * 24 + moment.hour) * 60 + moment.minute : Nat) - offset
    (minutes * 60 + moment.second) * 1000000 + moment.microsecond

/-- Two moments are the same if their instants are, or if neither is on a clock and all their
parts are the same. -/
def Moment.same (a b : Moment) : Bool :=
  match a.instant?, b.instant? with
  | some i, some j => i = j
  | none, none => a = b
  | _, _ => false

/-- Whether the moment is on a clock: an offset is less than a day either way. -/
def Moment.isValid (moment : Moment) : Bool :=
  moment.date.isValid && moment.hour < 24 && moment.minute < 60 && moment.second < 60
    && moment.microsecond < 1000000
    && match moment.offset with
      | none => true
      | some minutes => minutes.natAbs < 1440

def Date.text (date : Date) : String :=
  padded 4 date.year ++ "-" ++ padded 2 date.month ++ "-" ++ padded 2 date.day

/-- Microseconds are written if there are any, and the offset as hours and minutes. -/
def Moment.text (moment : Moment) : String :=
  moment.date.text ++ "T" ++ padded 2 moment.hour ++ ":" ++ padded 2 moment.minute ++ ":"
    ++ padded 2 moment.second
    ++ (if moment.microsecond = 0 then "" else "." ++ padded 6 moment.microsecond)
    ++ match moment.offset with
      | none => ""
      | some minutes =>
        (if minutes < 0 then "-" else "+") ++ padded 2 (minutes.natAbs / 60) ++ ":"
          ++ padded 2 (minutes.natAbs % 60)

end Schemata
