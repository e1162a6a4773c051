/-!
Dates of the Gregorian calendar and the days they stand for.
-/
namespace StatesLanguage

structure Date where
  year : Int
  month : Nat
  day : Nat
  deriving Inhabited, DecidableEq

namespace Date

/-- Whether the year has a 29th of February. -/
def isLeapYear (year : Int) : Bool := year % 4 == 0 && (year % 100 != 0 || year % 400 == 0)

/-- The days of a month, none for a month that does not exist. -/
def daysInMonth (year : Int) : Nat → Nat
  | 1 | 3 | 5 | 7 | 8 | 10 | 12 => 31
  | 4 | 6 | 9 | 11 => 30
  | 2 => if isLeapYear year then 29 else 28
  | _ => 0

/-- Whether the calendar has the date. -/
def isValid (d : Date) : Bool := 1 ≤ d.day && d.day ≤ daysInMonth d.year d.month

/-- The days from the start of the year 0 to the start of a year. -/
def daysBeforeYear (year : Int) : Int :=
  let past := year - 1
  366 + past * 365 + past / 4 - past / 100 + past / 400

/-- The days from the start of a year to the start of a month. -/
def daysBeforeMonth (year : Int) (month : Nat) : Nat :=
  (List.range month).foldl (fun days m => days + daysInMonth year m) 0

/-- The days since the start of 1970. -/
def toDays (d : Date) : Int :=
  daysBeforeYear d.year - daysBeforeYear 1970 + daysBeforeMonth d.year d.month + (d.day - 1 : Nat)

/-- The month and the day that lie so many days after the start of a month. -/
def inYear (year : Int) : List Nat → Nat → Nat × Nat
  | [], rest => (12, rest + 1)
  | month :: later, rest =>
    if rest < daysInMonth year month then (month, rest + 1)
    else inYear year later (rest - daysInMonth year month)

/-- The date of a day since the start of 1970. The year is found from its mean length and corrected
by at most one. -/
def ofDays (days : Int) : Date :=
  let count := days + daysBeforeYear 1970
  let guess := count * 400 / 146097
  let year :=
    if count < daysBeforeYear guess then guess - 1
    else if daysBeforeYear (guess + 1) ≤ count then guess + 1
    else guess
  let (month, day) :=
    inYear year ((List.range 12).map (· + 1)) (count - daysBeforeYear year).toNat
  { year, month, day }

end Date

end StatesLanguage
