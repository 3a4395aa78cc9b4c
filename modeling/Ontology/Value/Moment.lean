/-
Dates and times of day.

* `leap`, `daysInMonth`, `daysBefore`: the Gregorian calendar, extended to
  all years; there is a year 0, and it is a leap year.
* `Moment`: an instant, in seconds since the beginning of the year 1, and
  whether its offset from universal time is known; `Moment.same` compares.
* `readDate?`, `readDateTime?`: the readers.
-/
import Ontology.Value.Decimal

namespace Ontology.Value

/-! ### Calendar -/

/-- A year divisible by four, unless it ends a century not divisible by
four. -/
def leap (year : Int) : Bool :=
  year % 4 == 0 && (year % 100 != 0 || year % 400 == 0)

/-- The number of days of a month. -/
def daysInMonth (year : Int) (month : Nat) : Nat :=
  if month = 2 then if leap year then 29 else 28
  else if month ∈ [4, 6, 9, 11] then 30
  else 31

/-- The number of days between the beginnings of the year 1 and of another
year. -/
def daysBeforeYear (year : Int) : Int :=
  let y := year - 1
  365 * y + y / 4 - y / 100 + y / 400

/-- The number of days of a year before one of its months. -/
def daysBeforeMonth (year : Int) (month : Nat) : Nat :=
  (List.range (month - 1)).foldl (fun days m => days + daysInMonth year (m + 1)) 0

/-- A year has the days between its beginning and that of the next. -/
theorem daysBeforeYear_succ (year : Int) :
    daysBeforeYear (year + 1) =
      daysBeforeYear year + if leap year then 366 else 365 := by
  simp only [daysBeforeYear, leap]
  by_cases h4 : year % 4 = 0 <;> by_cases h100 : year % 100 = 0 <;>
    by_cases h400 : year % 400 = 0 <;> simp [h4, h100, h400] <;> omega

/-! ### Moments -/

/-- An instant in seconds since the beginning of the year 1, universal time
where the offset is known and local time elsewhere. -/
structure Moment where
  seconds : Decimal
  zoned : Bool
  deriving DecidableEq

/-- Equal instants. An instant of universal time equals no local one. -/
def Moment.same (a b : Moment) : Bool := a == b

/-- The instant of a date and a time of day, if its seconds fit. -/
def Moment.of? (year : Int) (month day hour minute : Nat) (second : Decimal)
    (offset : Option Int) : Option Moment := do
  let days := daysBeforeYear year + daysBeforeMonth year month + (day - 1 : Nat)
  let minutes := minute - offset.getD 0
  let whole ← Decimal.ofUnits?
    (Decimal.ofInt (86400 * days + 3600 * hour + 60 * minutes)).units
  return ⟨← whole.add? second, offset.isSome⟩

/-! ### Reading -/

/-- The digits at the beginning of a text, and the rest. -/
def takeDigits (cs : List Char) : List Char × List Char :=
  (cs.takeWhile Char.isDigit, cs.dropWhile Char.isDigit)

/-- Reads a number of exactly two digits within bounds. -/
def twoDigits? (low high : Nat) (cs : List Char) :
    Option (Nat × List Char) :=
  let (digits, rest) := takeDigits cs
  let n := Text.digitsValue 0 digits
  if digits.length = 2 ∧ low ≤ n ∧ n ≤ high then some (n, rest) else none

/-- Reads a mark. -/
def mark? (mark : Char) : List Char → Option (List Char)
  | c :: rest => if c = mark then some rest else none
  | [] => none

/-- Reads a year: at least four digits, and no leading zero if there are
more. -/
def readYear? (cs : List Char) : Option (Int × List Char) :=
  let (negative, cs) :=
    match cs with
    | '-' :: rest => (true, rest)
    | _ => (false, cs)
  let (digits, rest) := takeDigits cs
  let n : Int := Text.digitsValue 0 digits
  if digits.length = 4 ∨ (4 < digits.length ∧ digits.head? ≠ some '0') then
    some (if negative then -n else n, rest)
  else none

/-- Reads a day: a year, a month and a day of that month. -/
def readDay? (cs : List Char) : Option (Int × Nat × Nat × List Char) := do
  let (year, cs) ← readYear? cs
  let (month, cs) ← twoDigits? 1 12 (← mark? '-' cs)
  let (day, cs) ← twoDigits? 1 (daysInMonth year month) (← mark? '-' cs)
  return (year, month, day, cs)

/-- Reads seconds: two digits, and at least one digit after a point. -/
def readSeconds? (cs : List Char) : Option (Decimal × List Char) := do
  let (_, rest) ← twoDigits? 0 59 cs
  match rest with
  | '.' :: fraction =>
    let (digits, rest) := takeDigits fraction
    guard (digits ≠ [])
    return (← Decimal.read? (cs.take 2 ++ '.' :: digits), rest)
  | _ => return (← Decimal.read? (cs.take 2), rest)

/-- Reads a time of day. Midnight may be written as the hour 24. -/
def readTime? (cs : List Char) :
    Option (Nat × Nat × Decimal × List Char) := do
  let (hour, cs) ← twoDigits? 0 24 cs
  let (minute, cs) ← twoDigits? 0 59 (← mark? ':' cs)
  let (second, cs) ← readSeconds? (← mark? ':' cs)
  guard (hour < 24 ∨ (minute = 0 ∧ second.units = 0))
  return (hour, minute, second, cs)

/-- Reads an offset in minutes, at most fourteen hours, at the end of a text.
It may be missing, which is not the offset zero. -/
def readOffset? : List Char → Option (Option Int)
  | [] => some none
  | ['Z'] => some (some 0)
  | sign :: cs => do
    guard (sign = '+' ∨ sign = '-')
    let (hours, cs) ← twoDigits? 0 14 cs
    let (minutes, cs) ← twoDigits? 0 59 (← mark? ':' cs)
    guard (cs = [] ∧ (hours < 14 ∨ minutes = 0))
    let offset : Int := (60 * hours + minutes : Nat)
    return some (if sign = '-' then -offset else offset)

/-- Reads a date as its first instant. -/
def readDate? (cs : List Char) : Option Moment := do
  let (year, month, day, cs) ← readDay? cs
  Moment.of? year month day 0 0 ⟨0⟩ (← readOffset? cs)

/-- Reads a date and a time of day. -/
def readDateTime? (cs : List Char) : Option Moment := do
  let (year, month, day, cs) ← readDay? cs
  let (hour, minute, second, cs) ← readTime? (← mark? 'T' cs)
  Moment.of? year month day hour minute second (← readOffset? cs)

example : readDateTime? "1999-12-31T24:00:00Z".toList =
    readDateTime? "2000-01-01T14:00:00.0+14:00".toList ∧
    (readDateTime? "1999-12-31T24:00:00Z".toList).isSome := by
  decide +kernel

example : readDate? "2001-02-29".toList = none ∧
    readDate? "0000-02-29".toList = readDate? "-0000-02-29".toList ∧
    readDate? "02000-01-01".toList = none ∧
    readDate? "2000-01-01+14:01".toList = none := by
  decide +kernel

end Ontology.Value
