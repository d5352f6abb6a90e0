import Layering.Text.Basic

/-!
# Dates and times of day

The calendar dates and the timestamps that a configuration may hold. A date is checked when it is
built: the year first, then the month, then the day; a timestamp is checked field by field after its
date.
-/

namespace Layering

/-- A calendar date. -/
structure Date where
  year : Nat
  month : Nat
  day : Nat
deriving DecidableEq, Repr

/-- A date with a time of day, and the distance to universal time in microseconds if it is known. -/
structure Timestamp where
  date : Date
  hour : Nat
  minute : Nat
  second : Nat
  microsecond : Nat
  offset : Option Int
deriving DecidableEq, Repr

/-- Why fields make no date or no timestamp. -/
inductive CalendarError where
  | year (year : Nat)
  | month
  | day
  | hour
  | minute
  | second
  | offset (microseconds : Int)
deriving DecidableEq, Repr

namespace Date

/-- Whether a year has a leap day. -/
def isLeap (year : Nat) : Bool :=
  year % 4 == 0 && (year % 100 != 0 || year % 400 == 0)

/-- The number of days of a month. -/
def daysIn (year month : Nat) : Nat :=
  if month = 2 then (if isLeap year then 29 else 28)
  else if month = 4 ∨ month = 6 ∨ month = 9 ∨ month = 11 then 30
  else 31

/-- The date with these fields. -/
def ofFields (year month day : Nat) : Except CalendarError Date :=
  if year < 1 ∨ 9999 < year then .error (.year year)
  else if month < 1 ∨ 12 < month then .error .month
  else if day < 1 ∨ daysIn year month < day then .error .day
  else .ok ⟨year, month, day⟩

/-- The date as year, month and day with dashes between them. -/
def text (d : Date) : List Char :=
  Text.decimal 4 d.year ++ '-' :: Text.decimal 2 d.month ++ '-' :: Text.decimal 2 d.day

/-- The number of days before a date, counted from the first of March of the year zero. -/
def dayNumber (d : Date) : Int :=
  let y : Int := if d.month ≤ 2 then (d.year : Int) - 1 else d.year
  let m : Int := if d.month ≤ 2 then (d.month : Int) + 9 else (d.month : Int) - 3
  365 * y + y / 4 - y / 100 + y / 400 + (153 * m + 2) / 5 + d.day - 1

/-- The date that many days after the first of March of the year zero. -/
def ofDayNumber (n : Nat) : Date :=
  let era := n / 146097
  let day := n % 146097
  let year := (day - day / 1460 + day / 36524 - day / 146096) / 365
  let rest := day - (365 * year + year / 4 - year / 100)
  let m := (5 * rest + 2) / 153
  let month := if m < 10 then m + 3 else m - 9
  ⟨year + era * 400 + (if month ≤ 2 then 1 else 0), month, rest - (153 * m + 2) / 5 + 1⟩

end Date

namespace Timestamp

/-- The number of microseconds of a second. -/
def secondLength : Nat := 1000000

/-- The number of microseconds of a day. -/
def dayLength : Nat := 86400 * secondLength

/-- The timestamp with these fields. A distance to universal time of a day or more is refused
first. -/
def ofFields (year month day hour minute second microsecond : Nat) (offset : Option Int) :
    Except CalendarError Timestamp := do
  match offset with
  | some d => if dayLength ≤ d.natAbs then throw (.offset d)
  | none => pure ()
  let date ← Date.ofFields year month day
  if 23 < hour then throw .hour
  if 59 < minute then throw .minute
  if 59 < second then throw .second
  return ⟨date, hour, minute, second, microsecond, offset⟩

/-- A distance to universal time, with seconds and microseconds only when there are any. -/
def offsetText (offset : Int) : List Char :=
  let n := offset.natAbs / secondLength
  let micro := offset.natAbs % secondLength
  (if offset < 0 then '-' else '+') :: Text.decimal 2 (n / 3600) ++
    ':' :: Text.decimal 2 (n / 60 % 60) ++
    (if n % 60 = 0 ∧ micro = 0 then [] else ':' :: Text.decimal 2 (n % 60)) ++
    (if micro = 0 then [] else '.' :: Text.decimal 6 micro)

/-- The timestamp with `sep` between date and time; microseconds are written when there are any. -/
def text (sep : Char) (t : Timestamp) : List Char :=
  t.date.text ++ sep :: Text.decimal 2 t.hour ++ ':' :: Text.decimal 2 t.minute ++
    ':' :: Text.decimal 2 t.second ++
    (if t.microsecond = 0 then [] else '.' :: Text.decimal 6 t.microsecond) ++
    (t.offset.map offsetText).getD []

/-- The microsecond that a timestamp denotes, counted from a fixed one. -/
def instant (t : Timestamp) : Int :=
  (((t.date.dayNumber * 24 + t.hour) * 60 + t.minute) * 60 + t.second) * secondLength
    + t.microsecond - t.offset.getD 0

/-- The universal time that many seconds, and microseconds, after the start of the year 1970. -/
def ofEpoch (seconds microsecond : Nat) : Timestamp :=
  let days : Nat := (Date.dayNumber ⟨1970, 1, 1⟩).toNat + seconds / 86400
  ⟨.ofDayNumber days, seconds / 3600 % 24, seconds / 60 % 60, seconds % 60, microsecond, some 0⟩

/-- Whether two timestamps denote the same time: both know their distance to universal time, or
neither does. -/
def equals (s t : Timestamp) : Bool :=
  s.offset.isSome == t.offset.isSome && s.instant == t.instant

end Timestamp

end Layering
