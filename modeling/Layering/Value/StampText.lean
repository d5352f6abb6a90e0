import Layering.Value.Shown

/-!
# Timestamps in texts

Reading of a timestamp in the standard notation. A date is written in full or by its week, with dashes or
without; after any one character a time of day may follow, with colons or without, down to the hour alone
or to a fraction of a second; and after that a distance to universal time.

The date and the time are told apart by where a date of each form ends.
-/

namespace Layering

/-- Why a text is read as no timestamp. -/
inductive StampError where
  | malformed (text : String)
  | calendar (e : CalendarError)
deriving DecidableEq, Repr

/-- The text of an error. -/
def StampError.message : StampError → String
  | malformed text => s!"Invalid isoformat string: {quote text}"
  | calendar e => e.message

namespace StampText

/-- Reads a number of exactly `width` digits. -/
def digits? (width : Nat) (s : List Char) : Option (Nat × List Char) :=
  if (s.take width).length = width then (Text.number? 10 (s.take width)).map (·, s.drop width)
  else none

/-! ## Dates -/

/-- The number of characters of the date in front of a text of more than seven characters. -/
def dateLength? (s : List Char) : Option Nat :=
  let isDigitAt (n : Nat) : Bool := (s[n]?).any Char.isDigit
  if s[4]? = some '-' then
    if s[5]? = some 'W' then
      if s[8]? = some '-' then
        if s.length = 9 then none else if isDigitAt 10 then some 8 else some 10
      else some 8
    else some 10
  else if s[4]? = some 'W' then
    let stop := 7 + ((s.drop 7).takeWhile Char.isDigit).length
    if stop < 9 then some stop else if stop % 2 = 0 then some 7 else some 8
  else some 8

/-- Whether a week has a place in a year: the 53rd has one when the year begins on a Thursday, or is a
leap year that begins on a Wednesday. -/
def isWeek (year week : Nat) : Bool :=
  let weekday := (Date.dayNumber ⟨year, 1, 1⟩ + 2) % 7
  (1 ≤ week && week ≤ 52) || (week == 53 && (weekday == 3 || (weekday == 2 && Date.isLeap year)))

/-- The date of a day of a week. The first week is the one with the first Thursday. -/
def ofWeek? (year week day : Nat) : Option (Nat × Nat × Nat) :=
  if 1 ≤ year && isWeek year week && 1 ≤ day && day ≤ 7 then
    let first := Date.dayNumber ⟨year, 1, 1⟩
    let weekday := (first + 2) % 7
    let monday := if weekday > 3 then first - weekday + 7 else first - weekday
    let d := Date.ofDayNumber (monday + (week - 1) * 7 + (day - 1)).toNat
    some (d.year, d.month, d.day)
  else none

/-- Reads a date that takes up a whole text: its year, month and day. -/
def date? (s : List Char) : Option (Nat × Nat × Nat) := do
  let (year, s) ← digits? 4 s
  let dashed := s.head? == some '-'
  let pass (s : List Char) : Option (List Char) :=
    if (s.head? == some '-') == dashed then some (if dashed then s.drop 1 else s) else none
  let s := if dashed then s.drop 1 else s
  if s.head? == some 'W' then
    let (week, s) ← digits? 2 (s.drop 1)
    if s.isEmpty then ofWeek? year week 1
    else
      let (day, s) ← digits? 1 (← pass s)
      if s.isEmpty then ofWeek? year week day else none
  else
    let (month, s) ← digits? 2 s
    let (day, s) ← digits? 2 (← pass s)
    if s.isEmpty then some (year, month, day) else none

/-! ## Times of day -/

/-- Hours, minutes, seconds and microseconds. -/
structure Clock where
  hour : Nat := 0
  minute : Nat := 0
  second : Nat := 0
  microsecond : Nat := 0
deriving DecidableEq, Repr

/-- The parts of a time of day in a text. -/
structure ClockText where
  /-- Hours, minutes and seconds, as far as they are given. -/
  numbers : List Nat
  /-- What stands where a fraction of a second may stand. -/
  fraction : List Char := []
  /-- Whether something is left behind the parts. -/
  excess : Bool := false

/-- Splits a time of day into at most `count` numbers and a fraction. The numbers are divided by colons
or by nothing, which shows behind the first of them. A last single character is left over if it
is ASCII. -/
def split? (colons : Option Bool) : (count : Nat) → List Char → Option ClockText
  | 0, s => some { numbers := [], fraction := s }
  | count + 1, s => do
    let (number, s) ← digits? 2 s
    let colons := colons.getD (s.head? == some ':')
    let onward (s : List Char) : Option ClockText :=
      (split? (some colons) count s).map fun t => { t with numbers := number :: t.numbers }
    match s with
    | [] => return { numbers := [number] }
    | [c] => if c.toNat < 128 then return { numbers := [number], excess := true } else none
    | c :: r =>
      if colons && c = ':' then onward r
      else if c = '.' ∨ c = ',' then return { numbers := [number], fraction := r }
      else if colons then none
      else onward (c :: r)

/-- Reads a time of day, and tells whether something is left behind it. Of the digits of a fraction the
first six count; there have to be as many, or nothing else. -/
def clock? (s : List Char) : Option (Clock × Bool) := do
  let t ← split? none 3 s
  let clock : Clock := ⟨t.numbers.getD 0 0, t.numbers.getD 1 0, t.numbers.getD 2 0, 0⟩
  match t.fraction with
  | [] => return (clock, t.excess)
  | f =>
    let micro ← Text.number? 10 ((f ++ List.replicate 6 '0').take 6)
    return ({ clock with microsecond := micro }, !(f.drop 6).all Char.isDigit)

/-- Reads a distance to universal time, which is none if it is shorter than a second. -/
def span? (s : List Char) : Option Int := do
  let (c, excess) ← clock? s
  let seconds := (c.hour * 60 + c.minute) * 60 + c.second
  if excess then none
  else return if seconds = 0 then 0 else seconds * Timestamp.secondLength + c.microsecond

/-- Reads a time of day with the distance to universal time behind it, if there is one. Only then
something may be left behind the time. -/
def zoned? (s : List Char) : Option (Clock × Option Int) := do
  let (time, zone) := s.span fun c => c ≠ '+' && c ≠ '-' && c ≠ 'Z'
  let (clock, excess) ← clock? time
  match zone with
  | [] => if excess then none else return (clock, none)
  | ['Z'] => return (clock, some 0)
  | '+' :: zone => return (clock, some (← span? zone))
  | '-' :: zone => return (clock, some (-(← span? zone)))
  | _ => none

/-- Reads the parts of a timestamp. -/
def parts? (s : List Char) : Option ((Nat × Nat × Nat) × Clock × Option Int) := do
  let length ← if s.length < 7 then none else if s.length = 7 then some 7 else dateLength? s
  let date ← date? (s.take length)
  match s.drop length with
  | [] => return (date, {}, none)
  | _ :: rest =>
    let (clock, offset) ← zoned? rest
    return (date, clock, offset)

end StampText

/-- The timestamp that a text is. -/
def Timestamp.read (s : String) : Except StampError Timestamp :=
  match StampText.parts? s.toList with
  | none => .error (.malformed s)
  | some ((year, month, day), c, offset) =>
    match ofFields year month day c.hour c.minute c.second c.microsecond offset with
    | .ok t => .ok t
    | .error e => .error (.calendar e)

end Layering
