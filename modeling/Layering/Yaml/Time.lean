import Layering.Text.Basic
import Layering.Value.Calendar

/-!
# Times in a document

A date, or a date with a time of day: year, month and day with dashes, then a `T` or blanks, then the
hour, minute and second, perhaps a fraction and a distance to universal time.
-/

namespace Layering.Yaml

open Text

/-- The time of day in a text. -/
structure Clock where
  hour : Nat
  minute : Nat
  second : Nat
  microsecond : Nat
  offset : Option Int
deriving DecidableEq, Repr

/-- The fields of a date or time in a text, before they are checked. -/
structure TimeFields where
  year : Nat
  month : Nat
  day : Nat
  /-- Whether month and day have two digits each. -/
  padded : Bool
  clock : Option Clock
deriving DecidableEq, Repr

namespace TimeFields

/-- Reads a number of exactly `width` digits. -/
def digits? (width : Nat) (s : List Char) : Option (Nat × List Char) :=
  let ds := (s.take width).takeWhile Char.isDigit
  if ds.length = width then (number? 10 ds).map (·, s.drop width) else none

/-- Reads a number of one or two digits, and tells whether it has two. -/
def shortDigits? (s : List Char) : Option (Nat × Bool × List Char) :=
  let ds := (s.take 2).takeWhile Char.isDigit
  (number? 10 ds).map fun n => (n, ds.length == 2, s.drop ds.length)

/-- Reads a given character. -/
def sign? (c : Char) : List Char → Option (List Char)
  | d :: s => if d = c then some s else none
  | [] => none

/-- Reads the fraction of a second, if there is one, as microseconds. -/
def fraction : List Char → Nat × List Char
  | '.' :: s =>
    let (ds, r) := s.span Char.isDigit
    ((number? 10 ((ds ++ List.replicate 6 '0').take 6)).getD 0, r)
  | s => (0, s)

/-- Reads the distance to universal time up to the end, if there is one. -/
def zone? (s : List Char) : Option (Option Int) :=
  match s with
  | [] => some none
  | _ =>
    match s.dropWhile fun c => c = ' ' || c = '\t' with
    | ['Z'] => some (some 0)
    | c :: r =>
      if c = '+' ∨ c = '-' then do
        let (hours, _, r) ← shortDigits? r
        let minutes ← match r with
          | [] => some 0
          | _ => do
            let (m, r) ← digits? 2 (← sign? ':' r)
            if r.isEmpty then some m else none
        let distance : Int := (hours * 60 + minutes) * 60 * Timestamp.secondLength
        return some (if c = '-' then -distance else distance)
      else none
    | [] => none

/-- Reads the time of day, with the sign in front of it. -/
def clock? (s : List Char) : Option Clock := do
  let s ← match s with
    | c :: r =>
      if c = 'T' ∨ c = 't' then some r
      else if c = ' ' ∨ c = '\t' then some (r.dropWhile fun c => c = ' ' || c = '\t')
      else none
    | [] => none
  let (hour, _, s) ← shortDigits? s
  let (minute, s) ← digits? 2 (← sign? ':' s)
  let (second, s) ← digits? 2 (← sign? ':' s)
  let (microsecond, s) := fraction s
  return ⟨hour, minute, second, microsecond, ← zone? s⟩

/-- Reads a date or a time. -/
def read? (s : List Char) : Option TimeFields := do
  let (year, s) ← digits? 4 s
  let (month, wideMonth, s) ← shortDigits? (← sign? '-' s)
  let (day, wideDay, s) ← shortDigits? (← sign? '-' s)
  let clock ← match s with
    | [] => some none
    | _ => (clock? s).map some
  return ⟨year, month, day, wideMonth && wideDay, clock⟩

/-- Whether a text is taken for a date or time: a date alone has to have two digits for month and
day. -/
def isTime (s : List Char) : Bool :=
  match read? s with
  | some fields => fields.clock.isSome || fields.padded
  | none => false

end TimeFields

end Layering.Yaml
