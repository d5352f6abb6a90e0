import Layering.Decimal.Shortest
import Layering.Text.Quoted
import Layering.Value.Basic

/-!
# Values in messages

How values read in messages. A text on its own is shown as it is; inside a list or a map, and where a
message quotes a value, it is quoted.
-/

namespace Layering

open Text

/-- The amount of time that a number of microseconds is, as days, seconds and microseconds, of which
only the days can be negative. -/
def quotedSpan (span : Int) : List Char :=
  let rest := span % Timestamp.dayLength
  let parts := [("days=", span / Timestamp.dayLength), ("seconds=", rest / Timestamp.secondLength),
    ("microseconds=", rest % Timestamp.secondLength)]
  let parts := (parts.filter (·.2 ≠ 0)).map fun (name, n) => (name ++ toString n).toList
  "datetime.timedelta(".toList ++ (if parts.isEmpty then ['0'] else joinWith [',', ' '] parts) ++ [')']

/-- The text of a calendar error. -/
def CalendarError.message : CalendarError → String
  | year y => s!"year {y} is out of range"
  | month => "month must be in 1..12"
  | day => "day is out of range for month"
  | hour => "hour must be in 0..23"
  | minute => "minute must be in 0..59"
  | second => "second must be in 0..59"
  | offset s =>
    "offset must be a timedelta strictly between -timedelta(hours=24) and timedelta(hours=24), not "
      ++ String.ofList (quotedSpan s) ++ "."

/-- A date, quoted. -/
def Date.quoted (d : Date) : List Char :=
  "datetime.date(".toList ++
    joinWith [',', ' '] ([d.year, d.month, d.day].map (Nat.toDigits 10)) ++ [')']

/-- A timestamp, quoted: seconds and microseconds are left out when they end the time with zeros. -/
def Timestamp.quoted (t : Timestamp) : List Char :=
  let fields := [t.date.year, t.date.month, t.date.day, t.hour, t.minute] ++
    (if t.microsecond ≠ 0 then [t.second, t.microsecond]
     else if t.second ≠ 0 then [t.second] else [])
  let zone := match t.offset with
    | none => []
    | some 0 => ["tzinfo=datetime.timezone.utc".toList]
    | some s => ["tzinfo=datetime.timezone(".toList ++ quotedSpan s ++ [')']]
  "datetime.datetime(".toList ++ joinWith [',', ' '] (fields.map (Nat.toDigits 10) ++ zone) ++ [')']

/-- A scalar, quoted. -/
def Scalar.quoted : Scalar → List Char
  | null => "None".toList
  | bool true => "True".toList
  | bool false => "False".toList
  | int n => (toString n).toList
  | real x => x.text
  | text s => Text.quoted s.toList
  | bytes bs => Text.quotedBytes bs
  | date d => d.quoted
  | time t => t.quoted

/-- A scalar on its own. -/
def Scalar.shown : Scalar → List Char
  | text s => s.toList
  | date d => d.text
  | time t => t.text ' '
  | s => s.quoted

/-- The set without members, quoted. -/
def quotedEmptySet : List Char := "set()".toList

mutual

/-- A value, quoted. -/
def Value.quoted : Value → List Char
  | .scalar s => s.quoted
  | .list items => '[' :: joinWith [',', ' '] (quotedItems items) ++ [']']
  | .map entries => '\x7b' :: joinWith [',', ' '] (quotedEntries entries) ++ ['\x7d']
  | .set [] => quotedEmptySet
  | .set members => '\x7b' :: joinWith [',', ' '] (members.map Scalar.quoted) ++ ['\x7d']

/-- The items of a list, quoted. -/
def quotedItems : List Value → List (List Char)
  | [] => []
  | v :: vs => v.quoted :: quotedItems vs

/-- The entries of a map, quoted. -/
def quotedEntries : List (Scalar × Value) → List (List Char)
  | [] => []
  | (k, v) :: es => (k.quoted ++ [':', ' '] ++ v.quoted) :: quotedEntries es

end

/-- A value on its own. -/
def Value.shown : Value → List Char
  | .scalar s => s.shown
  | v => v.quoted

/-- A value on its own, as a string. -/
def Value.shownText (v : Value) : String := String.ofList v.shown

/-- A value, quoted, as a string. -/
def Value.quotedText (v : Value) : String := String.ofList v.quoted

end Layering
