import Layering.Decimal.Binary64
import Layering.Text.Basic
import Layering.Text.Blank
import Layering.Text.Digit

/-!
# Numbers in free text

Reading of an integer in a base and of a decimal fraction, the way people write them: blanks around the
number, a sign, the decimal digits of any script. A decimal integer may have only so many digits.
-/

namespace Layering.Text

open Decimal

/-- Whether a character may stand around a number: a blank, but none of the four separators. -/
def isNumberBlank (c : Char) : Bool := isBlank c && !(28 ≤ c.toNat && c.toNat < 32)

/-- A text without the blanks around the number in it. -/
def trimNumber (s : List Char) : List Char :=
  ((s.dropWhile isNumberBlank).reverse.dropWhile isNumberBlank).reverse

/-- A text with the decimal digits of all scripts written as ASCII digits. -/
def plainDigits (s : List Char) : List Char :=
  s.map fun c => match digitValue? c with
    | some d => Nat.digitChar d
    | none => c

/-- Splits a sign off; true stands for minus. -/
def splitSign : List Char → Bool × List Char
  | '-' :: s => (true, s)
  | '+' :: s => (false, s)
  | s => (false, s)

/-- The letter that marks a base after a leading zero. -/
def baseMark? (base : Nat) : Option Char :=
  if base = 2 then some 'b' else if base = 8 then some 'o' else if base = 16 then some 'x' else none

/-- Drops the mark of a base, and one underscore after it. -/
def dropBaseMark (base : Nat) (s : List Char) : List Char :=
  match s, baseMark? base with
  | '0' :: m :: r, some mark =>
    if m = mark ∨ m = mark.toUpper then (match r with
      | '_' :: r => r
      | r => r)
    else s
  | _, _ => s

/-- Drops the underscores of a run of digits; there is none where an underscore does not stand between
two digits. -/
def joinDigits? (s : List Char) : Option (List Char) :=
  let groups := s.splitOn '_'
  if groups.any List.isEmpty then none else some groups.flatten

/-- The number of digits up to which decimal integers are read from what users write, and quoted from
it. This is a setting of the runtime and no property of integers: the printers of values, of keys and of
places write integers of any length. -/
def maxDigits : Nat := 4300

/-- Whether an integer has too many digits to be written. -/
def isHuge (n : Int) : Bool := Nat.pow 10 maxDigits ≤ n.natAbs

/-- Why a text is read as no integer. -/
inductive IntegerError where
  | malformed
  | tooManyDigits (count : Nat)
deriving DecidableEq, Repr

/-- Reads an integer in a base. Only where the digits are not those of a power of two their number is
limited, and that before anything is known about what follows them. -/
def readInteger (base : Nat) (s : List Char) : Except IntegerError Int :=
  let (negative, s) := splitSign (plainDigits (trimNumber s))
  let s := dropBaseMark base s
  let run := s.takeWhile fun c => (digitIn? base c).isSome || c = '_'
  match joinDigits? run with
  | none => .error .malformed
  | some digits =>
    if (baseMark? base).isNone && maxDigits < digits.length then
      .error (.tooManyDigits digits.length)
    else if run.length < s.length then .error .malformed
    else match number? base digits with
      | some n => .ok (if negative then -(n : Int) else n)
      | none => .error .malformed

/-- The integer that a text is, if it is one. -/
def integer? (base : Nat) (s : List Char) : Option Int := (readInteger base s).toOption

/-- Reads the exponent of a decimal fraction, if one follows. -/
def exponent? : List Char → Option Int
  | [] => some 0
  | e :: s =>
    if e = 'e' ∨ e = 'E' then
      let (negative, s) := splitSign s
      (number? 10 s).map fun n => if negative then -(n : Int) else n
    else none

/-- Reads a decimal fraction, infinity or the value that is no number. -/
def decimal? (s : List Char) : Option Binary64 := do
  let (negative, s) := splitSign (plainDigits (trimNumber s))
  let word := s.map Char.toLower
  if word = "inf".toList ∨ word = "infinity".toList then some (.infinite negative)
  else if word = "nan".toList then some (.nan 0)
  else
    let (whole, r) := s.span Char.isDigit
    let (fraction, r) := match r with
      | '.' :: r => r.span Char.isDigit
      | r => ([], r)
    let digits ← number? 10 (whole ++ fraction)
    let exponent ← exponent? r
    return Binary64.ofDecimal negative digits (exponent - (fraction.length : Int))

end Layering.Text
