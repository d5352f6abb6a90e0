/-!
# Texts as lists of characters

Paths, patterns and source files are read character by character, so the rules of this library are
written on `List Char`; the records that hold names and messages keep `String`.
-/

namespace Layering.Text

/-- Whether `needle` stands somewhere in a text. -/
def occursIn (needle : List Char) : List Char → Bool
  | [] => needle.isEmpty
  | c :: s => needle.isPrefixOf (c :: s) || occursIn needle s

/-- The texts, one after the other, with `sep` between them. -/
def joinWith (sep : List Char) : List (List Char) → List Char
  | [] => []
  | [s] => s
  | s :: ss => s ++ sep ++ joinWith sep ss

/-- A text without the characters at its end that satisfy `p`. -/
def dropRight (p : Char → Bool) (s : List Char) : List Char := (s.reverse.dropWhile p).reverse

/-- The text that bytes are, if all of them are ASCII. -/
def ascii? (bs : List UInt8) : Option (List Char) :=
  if bs.all (· < 0x80) then some (bs.map fun b => Char.ofNat b.toNat) else none

/-- The lower-case hexadecimal digit of a number below sixteen. -/
def hexDigit (n : Nat) : Char := Nat.digitChar n

/-- The last `width` hexadecimal digits of a number, most significant first. -/
def hexDigits : (width : Nat) → Nat → List Char
  | 0, _ => []
  | w + 1, n => hexDigits w (n / 16) ++ [hexDigit (n % 16)]

/-- The decimal digits of a number, with zeros in front up to `width`. -/
def decimal (width n : Nat) : List Char :=
  let ds := Nat.toDigits 10 n
  List.replicate (width - ds.length) '0' ++ ds

/-- The value of a digit in a base up to sixteen, or `none` for any other character. -/
def digitIn? (base : Nat) (c : Char) : Option Nat :=
  let n :=
    if '0' ≤ c ∧ c ≤ '9' then c.toNat - '0'.toNat
    else if 'a' ≤ c ∧ c ≤ 'f' then c.toNat - 'a'.toNat + 10
    else if 'A' ≤ c ∧ c ≤ 'F' then c.toNat - 'A'.toNat + 10
    else base
  if n < base then some n else none

/-- The number that digits of a base spell, or `none` when one of them is no digit or there are none. -/
def number? (base : Nat) (s : List Char) : Option Nat :=
  if s.isEmpty then none else s.foldlM (fun n c => (digitIn? base c).map (n * base + ·)) 0

end Layering.Text
