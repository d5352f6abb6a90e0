/-!
# Base 64

Three bytes are written as four characters of an alphabet. What is left at the end is written with two or
three characters, and filled up to four with `=` where that is asked for.
-/

namespace Layering.Base64

/-- An alphabet: the two characters besides letters and digits. -/
structure Alphabet where
  plus : Char
  slash : Char
deriving DecidableEq, Repr

/-- The standard alphabet. -/
def standard : Alphabet := ⟨'+', '/'⟩

/-- The alphabet that is safe in links. -/
def urlSafe : Alphabet := ⟨'-', '_'⟩

/-- The character for a number below sixty-four. -/
def digit (a : Alphabet) (n : Nat) : Char :=
  if n < 26 then Char.ofNat ('A'.toNat + n)
  else if n < 52 then Char.ofNat ('a'.toNat + (n - 26))
  else if n < 62 then Char.ofNat ('0'.toNat + (n - 52))
  else if n = 62 then a.plus
  else a.slash

/-- The number that a character stands for. -/
def value? (a : Alphabet) (c : Char) : Option Nat :=
  if c.isUpper then some (c.toNat - 'A'.toNat)
  else if c.isLower then some (c.toNat - 'a'.toNat + 26)
  else if c.isDigit then some (c.toNat - '0'.toNat + 52)
  else if c = a.plus then some 62
  else if c = a.slash then some 63
  else none

/-- Writes bytes, without filling up the end. -/
def encode (a : Alphabet) : List UInt8 → List Char
  | x :: y :: z :: r =>
    let n := (x.toNat * 256 + y.toNat) * 256 + z.toNat
    digit a (n / 262144) :: digit a (n / 4096 % 64) :: digit a (n / 64 % 64) :: digit a (n % 64) ::
      encode a r
  | [x, y] =>
    let n := (x.toNat * 256 + y.toNat) * 4
    [digit a (n / 4096), digit a (n / 64 % 64), digit a (n % 64)]
  | [x] =>
    let n := x.toNat * 16
    [digit a (n / 64), digit a (n % 64)]
  | [] => []

/-- The bytes of numbers below sixty-four. -/
def bytes? : List Nat → Option (List UInt8)
  | [] => some []
  | w :: x :: y :: z :: r =>
    let n := ((w * 64 + x) * 64 + y) * 64 + z
    (bytes? r).map fun rest =>
      UInt8.ofNat (n / 65536) :: UInt8.ofNat (n / 256 % 256) :: UInt8.ofNat (n % 256) :: rest
  | [w, x, y] =>
    let n := (w * 64 + x) * 64 + y
    some [UInt8.ofNat (n / 1024), UInt8.ofNat (n / 4 % 256)]
  | [w, x] => some [UInt8.ofNat ((w * 64 + x) / 16)]
  | [_] => none

/-- The numbers in a text up to the end of what it holds, and whether that is a sign for the end. Other
characters are passed over. `count` is how many numbers there are past the last four, and `signs` how many
signs came after the last number. -/
def looseDigits (a : Alphabet) (count signs : Nat) : List Char → List Nat × Bool
  | [] => ([], false)
  | c :: s =>
    if c = '=' then
      if count < 2 then looseDigits a count signs s
      else if 4 ≤ count + signs + 1 then ([], true)
      else looseDigits a count (signs + 1) s
    else match value? a c with
      | none => looseDigits a count signs s
      | some n =>
        let (rest, stopped) := looseDigits a ((count + 1) % 4) 0 s
        (n :: rest, stopped)

/-- Reads bytes, passing over characters that stand for nothing. An end that is not filled up is no
end. -/
def decodeLoose? (a : Alphabet) (s : List Char) : Option (List UInt8) :=
  let (digits, stopped) := looseDigits a 0 0 s
  if stopped || digits.length % 4 = 0 then bytes? digits else none

end Layering.Base64
