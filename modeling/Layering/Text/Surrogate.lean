import Layering.Text.Basic

/-!
# Lone surrogates

A text may hold a half of a surrogate pair on its own, which is no character. It is kept as the
private-use character whose number is `0xf0000` more, so texts can be stored, compared and measured like
any others; where the difference shows, `codePoint` tells what is meant. Texts are ordered by these
numbers, and a text with such a half cannot be encoded.
-/

namespace Layering.Text

/-- Whether a number is that of a surrogate. -/
def isSurrogate (n : Nat) : Bool := 0xd800 ≤ n && n < 0xe000

/-- The distance between a surrogate and the character that stands for it. -/
def surrogateShift : Nat := 0xf0000

/-- The character with a number, or the one that stands for a surrogate with that number. -/
def ofCodePoint (n : Nat) : Char :=
  if isSurrogate n then Char.ofNat (n + surrogateShift) else Char.ofNat n

/-- The surrogate that a character stands for. -/
def surrogate? (c : Char) : Option Nat :=
  if surrogateShift ≤ c.toNat && isSurrogate (c.toNat - surrogateShift) then
    some (c.toNat - surrogateShift)
  else none

/-- The number that a character has or stands for. -/
def codePoint (c : Char) : Nat := (surrogate? c).getD c.toNat

/-- The numbers by which a text is ordered. -/
def codePoints (s : String) : List Nat := s.toList.map codePoint

/-- Whether a text comes before another or is the same. -/
def precedes (s t : String) : Bool := @decide _ (List.decidableLE (codePoints s) (codePoints t))

/-- A text with its lone surrogates written as their numbers, after a backslash. -/
def escapeSurrogates (s : List Char) : List Char :=
  s.flatMap fun c => match surrogate? c with
    | some n => '\\' :: 'u' :: hexDigits 4 n
    | none => [c]

/-- Whether a text can be encoded: it has no lone surrogate. -/
def isEncodable (s : String) : Bool := !s.toList.any fun c => (surrogate? c).isSome

end Layering.Text
