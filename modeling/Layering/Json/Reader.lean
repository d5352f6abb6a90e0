import Layering.Decimal.Binary64
import Layering.Text.Basic
import Layering.Text.Surrogate
import Layering.Value.Basic

/-!
# Reading values from JSON

A number without a point and without an exponent is an integer, any other a floating-point number.
Of two members with one key the later wins. The nesting is bounded by the length of the text, which
is what the recursion runs on.
-/

namespace Layering.Json

open Text

/-- A text without the JSON blanks at its start. -/
def skipBlanks (s : List Char) : List Char :=
  s.dropWhile fun c => c = ' ' || c = '\n' || c = '\r' || c = '\t'

/-- Reads four hexadecimal digits. -/
def readUnit? : List Char → Option (Nat × List Char)
  | a :: b :: c :: d :: s => (number? 16 [a, b, c, d]).map (·, s)
  | _ => none

/-- The character of a single-letter escape. -/
def unescape? : Char → Option Char
  | '"' => some '"'
  | '\\' => some '\\'
  | '/' => some '/'
  | 'b' => some '\x08'
  | 'f' => some '\x0c'
  | 'n' => some '\n'
  | 'r' => some '\r'
  | 't' => some '\t'
  | _ => none

/-- Splits a string after its opening quote from what follows its closing quote; `read` holds the
characters before, latest first. Escapes are left as they stand. -/
def splitString? (read : List Char) : List Char → Option (List Char × List Char)
  | [] => none
  | '"' :: rest => some (read.reverse, rest)
  | '\\' :: c :: rest => splitString? (c :: '\\' :: read) rest
  | c :: rest => splitString? (c :: read) rest

/-- The 16-bit units and characters that a string stands for, an escaped unit being `inr`. -/
def readUnits? (fuel : Nat) (s : List Char) : Option (List (Char ⊕ Nat)) :=
  match fuel, s with
  | _, [] => some []
  | 0, _ => none
  | fuel + 1, '\\' :: 'u' :: rest => do
    let (n, rest) ← readUnit? rest
    return .inr n :: (← readUnits? fuel rest)
  | fuel + 1, '\\' :: c :: rest => do
    let d ← unescape? c
    return .inl d :: (← readUnits? fuel rest)
  | fuel + 1, c :: rest => do return .inl c :: (← readUnits? fuel rest)

/-- The characters that units make up. Two units of a pair are joined, and a unit that lacks its
other half is a lone surrogate. -/
def joinUnits : List (Char ⊕ Nat) → List Char
  | [] => []
  | .inl c :: rest => c :: joinUnits rest
  | .inr hi :: .inr lo :: rest =>
    if 0xd800 ≤ hi ∧ hi < 0xdc00 ∧ 0xdc00 ≤ lo ∧ lo < 0xe000 then
      Char.ofNat (0x10000 + (hi - 0xd800) * 0x400 + (lo - 0xdc00)) :: joinUnits rest
    else ofCodePoint hi :: joinUnits (.inr lo :: rest)
  | .inr n :: rest => ofCodePoint n :: joinUnits rest

/-- Reads the rest of a string after its opening quote. -/
def readString? (s : List Char) : Option (List Char × List Char) := do
  let (body, rest) ← splitString? [] s
  if body.contains '\\' then return (joinUnits (← readUnits? body.length body), rest)
  else return (body, rest)

/-- Reads a run of decimal digits. -/
def readDigits (s : List Char) : List Char × List Char := s.span Char.isDigit

/-- Reads the exponent of a number, zero when there is none. -/
def readExponent? : List Char → Option (Option Int × List Char)
  | c :: s =>
    if c = 'e' ∨ c = 'E' then
      let (negative, s) := match s with
        | '-' :: s => (true, s)
        | '+' :: s => (false, s)
        | s => (false, s)
      let (ds, s) := readDigits s
      if ds.isEmpty then none
      else (number? 10 ds).map fun n => (some (if negative then -(n : Int) else n), s)
    else some (none, c :: s)
  | [] => some (none, [])

/-- Reads a number after its sign. -/
def readNumber? (negative : Bool) (s : List Char) : Option (Value × List Char) := do
  let (whole, s) := readDigits s
  if whole.isEmpty then none
  else
    let (places, s) ← match s with
      | '.' :: s =>
        let (ds, s) := readDigits s
        if ds.isEmpty then none else some (some ds, s)
      | s => some (none, s)
    let (exponent, s) ← readExponent? s
    match places, exponent with
    | none, none =>
      let n ← number? 10 whole
      return (.int (if negative then -(n : Int) else n), s)
    | _, _ =>
      let ds := places.getD []
      let n ← number? 10 (whole ++ ds)
      return (.real (Decimal.Binary64.ofDecimal negative n (exponent.getD 0 - ds.length)), s)

/-- Reads a word with a fixed meaning: null, a truth value, or a number that is not finite. -/
def readWord? (s : List Char) : Option (Value × List Char) :=
  match s with
  | 'N' :: 'a' :: 'N' :: s => some (.real (.nan 0), s)
  | 'I' :: 'n' :: 'f' :: 'i' :: 'n' :: 'i' :: 't' :: 'y' :: s => some (.real (.infinite false), s)
  | '-' :: 'I' :: 'n' :: 'f' :: 'i' :: 'n' :: 'i' :: 't' :: 'y' :: s => some (.real (.infinite true), s)
  | 'n' :: 'u' :: 'l' :: 'l' :: s => some (.null, s)
  | 't' :: 'r' :: 'u' :: 'e' :: s => some (.bool true, s)
  | 'f' :: 'a' :: 'l' :: 's' :: 'e' :: s => some (.bool false, s)
  | _ => none

mutual

/-- Reads a value. -/
def readValue? (fuel : Nat) (s : List Char) : Option (Value × List Char) :=
  match fuel with
  | 0 => none
  | fuel + 1 =>
    match skipBlanks s with
    | '[' :: s =>
      match skipBlanks s with
      | ']' :: s => some (.list [], s)
      | s => readItems? fuel [] s
    | '\x7b' :: s =>
      match skipBlanks s with
      | '\x7d' :: s => some (.map [], s)
      | s => readMembers? fuel [] s
    | '"' :: s => (readString? s).map fun (t, s) => (.str (String.ofList t), s)
    | '-' :: 'I' :: s => readWord? ('-' :: 'I' :: s)
    | '-' :: s => readNumber? true s
    | s => if (s.head?.map Char.isDigit).getD false then readNumber? false s else readWord? s

/-- Reads the items of a list up to its end; `read` holds those before, latest first. -/
def readItems? (fuel : Nat) (read : List Value) (s : List Char) : Option (Value × List Char) :=
  match fuel with
  | 0 => none
  | fuel + 1 =>
    match readValue? fuel s with
    | none => none
    | some (v, s) =>
      match skipBlanks s with
      | ',' :: s => readItems? fuel (v :: read) s
      | ']' :: s => some (.list (v :: read).reverse, s)
      | _ => none

/-- Reads the members of an object up to its end; `read` holds those before, latest first. -/
def readMembers? (fuel : Nat) (read : List (Scalar × Value)) (s : List Char) :
    Option (Value × List Char) :=
  match fuel with
  | 0 => none
  | fuel + 1 =>
    match skipBlanks s with
    | '"' :: s =>
      match readString? s with
      | none => none
      | some (key, s) =>
        match skipBlanks s with
        | ':' :: s =>
          match readValue? fuel s with
          | none => none
          | some (v, s) =>
            let read := (.text (String.ofList key), v) :: read
            match skipBlanks s with
            | ',' :: s => readMembers? fuel read s
            | '\x7d' :: s => some (.map (Entries.ofList read.reverse), s)
            | _ => none
        | _ => none
    | _ => none

end

/-- Reads a text that is one value and nothing else. -/
def read? (s : List Char) : Option Value :=
  match readValue? (2 * s.length + 2) s with
  | some (v, rest) => if (skipBlanks rest).isEmpty then some v else none
  | none => none

end Layering.Json
