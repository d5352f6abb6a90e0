import Layering.Text.Basic
import Layering.Text.Surrogate
import Layering.Yaml.Cursor
import Layering.Yaml.Token

/-!
# Quoted scalars

Between single quotes only the quote itself is special, and is written twice. Between double quotes a
backslash starts an escape. In both, blanks around the end of a line are dropped and the lines are
joined.
-/

namespace Layering.Yaml.Token

open Text

/-- The character that a letter stands for after a backslash. -/
def escape? (c : Char) : Option Char :=
  match c with
  | '0' => some '\x00'
  | 'a' => some '\x07'
  | 'b' => some '\x08'
  | 't' => some '\t'
  | '\t' => some '\t'
  | 'n' => some '\n'
  | 'v' => some '\x0b'
  | 'f' => some '\x0c'
  | 'r' => some '\r'
  | 'e' => some '\x1b'
  | ' ' => some ' '
  | '"' => some '"'
  | '\\' => some '\\'
  | '/' => some '/'
  | 'N' => some '\u0085'
  | '_' => some '\u00a0'
  | 'L' => some '\u2028'
  | 'P' => some '\u2029'
  | _ => none

/-- The number of hexadecimal digits that follow a letter after a backslash. -/
def escapeWidth? (c : Char) : Option Nat :=
  if c = 'x' then some 2 else if c = 'u' then some 4 else if c = 'U' then some 8 else none

/-- Passes over blanks and empty lines, and collects the ends of lines. A line may not part
documents. -/
def readBreaks : Nat → Cursor → List Char → Except Fault (List Char × Cursor)
  | 0, _, _ => .error .malformed
  | n + 1, c, breaks =>
    if c.atAnySeparator then .error .malformed
    else
      let c := c.skipWhile isBlankChar
      match c.lineBreak? with
      | some (b, c) => readBreaks n c (b :: breaks)
      | none => .ok (breaks.reverse, c)

/-- Reads an escape after its backslash. -/
def readEscape (fuel : Nat) (c : Cursor) : Except Fault (List Char × Cursor) :=
  match c.peek with
  | none => .error .malformed
  | some ch =>
    match escape? ch, escapeWidth? ch with
    | some e, _ => .ok ([e], c.advance)
    | none, some width =>
      let c := c.advance
      let digits := c.rest.take width
      match number? 16 digits with
      | some n =>
        if digits.length ≠ width then .error .malformed
        else if n < 0x110000 then .ok ([ofCodePoint n], c.skip width)
        else if n < 0x80000000 then .error .noSuchCharacter
        else .error .hugeCharacter
      | none => .error .malformed
    | none, none =>
      if isBreak ch then readBreaks fuel c.skipBreak [] else .error .malformed

/-- Reads blanks, and the ends of lines if they reach one. -/
def readGap (fuel : Nat) (c : Cursor) : Except Fault (List Char × Cursor) :=
  let (blanks, c) := c.readWhile isBlankChar
  match c.lineBreak? with
  | none => .ok (blanks, c)
  | some (first, c) =>
    match readBreaks fuel c [] with
    | .ok (more, c) => .ok (foldBreaks first more, c)
    | .error f => .error f

/-- Reads a scalar up to its closing quote, adding to the characters read before, latest first. -/
def readQuotedFrom (double : Bool) : Nat → Cursor → List Char → Except Fault (List Char × Cursor)
  | 0, _, _ => .error .malformed
  | n + 1, c, read =>
    match c.peek with
    | none => .error .malformed
    | some ch =>
      if ch = (if double then '"' else '\'') then
        if !double && c.peekAt 1 == some '\'' then readQuotedFrom double n (c.skip 2) ('\'' :: read)
        else .ok (read.reverse, c.advance)
      else if double && ch = '\\' then
        match readEscape n c.advance with
        | .ok (chars, c) => readQuotedFrom double n c (chars.reverse ++ read)
        | .error f => .error f
      else if isBlankChar ch || isBreak ch then
        match readGap n c with
        | .ok (chars, c) => readQuotedFrom double n c (chars.reverse ++ read)
        | .error f => .error f
      else readQuotedFrom double n c.advance (ch :: read)

/-- Reads a quoted scalar. -/
def readQuoted (fuel : Nat) (double : Bool) (c : Cursor) : Except Fault (Token × Cursor) :=
  match readQuotedFrom double fuel c.advance [] with
  | .ok (text, c) => .ok (.scalar false (String.ofList text), c)
  | .error f => .error f

end Layering.Yaml.Token
