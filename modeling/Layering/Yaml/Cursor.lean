/-!
# A place in a text

The rest of a text together with the position of its first character. A line ends at a line feed, a
carriage return, the two together, a next-line character or one of the two Unicode separators. A byte
order mark takes no column.
-/

namespace Layering.Yaml

/-- Whether a character ends a line. -/
def isBreak (c : Char) : Bool :=
  c = '\n' || c = '\r' || c = '\u0085' || c = '\u2028' || c = '\u2029'

/-- Whether a character is a space or a tab. -/
def isBlankChar (c : Char) : Bool := c = ' ' || c = '\t'

/-- Whether a line ends before this character, or the text. -/
def endsLine : Option Char → Bool
  | none => true
  | some c => isBreak c

/-- Whether a field ends before this character: at a space or the end of the line. -/
def endsField (c : Option Char) : Bool := c = some ' ' || endsLine c

/-- Whether a word ends before this character: at a blank or the end of the line. -/
def endsWord (c : Option Char) : Bool := c = some '\t' || endsField c

/-- The mark that may stand at the start of a text. -/
def byteOrderMark : Char := '\ufeff'

/-- The rest of a text and where it begins. -/
structure Cursor where
  rest : List Char
  index : Nat := 0
  line : Nat := 0
  column : Nat := 0

namespace Cursor

/-- The next character. -/
def peek (c : Cursor) : Option Char := c.rest.head?

/-- The character `n` places further on. -/
def peekAt (c : Cursor) (n : Nat) : Option Char := c.rest[n]?

/-- The place after the next character. -/
def advance (c : Cursor) : Cursor :=
  match c.rest with
  | [] => c
  | ch :: rest =>
    if isBreak ch && !(ch = '\r' && rest.head? == some '\n') then
      ⟨rest, c.index + 1, c.line + 1, 0⟩
    else ⟨rest, c.index + 1, c.line, if ch = byteOrderMark then c.column else c.column + 1⟩

/-- The place after the next `n` characters. -/
def skip : Nat → Cursor → Cursor
  | 0, c => c
  | n + 1, c => skip n c.advance

/-- Adds the characters that satisfy `p` in front of `read`, from a place whose rest is given. -/
def readWhileFrom (p : Char → Bool) : List Char → Cursor → List Char → List Char × Cursor
  | [], c, read => (read, c)
  | ch :: rest, c, read =>
    if p ch then readWhileFrom p rest c.advance (ch :: read) else (read, c)

/-- The characters that satisfy `p`, and the place after them. -/
def readWhile (p : Char → Bool) (c : Cursor) : List Char × Cursor :=
  let (read, c) := readWhileFrom p c.rest c []
  (read.reverse, c)

/-- The place after the characters that satisfy `p`. -/
def skipWhile (p : Char → Bool) (c : Cursor) : Cursor := (readWhileFrom p c.rest c []).2

/-- The place after the spaces that come next. -/
def skipSpaces (c : Cursor) : Cursor := c.skipWhile (· = ' ')

/-- The place at the end of a comment, if one comes next. -/
def skipComment (c : Cursor) : Cursor :=
  if c.peek == some '#' then c.skipWhile fun ch => !isBreak ch else c

/-- The end of the line, if it comes next: what it counts as, and the place after it. The Unicode
separators count as themselves, all others as a line feed. -/
def lineBreak? (c : Cursor) : Option (Char × Cursor) :=
  match c.rest with
  | '\r' :: '\n' :: _ => some ('\n', c.advance.advance)
  | ch :: _ =>
    if ch = '\u2028' || ch = '\u2029' then some (ch, c.advance)
    else if isBreak ch then some ('\n', c.advance)
    else none
  | [] => none

/-- The place after the end of the line, if that comes next. -/
def skipBreak (c : Cursor) : Cursor := (c.lineBreak?.map (·.2)).getD c

/-- Whether three signs that part documents come next. -/
def atSeparator (sign : Char) (c : Cursor) : Bool :=
  match c.rest with
  | x :: y :: z :: r => x = sign && y = sign && z = sign && endsWord r.head?
  | _ => false

/-- Whether a document begins or ends here. -/
def atAnySeparator (c : Cursor) : Bool := c.atSeparator '-' || c.atSeparator '.'

end Cursor

/-- What stands for the ends of lines inside a scalar: a single end of line becomes a space, and of
several the first is dropped. -/
def foldBreaks (first : Char) (more : List Char) : List Char :=
  if first ≠ '\n' then first :: more else if more.isEmpty then [' '] else more

end Layering.Yaml
