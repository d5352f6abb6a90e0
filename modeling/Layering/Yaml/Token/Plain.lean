import Layering.Yaml.Cursor
import Layering.Yaml.Token

/-!
# Plain scalars

A plain scalar ends at a comment, at a colon that ends a word, and, between brackets, at a character
that means something there. It goes on over lines that are indented deeper than the block it stands in.
-/

namespace Layering.Yaml.Token

/-- Whether a character is one of those that part the entries of a flow collection. -/
def isFlowSign (c : Char) : Bool := c = ',' || c = '[' || c = ']' || c = '{' || c = '}'

/-- Whether a plain scalar ends before a character, given the one after it. -/
def endsPlain (flow : Bool) (c : Char) (next : Option Char) : Bool :=
  endsWord (some c) ||
  (c = ':' && (endsWord next || (flow && next.any isFlowSign))) ||
  (flow && (c = '?' || isFlowSign c))

/-- Adds a run of characters without blanks in front of `read`. -/
def readRun (flow : Bool) : List Char → Cursor → List Char → List Char × Cursor
  | [], c, read => (read, c)
  | ch :: rest, c, read =>
    if endsPlain flow ch rest.head? then (read, c) else readRun flow rest c.advance (ch :: read)

/-- What follows a run of characters. -/
inductive PlainGap where
  /-- Nothing, or the border of a document: the scalar ends. -/
  | stop
  /-- Blanks, which count if the scalar goes on. -/
  | space (chars : List Char)
deriving DecidableEq, Repr

/-- Passes over spaces and empty lines, and collects the ends of lines; `none` when documents are
parted. -/
def readPlainBreaks : Nat → Cursor → List Char → Option (List Char) × Cursor
  | 0, c, _ => (none, c)
  | n + 1, c, breaks =>
    let c := c.skipSpaces
    match c.lineBreak? with
    | none => (some breaks.reverse, c)
    | some (b, c) => if c.atAnySeparator then (none, c) else readPlainBreaks n c (b :: breaks)

/-- Reads what follows a run of characters, and tells whether it reached another line. -/
def readPlainGap (fuel : Nat) (c : Cursor) : PlainGap × Bool × Cursor :=
  let (spaces, c) := c.readWhile (· = ' ')
  match c.lineBreak? with
  | none => (if spaces.isEmpty then .stop else .space spaces, false, c)
  | some (first, c) =>
    if c.atAnySeparator then (.stop, true, c)
    else match readPlainBreaks fuel c [] with
      | (none, c) => (.stop, true, c)
      | (some more, c) => (.space (foldBreaks first more), true, c)

/-- Reads a plain scalar that stands deeper than `indent`; `read` holds the characters before, latest
first, with `gap` between. The second result tells whether the scalar was left at the start of a
line. -/
def readPlainFrom (flow : Bool) (indent : Int) :
    Nat → Cursor → List Char → List Char → Bool → List Char × Bool × Cursor
  | 0, c, read, _, fresh => (read.reverse, fresh, c)
  | n + 1, c, read, gap, fresh =>
    if c.peek == some '#' then (read.reverse, fresh, c)
    else if c.rest.head?.all (fun ch => endsPlain flow ch c.rest.tail.head?) then
      (read.reverse, fresh, c)
    else
      let (read, c) := readRun flow c.rest c (gap.reverse ++ read)
      match readPlainGap n c with
      | (.stop, fresh, c) => (read.reverse, fresh, c)
      | (.space chars, fresh, c) =>
        if c.peek == some '#' || (!flow && (c.column : Int) ≤ indent) then (read.reverse, fresh, c)
        else readPlainFrom flow indent n c read chars fresh

/-- Reads a plain scalar. -/
def readPlain (fuel : Nat) (flow : Bool) (indent : Int) (c : Cursor) : Token × Bool × Cursor :=
  let (text, fresh, c) := readPlainFrom flow indent fuel c [] [] false
  (.scalar true (String.ofList text), fresh, c)

end Layering.Yaml.Token
