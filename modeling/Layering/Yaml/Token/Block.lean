import Layering.Yaml.Cursor
import Layering.Yaml.Token
import Layering.Yaml.Token.Property

/-!
# Block scalars

A literal block keeps its lines, a folded block joins those that begin with no blank. The header may
say how deep the block is indented and what becomes of the ends of lines at its end.
-/

namespace Layering.Yaml.Token

/-- What becomes of the ends of lines at the end of a block. -/
inductive Chomp where
  | strip
  | clip
  | keep
deriving DecidableEq, Repr

/-- The header of a block scalar. -/
structure BlockHeader where
  chomp : Chomp := .clip
  increment : Option Nat := none
deriving DecidableEq, Repr

/-- Reads the sign that says what becomes of the ends of lines, if it comes next. -/
def readChomp? (c : Cursor) : Option (Chomp × Cursor) :=
  if c.peek == some '+' then some (.keep, c.advance)
  else if c.peek == some '-' then some (.strip, c.advance)
  else none

/-- Reads the digit that says how deep a block is indented, if it comes next. -/
def readIncrement (c : Cursor) : Except Fault (Option Nat × Cursor) :=
  match c.peek with
  | some ch =>
    if ch = '0' then .error .malformed
    else if ch.isDigit then .ok (some (ch.toNat - '0'.toNat), c.advance)
    else .ok (none, c)
  | none => .ok (none, c)

/-- Reads the header of a block scalar, with its line. -/
def readHeader (c : Cursor) : Except Fault (BlockHeader × Cursor) := do
  let (header, c) ← match readChomp? c with
    | some (chomp, c) => do
      let (increment, c) ← readIncrement c
      .ok (⟨chomp, increment⟩, c)
    | none => do
      let (increment, c) ← readIncrement c
      match increment, readChomp? c with
      | some _, some (chomp, c) => .ok ((⟨chomp, increment⟩ : BlockHeader), c)
      | _, _ => .ok (⟨.clip, increment⟩, c)
  if endsField c.peek then .ok (header, ← endLine c) else .error .malformed

/-- Passes over the spaces in front of a line, up to a column. -/
def skipIndent : Nat → Cursor → Cursor
  | 0, c => c
  | n + 1, c => if c.peek == some ' ' then skipIndent n c.advance else c

/-- Passes over empty lines of a block that is indented by `indent`, and collects their ends. -/
def readBlockBreaks (indent : Nat) : Nat → Cursor → List Char → List Char × Cursor
  | 0, c, breaks => (breaks.reverse, c)
  | n + 1, c, breaks =>
    let c := skipIndent (indent - c.column) c
    match c.lineBreak? with
    | some (b, c) => readBlockBreaks indent n c (b :: breaks)
    | none => (breaks.reverse, c)

/-- Passes over empty lines at the start of a block, collects their ends, and finds the deepest column
that their spaces and those of the line after them reach. -/
def readBlockIndent : Nat → Cursor → List Char → Nat → List Char × Nat × Cursor
  | 0, c, breaks, deepest => (breaks.reverse, deepest, c)
  | n + 1, c, breaks, deepest =>
    let c := c.skipSpaces
    let deepest := max deepest c.column
    match c.lineBreak? with
    | some (b, c) => readBlockIndent n c (b :: breaks) deepest
    | none => (breaks.reverse, deepest, c)

/-- Whether the text of a line begins here. -/
def atBlockLine (indent : Nat) (c : Cursor) : Bool := c.column = indent && c.peek.isSome

/-- Reads the lines of a block, adding to what was read before, latest first; `breaks` are the ends of
the empty lines before. Gives also the end of the last line and those of the empty lines after it. -/
def readBlockLines (folded : Bool) (indent : Nat) :
    Nat → Cursor → List Char → List Char → List Char × List Char × List Char × Cursor
  | 0, c, read, breaks => (read, [], breaks, c)
  | n + 1, c, read, breaks =>
    if !atBlockLine indent c then (read, [], breaks, c)
    else
      let joins := !c.peek.any isBlankChar
      let (line, c) := c.readWhile fun ch => !isBreak ch
      let read := line.reverse ++ (breaks.reverse ++ read)
      let (lineEnd, c) := match c.lineBreak? with
        | some (b, c) => ([b], c)
        | none => ([], c)
      let (breaks, c) := readBlockBreaks indent n c []
      if !atBlockLine indent c then (read, lineEnd, breaks, c)
      else if folded && lineEnd = ['\n'] && joins && !c.peek.any isBlankChar then
        readBlockLines folded indent n c (if breaks.isEmpty then ' ' :: read else read) breaks
      else readBlockLines folded indent n c (lineEnd ++ read) breaks

/-- Reads a block scalar in a block that is indented by `indent`. -/
def readBlock (fuel : Nat) (folded : Bool) (indent : Int) (c : Cursor) :
    Except Fault (Token × Cursor) :=
  match readHeader c.advance with
  | .error f => .error f
  | .ok (header, c) =>
    let least := (max (indent + 1) 1).toNat
    let (breaks, indent, c) := match header.increment with
      | some k =>
        let indent := least + k - 1
        let (breaks, c) := readBlockBreaks indent fuel c []
        (breaks, indent, c)
      | none =>
        let (breaks, deepest, c) := readBlockIndent fuel c [] 0
        (breaks, max least deepest, c)
    let (read, lineEnd, breaks, c) := readBlockLines folded indent fuel c [] breaks
    let tail := match header.chomp with
      | .strip => []
      | .clip => lineEnd
      | .keep => lineEnd ++ breaks
    .ok (.scalar false (String.ofList (read.reverse ++ tail)), c)

end Layering.Yaml.Token
