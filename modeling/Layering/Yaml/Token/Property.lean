import Layering.Text.Basic
import Layering.Yaml.Cursor
import Layering.Yaml.Token

/-!
# Anchors, aliases, tags and directives

What is written around the nodes of a document.
-/

namespace Layering.Yaml.Token

open Text

/-- Whether a character may stand in a name: an ASCII letter or digit, a dash or an underscore. -/
def isNameChar (c : Char) : Bool := c.isAlphanum || c = '-' || c = '_'

/-- Reads the name of an anchor or an alias, after its sign. -/
def readName (c : Cursor) : Except Fault (String × Cursor) :=
  let (name, c) := c.readWhile isNameChar
  if name.isEmpty then .error .malformed
  else if endsWord c.peek || c.peek.any (fun ch => "?:,]\x7d%@\x60".toList.contains ch) then
    .ok (String.ofList name, c)
  else .error .malformed

/-! ## Tags -/

/-- Whether a character may stand in the address of a tag. -/
def isAddressChar (c : Char) : Bool := c.isAlphanum || "-;/?:@&=+$,_.!~*'()[]".toList.contains c

/-- Reads bytes written as a percent sign and two hexadecimal digits. -/
def readBytes : Nat → Cursor → ByteArray → Except Fault (ByteArray × Cursor)
  | 0, _, _ => .error .malformed
  | n + 1, c, bytes =>
    if c.peek == some '%' then
      let c := c.advance
      match number? 16 (c.rest.take 2) with
      | some b =>
        if (c.rest.take 2).length = 2 then readBytes n (c.skip 2) (bytes.push (UInt8.ofNat b))
        else .error .malformed
      | none => .error .malformed
    else .ok (bytes, c)

/-- Reads the address of a tag, adding to the characters that were read before it, latest first. -/
def readAddressFrom : Nat → Cursor → List Char → Except Fault (List Char × Cursor)
  | 0, _, _ => .error .malformed
  | n + 1, c, read =>
    let (chars, c) := c.readWhile isAddressChar
    let read := chars.reverse ++ read
    if c.peek == some '%' then
      match readBytes n c .empty with
      | .error f => .error f
      | .ok (bytes, c) =>
        match String.fromUTF8? bytes with
        | some s => readAddressFrom n c (s.toList.reverse ++ read)
        | none => .error .malformed
    else .ok (read.reverse, c)

/-- Reads the address of a tag, which is not empty. -/
def readAddress (fuel : Nat) (c : Cursor) : Except Fault (String × Cursor) :=
  match readAddressFrom fuel c [] with
  | .error f => .error f
  | .ok ([], _) => .error .malformed
  | .ok (address, c) => .ok (String.ofList address, c)

/-- Reads the handle of a tag: an exclamation mark, or a name between two. -/
def readHandle (c : Cursor) : Except Fault (String × Cursor) :=
  if c.peek == some '!' then
    let after := c.advance
    if after.peek == some ' ' then .ok ("!", after)
    else
      let (name, after) := after.readWhile isNameChar
      if after.peek == some '!' then .ok (String.ofList ('!' :: name ++ ['!']), after.advance)
      else .error .malformed
  else .error .malformed

/-- Reads a tag. -/
def readTag (fuel : Nat) (c : Cursor) : Except Fault (Token × Cursor) := do
  let (token, c) ←
    if c.peekAt 1 == some '<' then do
      let (address, c) ← readAddress fuel (c.skip 2)
      if c.peek == some '>' then .ok (Token.tag none address, c.advance) else .error .malformed
    else if endsWord (c.peekAt 1) then .ok (Token.tag none "!", c.advance)
    else do
      let word := c.rest.tail.takeWhile fun ch => !endsField (some ch)
      let (handle, c) ← if word.contains '!' then readHandle c else .ok ("!", c.advance)
      let (address, c) ← readAddress fuel c
      .ok (Token.tag (some handle) address, c)
  if endsField c.peek then .ok (token, c) else .error .malformed

/-! ## Directives -/

/-- Passes over spaces, a comment and the end of the line, after which nothing else may stand. -/
def endLine (c : Cursor) : Except Fault Cursor :=
  let c := c.skipSpaces.skipComment
  if endsLine c.peek then .ok c.skipBreak else .error .malformed

/-- Reads a number. -/
def readNumber (c : Cursor) : Except Fault (Nat × Cursor) :=
  let (digits, c) := c.readWhile Char.isDigit
  match number? 10 digits with
  | some n => .ok (n, c)
  | none => .error .malformed

/-- Reads a directive. -/
def readDirective (fuel : Nat) (c : Cursor) : Except Fault (Token × Cursor) := do
  let (name, c) := c.advance.readWhile isNameChar
  if name.isEmpty || !endsField c.peek then .error .malformed
  else
    let (d, c) ←
      if name = "YAML".toList then do
        let (major, c) ← readNumber c.skipSpaces
        if c.peek == some '.' then do
          let (_, c) ← readNumber c.advance
          if endsField c.peek then .ok (Directive.version major, c) else .error .malformed
        else .error .malformed
      else if name = "TAG".toList then do
        let (handle, c) ← readHandle c.skipSpaces
        if c.peek == some ' ' then do
          let (address, c) ← readAddress fuel c.skipSpaces
          if endsField c.peek then .ok (Directive.tagHandle handle address, c)
          else .error .malformed
        else .error .malformed
      else .ok (Directive.other, c.skipWhile fun ch => !isBreak ch)
    .ok (.directive d, ← endLine c)

end Layering.Yaml.Token
