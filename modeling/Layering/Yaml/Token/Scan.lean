import Layering.Yaml.Token.Block
import Layering.Yaml.Token.Plain
import Layering.Yaml.Token.Property
import Layering.Yaml.Token.Quoted

/-!
# From text to tokens

The text is read token by token. A token that may turn out to be a key is remembered until a colon
comes on the same line and not too far away; the key is then marked in front of it, and a block is
opened if the key stands deeper than the block before. Until that is settled, such a token is not yet
available: a fault behind it hides it.
-/

namespace Layering.Yaml

/-- The distance up to which a colon makes a key of a token. -/
def maxKeyDistance : Nat := 1024

/-- A token that may turn out to be a key. -/
structure PendingKey where
  /-- The number of tokens before it. -/
  number : Nat
  /-- Whether it has to be a key, because of where it stands. -/
  required : Bool
  index : Nat
  line : Nat
  column : Nat

/-- A reading in progress. -/
structure Scan where
  cursor : Cursor
  /-- The tokens read, latest first. -/
  tokens : List Token := []
  /-- The number of tokens read. -/
  count : Nat := 0
  /-- The column of the current block, -1 outside of all blocks. -/
  indent : Int := -1
  /-- The columns of the blocks around it. -/
  outer : List Int := []
  /-- Whether a key may begin here. -/
  keyAllowed : Bool := true
  /-- What may turn out to be a key in the current collection. -/
  pending : Option PendingKey := none
  /-- The same for the collections around it, when this is one between brackets. -/
  enclosing : List (Option PendingKey) := []

namespace Scan

/-- Whether the reading is between brackets. -/
def inFlow (s : Scan) : Bool := !s.enclosing.isEmpty

/-- All tokens that may turn out to be keys. -/
def allPending (s : Scan) : List PendingKey := (s.pending :: s.enclosing).filterMap id

/-- Adds a token. -/
def push (s : Scan) (t : Token) : Scan := { s with tokens := t :: s.tokens, count := s.count + 1 }

/-- Adds a token in front of the token with a number. -/
def insert (s : Scan) (number : Nat) (t : Token) : Scan :=
  let later := s.count - number
  { s with tokens := s.tokens.take later ++ t :: s.tokens.drop later, count := s.count + 1 }

/-- Adds a token of one character. -/
def sign (s : Scan) (t : Token) : Scan := { s.push t with cursor := s.cursor.advance }

/-! ## Keys -/

/-- Whether a colon would come too late to make a key. -/
def isStale (s : Scan) (k : PendingKey) : Bool :=
  k.line ≠ s.cursor.line || maxKeyDistance < s.cursor.index - k.index

/-- Forgets what can no longer turn out to be a key. -/
def dropStale (s : Scan) : Except Fault Scan :=
  if s.allPending.any fun k => s.isStale k && k.required then .error .malformed
  else
    let keep (k : Option PendingKey) : Option PendingKey := k.filter fun k => !s.isStale k
    .ok { s with pending := keep s.pending, enclosing := s.enclosing.map keep }

/-- Settles that the token remembered in the current collection is no key. -/
def dropPending (s : Scan) : Except Fault Scan :=
  if s.pending.any (·.required) then .error .malformed else .ok { s with pending := none }

/-- Remembers the next token if it may turn out to be a key. -/
def notePending (s : Scan) : Except Fault Scan :=
  if s.keyAllowed then do
    let s ← s.dropPending
    let c := s.cursor
    return { s with
      pending := some ⟨s.count, !s.inFlow && s.indent = c.column, c.index, c.line, c.column⟩ }
  else .ok s

/-! ## Blocks -/

/-- Closes the blocks that are deeper than a column. -/
def closeBlocks (column : Int) : List Int → Scan → Scan
  | [], s => s
  | o :: os, s =>
    if column < s.indent then closeBlocks column os { s.push .blockEnd with indent := o, outer := os }
    else s

/-- Closes the blocks that are deeper than a column; between brackets columns do not count. -/
def unwind (s : Scan) (column : Int) : Scan :=
  if s.inFlow then s else closeBlocks column s.outer s

/-- Opens a block at a column if it is deeper than the current one, with its first token in front of
the token with a number. -/
def openBlock (s : Scan) (column number : Nat) (t : Token) : Scan :=
  if !s.inFlow && s.indent < column then
    { s.insert number t with indent := column, outer := s.indent :: s.outer }
  else s

/-! ## Tokens -/

/-- Passes over spaces, comments and ends of lines. Outside of brackets a key may begin on a new
line. -/
def skipToToken : Nat → Scan → Scan
  | 0, s => s
  | n + 1, s =>
    let c := s.cursor.skipSpaces.skipComment
    match c.lineBreak? with
    | some (_, c) =>
      skipToToken n { s with cursor := c, keyAllowed := s.keyAllowed || !s.inFlow }
    | none => { s with cursor := c }

/-- Ends all blocks in front of a token that stands outside of documents. -/
def leaveDocument (s : Scan) : Except Fault Scan := do
  let s ← (s.unwind (-1)).dropPending
  return { s with keyAllowed := false }

/-- Reads the token that opens a collection between brackets. -/
def openFlow (s : Scan) (t : Token) : Except Fault Scan := do
  let s ← s.notePending
  return { s.sign t with
    pending := none, enclosing := s.pending :: s.enclosing, keyAllowed := true }

/-- Reads the token that closes a collection between brackets. -/
def closeFlow (s : Scan) (t : Token) : Except Fault Scan := do
  let s ← s.dropPending
  match s.enclosing with
  | [] => return s.sign t
  | p :: ps => return { s.sign t with pending := p, enclosing := ps, keyAllowed := false }

/-- Reads the sign of an entry of a block sequence. -/
def blockEntry (s : Scan) : Except Fault Scan := do
  if !s.inFlow && !s.keyAllowed then .error .malformed
  else
    let s ← (s.openBlock s.cursor.column s.count .blockSequenceStart).dropPending
    return { s.sign .blockEntry with keyAllowed := true }

/-- Reads the sign of a key. -/
def keySign (s : Scan) : Except Fault Scan := do
  if !s.inFlow && !s.keyAllowed then .error .malformed
  else
    let s ← (s.openBlock s.cursor.column s.count .blockMappingStart).dropPending
    return { s.sign .key with keyAllowed := !s.inFlow }

/-- Reads the sign of a value. It makes a key of the token that was remembered, if there is one. -/
def valueSign (s : Scan) : Except Fault Scan :=
  match s.pending with
  | some k =>
    let s := ({ s with pending := none }.insert k.number .key)
    let s := s.openBlock k.column k.number .blockMappingStart
    .ok { s.sign .value with keyAllowed := false }
  | none =>
    if !s.inFlow && !s.keyAllowed then .error .malformed
    else
      let s := s.openBlock s.cursor.column s.count .blockMappingStart
      .ok { s.sign .value with keyAllowed := !s.inFlow }

/-- Adds a token that was read, which no key may follow at once. -/
def word (s : Scan) (read : Except Fault (Token × Cursor)) : Except Fault Scan := do
  let (t, c) ← read
  return { s.push t with cursor := c, keyAllowed := false }

/-- Whether a plain scalar may begin with a character, given the one after it. -/
def startsPlain (flow : Bool) (c : Char) (next : Option Char) : Bool :=
  !(endsWord (some c) || "-?:,[]\x7b\x7d#&*!|>'\"%@\x60".toList.contains c) ||
  (!endsWord next && (c = '-' || (!flow && (c = '?' || c = ':'))))

/-- Reads the next token, which begins with `ch`. -/
def tokenAt (fuel : Nat) (s : Scan) (ch : Char) : Except Fault Scan := do
  let c := s.cursor
  let wordEnds := endsWord (c.peekAt 1)
  if ch = '%' && c.column = 0 then
    (← s.leaveDocument).word (Token.readDirective fuel c)
  else if c.column = 0 && c.atSeparator '-' then
    (← s.leaveDocument).word (.ok (.documentStart, c.skip 3))
  else if c.column = 0 && c.atSeparator '.' then
    (← s.leaveDocument).word (.ok (.documentEnd, c.skip 3))
  else if ch = '[' then s.openFlow .flowSequenceStart
  else if ch = '{' then s.openFlow .flowMappingStart
  else if ch = ']' then s.closeFlow .flowSequenceEnd
  else if ch = '}' then s.closeFlow .flowMappingEnd
  else if ch = ',' then
    return { (← s.dropPending).sign .flowEntry with keyAllowed := true }
  else if ch = '-' && wordEnds then s.blockEntry
  else if ch = '?' && (s.inFlow || wordEnds) then s.keySign
  else if ch = ':' && (s.inFlow || wordEnds) then s.valueSign
  else if ch = '*' then
    (← s.notePending).word ((Token.readName c.advance).map fun (name, c) => (.alias name, c))
  else if ch = '&' then
    (← s.notePending).word ((Token.readName c.advance).map fun (name, c) => (.anchor name, c))
  else if ch = '!' then (← s.notePending).word (Token.readTag fuel c)
  else if (ch = '|' || ch = '>') && !s.inFlow then
    return { ← (← s.dropPending).word (Token.readBlock fuel (ch = '>') s.indent c) with
      keyAllowed := true }
  else if ch = '\'' || ch = '"' then (← s.notePending).word (Token.readQuoted fuel (ch = '"') c)
  else if startsPlain s.inFlow ch (c.peekAt 1) then
    let s ← s.notePending
    let (t, fresh, c) := Token.readPlain fuel s.inFlow s.indent c
    return { s.push t with cursor := c, keyAllowed := fresh }
  else .error .malformed

/-- Whether a reading has come to the end of its text. -/
def isDone (s : Scan) : Bool := s.tokens.head? == some .streamEnd

/-- Reads the next token, and the blocks that end before it. -/
def next (fuel : Nat) (s : Scan) : Except Fault Scan := do
  let s ← (s.skipToToken fuel).dropStale
  let s := s.unwind s.cursor.column
  match s.cursor.peek with
  | none =>
    let s ← s.leaveDocument
    return s.push .streamEnd
  | some ch => (← tokenAt fuel s ch).dropStale

/-- The tokens that are available: those before all that may turn out to be keys. -/
def available (s : Scan) : List Token :=
  let first := (s.allPending.map (·.number)).foldl min s.count
  (s.tokens.drop (s.count - first)).reverse

/-- Reads tokens up to the end of the text or to a fault. -/
def run : Nat → Scan → List Token
  | 0, s => s.available ++ [.fault .malformed]
  | n + 1, s =>
    match next n s with
    | .error f => s.available ++ [.fault f]
    | .ok s => if s.isDone then s.tokens.reverse else run n s

end Scan

/-- Whether a character may stand in a document. -/
def isAllowed (c : Char) : Bool :=
  let n := c.toNat
  n = 0x09 || n = 0x0a || n = 0x0d || (0x20 ≤ n && n ≤ 0x7e) || n = 0x85 ||
    (0xa0 ≤ n && n ≤ 0xfffd) || 0x10000 ≤ n

/-- The tokens of a text. A byte order mark at its start is passed over. -/
def tokens (text : List Char) : List Token :=
  if text.all isAllowed then
    let start : Cursor := ⟨text, 0, 0, 0⟩
    let start := if start.peek == some byteOrderMark then start.advance else start
    Scan.run (text.length + 2) { cursor := start }
  else [.fault .malformed]

end Layering.Yaml
