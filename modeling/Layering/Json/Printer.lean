import Layering.Decimal.Shortest
import Layering.Text.Basic
import Layering.Text.Quoted
import Layering.Text.Surrogate
import Layering.Value.Basic

/-!
# Writing values as JSON

Values are written with a space after each colon, and either on one line, with a space after each
comma, or with one member a line. Characters outside ASCII may be escaped by their UTF-16 units, of which
a lone surrogate is one, and the members of an object may be sorted by their keys.
-/

namespace Layering.Json

open Text

/-! ## What can be written -/

/-- Whether a scalar is one of JSON. -/
def isScalar : Scalar → Bool
  | .null | .bool _ | .int _ | .real _ | .text _ => true
  | _ => false

/-- Whether keys can be sorted: a single one, or only texts or only numbers. -/
def isSortable (keys : List Scalar) : Bool :=
  keys.length ≤ 1 || keys.all Scalar.isText || keys.all Scalar.isNumeric

mutual

/-- Whether a value can be written as JSON with sorted keys. -/
def isWritable : Value → Bool
  | .scalar s => isScalar s
  | .list items => areWritable items
  | .map entries => isSortable (entries.map (·.1)) && entriesAreWritable entries
  | .set _ => false

/-- Whether all items of a list can be written. -/
def areWritable : List Value → Bool
  | [] => true
  | v :: vs => isWritable v && areWritable vs

/-- Whether all keys and values of a map can be written. -/
def entriesAreWritable : List (Scalar × Value) → Bool
  | [] => true
  | (k, v) :: es => isScalar k && isWritable v && entriesAreWritable es

end

/-! ## Writing -/

/-- How values are written. -/
structure Layout where
  /-- Escape every character outside ASCII. -/
  ascii : Bool
  /-- Sort the members of objects by their keys. -/
  sorted : Bool
  /-- Write one member a line, indented by this many spaces for each level. -/
  indent : Option Nat

/-- One 16-bit unit, escaped. -/
def escapeUnit (n : Nat) : List Char := '\\' :: 'u' :: hexDigits 4 n

/-- A character inside a JSON string. -/
def escapeChar (layout : Layout) (c : Char) : List Char :=
  if c = '"' then ['\\', '"']
  else if c = '\\' then ['\\', '\\']
  else if c = '\n' then ['\\', 'n']
  else if c = '\r' then ['\\', 'r']
  else if c = '\t' then ['\\', 't']
  else if c = '\x08' then ['\\', 'b']
  else if c = '\x0c' then ['\\', 'f']
  else if c.toNat < 0x20 then escapeUnit c.toNat
  else if !layout.ascii || c.toNat < 0x7f then [c]
  else if codePoint c < 0x10000 then escapeUnit (codePoint c)
  else
    let n := c.toNat - 0x10000
    escapeUnit (0xd800 + n / 0x400) ++ escapeUnit (0xdc00 + n % 0x400)

/-- A text as a JSON string. -/
def printString (layout : Layout) (s : List Char) : List Char :=
  '"' :: s.flatMap (escapeChar layout) ++ ['"']

/-- A floating-point number; those that are not finite have names. -/
def printReal : Decimal.Binary64 → List Char
  | .infinite negative => (if negative then "-Infinity" else "Infinity").toList
  | .nan _ => "NaN".toList
  | x => x.text

/-- A scalar. Dates are written as strings. -/
def printScalar (layout : Layout) : Scalar → List Char
  | .null => "null".toList
  | .bool true => "true".toList
  | .bool false => "false".toList
  | .int n => (toString n).toList
  | .real x => printReal x
  | .text s => printString layout s.toList
  | .date d => printString layout d.text
  | .time t => printString layout (t.text 'T')
  | .bytes bs => printString layout (quotedBytes bs)

/-- The string that stands for a key. -/
def keyText (layout : Layout) : Scalar → List Char
  | .text s => s.toList
  | .date d => d.text
  | .time t => t.text 'T'
  | .bytes bs => quotedBytes bs
  | s => printScalar layout s

/-- Brackets around members that are written already. -/
def enclose (layout : Layout) (depth : Nat) (left right : Char) (members : List (List Char)) :
    List Char :=
  match members, layout.indent with
  | [], _ => [left, right]
  | _, none => left :: joinWith [',', ' '] members ++ [right]
  | _, some n =>
    let line (d : Nat) := '\n' :: List.replicate (n * d) ' '
    left :: line (depth + 1) ++ joinWith (',' :: line (depth + 1)) members ++ line depth ++ [right]

/-- Members with their keys, in the order in which they are written. -/
def arrange (layout : Layout) (members : List (Scalar × List Char)) : List (Scalar × List Char) :=
  if layout.sorted then members.mergeSort fun a b => a.1.le b.1 else members

mutual

/-- A value at a depth of nesting. -/
def printAt (layout : Layout) (depth : Nat) : Value → List Char
  | .scalar s => printScalar layout s
  | .list items => enclose layout depth '[' ']' (printItems layout (depth + 1) items)
  | .map entries =>
    enclose layout depth '\x7b' '\x7d'
      ((arrange layout (printEntries layout (depth + 1) entries)).map fun (k, v) =>
        printString layout (keyText layout k) ++ [':', ' '] ++ v)
  | .set members => enclose layout depth '[' ']' (members.map (printScalar layout))

/-- The items of a list. -/
def printItems (layout : Layout) (depth : Nat) : List Value → List (List Char)
  | [] => []
  | v :: vs => printAt layout depth v :: printItems layout depth vs

/-- The entries of a map, as keys and written values. -/
def printEntries (layout : Layout) (depth : Nat) : List (Scalar × Value) → List (Scalar × List Char)
  | [] => []
  | (k, v) :: es => (k, printAt layout depth v) :: printEntries layout depth es

end

/-- A value as JSON. -/
def print (layout : Layout) (v : Value) : List Char := printAt layout 0 v

/-- One line of ASCII. -/
def line : Layout := ⟨true, false, none⟩

/-- One line of ASCII with sorted keys. -/
def sortedLine : Layout := ⟨true, true, none⟩

/-- One member a line, in ASCII. -/
def pretty : Layout := ⟨true, false, some 2⟩

/-- One member a line, with characters outside ASCII as they are. -/
def prettyUnicode : Layout := ⟨false, false, some 2⟩

end Layering.Json
