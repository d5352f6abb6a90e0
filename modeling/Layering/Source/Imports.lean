import Layering.Graph.Component
import Layering.Source.Language
import Layering.Text.Blank
import Layering.Text.Word

/-!
# Import statements

The import statements of a source text, found by their form alone. A statement is found where its form
begins, and the search goes on behind it; the path it names is the part between its quotes, or the dotted
name after its keyword. Each import is given with its place in the text and the line of that place.
-/

namespace Layering.Source

open Text

/-! ## Reading along a text -/

/-- What remains of a text, and how many characters have been passed. -/
structure Cut where
  passed : Nat
  rest : List Char

namespace Cut

/-- Passes a given text. -/
def literal (word : String) (c : Cut) : Option Cut :=
  let w := word.toList
  if w.isPrefixOf c.rest then some ⟨c.passed + w.length, c.rest.drop w.length⟩ else none

/-- Passes the characters that satisfy `p`. -/
def many (p : Char → Bool) (c : Cut) : Cut :=
  let n := (c.rest.takeWhile p).length
  ⟨c.passed + n, c.rest.drop n⟩

/-- Passes the characters that satisfy `p`, of which there has to be one. -/
def oneOrMore (p : Char → Bool) (c : Cut) : Option Cut :=
  if c.rest.head?.any p then some (c.many p) else none

end Cut

/-- An import statement at the start of a text: the number of characters in front of the path, the
path, and the number of characters behind it. -/
structure Hit where
  lead : Nat
  path : List Char
  tail : Nat
deriving DecidableEq, Repr

/-- A form of import statement: what it reads at the start of a text, which begins a line or not. -/
abbrev Form := (lineStart : Bool) → List Char → Option Hit

/-- Whether a character is a quote. -/
def isQuote (c : Char) : Bool := c = '"' || c = '\''

/-- Reads a path between quotes. -/
def quotedPath (c : Cut) : Option (Nat × List Char × Cut) :=
  match c.rest with
  | [] => none
  | q :: r =>
    if isQuote q then
      let path := r.takeWhile fun ch => !isQuote ch
      match r.drop path.length with
      | [] => none
      | _ :: after =>
        if path.isEmpty then none
        else some (c.passed + 1, path, ⟨c.passed + path.length + 2, after⟩)
    else none

/-- Reads a path in quotes and what `after` passes behind it. -/
def quotedHit (after : Cut → Option Cut) (c : Cut) : Option Hit := do
  let (lead, path, rest) ← quotedPath c
  let rest ← after rest
  return ⟨lead, path, rest.passed - lead - path.length⟩

/-! ## Forms -/

/-- Passes what is imported, up to the path: names in braces, everything under a name, or one name. -/
def importClause (c : Cut) : Option Cut := do
  let c ←
    match c.rest with
    | '\x7b' :: _ => (((c.literal "\x7b").map fun c => c.many (· ≠ '\x7d')).bind (·.literal "\x7d"))
    | '*' :: _ => do
      let c ← (← c.literal "*").oneOrMore isBlank
      let c ← (← c.literal "as").oneOrMore isBlank
      c.oneOrMore isWord
    | _ => c.oneOrMore isWord
  let c ← (← c.oneOrMore isBlank).literal "from"
  c.oneOrMore isBlank

/-- `import "path"`, or with a clause before the path. -/
def staticImport : Form := fun _ s => do
  let c ← (← Cut.literal "import" ⟨0, s⟩).oneOrMore isBlank
  let c ← if c.rest.head?.any isQuote then some c else importClause c
  quotedHit some c

/-- A word, then a path in round brackets. -/
def callForm (word : String) : Form := fun _ s => do
  let c := (← Cut.literal word ⟨0, s⟩).many isBlank
  let c := (← c.literal "(").many isBlank
  quotedHit (fun c => (c.many isBlank).literal ")") c

/-- `import "path"`, perhaps with an opening bracket before the path. -/
def groupImport : Form := fun _ s => do
  let c ← (← Cut.literal "import" ⟨0, s⟩).oneOrMore isBlank
  quotedHit some (match c.literal "(" with
    | some c => c.many isBlank
    | none => c)

/-- Whether a character is a space or a tab. -/
def isSpace (c : Char) : Bool := c = ' ' || c = '\t'

/-- Whether a character may stand in a dotted name. -/
def isDottedChar (c : Char) : Bool := isWord c || c = '.'

/-- Reads a dotted name. -/
def dottedName (c : Cut) : Option (List Char × Cut) :=
  let name := c.rest.takeWhile isDottedChar
  if name.isEmpty then none else some (name, ⟨c.passed + name.length, c.rest.drop name.length⟩)

/-- At the start of a line, `from name import` or `import name`. -/
def moduleImport : Form := fun lineStart s => do
  if !lineStart then none
  else
    let c := Cut.many isSpace ⟨0, s⟩
    match c.literal "from" with
    | some c =>
      let c ← c.oneOrMore isSpace
      let (name, after) ← dottedName c
      let after ← (← after.oneOrMore isSpace).literal "import"
      return ⟨c.passed, name, after.passed - c.passed - name.length⟩
    | none =>
      let c ← (← c.literal "import").oneOrMore isSpace
      let (name, _) ← dottedName c
      return ⟨c.passed, name, 0⟩

/-- The forms of import statements in a language. -/
def forms : Language → List Form
  | .typescript | .javascript => [staticImport, callForm "require", callForm "import"]
  | .python => [moduleImport]
  | .go => [groupImport]
  | _ => []

/-! ## Searching -/

/-- A statement in a text: the number of characters in front of its path, the line of the path, and the
path. -/
structure Occurrence where
  place : Nat
  line : Nat
  path : List Char
deriving DecidableEq, Repr

/-- The statements of a form in a text. The first `skip` characters belong to a statement that was found
before; `place` is the number of characters in front of the text and `line` the line it begins on. The
result comes after the statements of `found`, which are in reverse order. -/
def occurrences (form : Form) (skip place line : Nat) (lineStart : Bool) (found : List Occurrence) :
    List Char → List Occurrence
  | [] => found.reverse
  | c :: s =>
    let next := if c = '\n' then line + 1 else line
    match skip with
    | skip + 1 => occurrences form skip (place + 1) next (c = '\n') found s
    | 0 =>
      match form lineStart (c :: s) with
      | some hit =>
        let pathLine := line + ((c :: s).take hit.lead).count '\n'
        occurrences form (hit.lead + hit.path.length + hit.tail - 1) (place + 1) next (c = '\n')
          (⟨place + hit.lead, pathLine, hit.path⟩ :: found) s
      | none => occurrences form 0 (place + 1) next (c = '\n') found s

/-- The imports of a source text, in the order of their places. -/
def imports (language : Language) (text : String) : List ImportRef :=
  let s := text.toList
  let found := (forms language).flatMap fun form => occurrences form 0 0 1 true [] s
  (found.mergeSort fun a b => a.place ≤ b.place).map fun o =>
    ⟨String.ofList o.path, some (.number o.line)⟩

end Layering.Source
