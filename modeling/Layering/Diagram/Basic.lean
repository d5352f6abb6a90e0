import Layering.Diagram.Dependency
import Layering.Diagram.Outline
import Layering.Text.Lowercase
import Layering.Text.Quoted

/-!
# Diagrams

The kinds of diagram that a graph is drawn as, and the themes they are drawn in.
-/

namespace Layering.Diagram

/-- The kinds of diagram. -/
inductive Kind where
  | architecture
  | sequence
  | dependency
  | classes
  | flow
deriving DecidableEq, Repr

/-- The themes of diagrams. -/
inductive Theme where
  | default
  | dark
  | forest
  | neutral
deriving DecidableEq, Repr

/-- All kinds, in the order in which they are listed. -/
def Kind.all : List Kind := [.architecture, .sequence, .dependency, .classes, .flow]

/-- The name of a kind. -/
def Kind.text : Kind → String
  | architecture => "architecture"
  | sequence => "sequence"
  | dependency => "dependency"
  | classes => "class"
  | flow => "flow"

/-- All themes, in the order in which they are listed. -/
def Theme.all : List Theme := [.default, .dark, .forest, .neutral]

/-- The name of a theme. -/
def Theme.text : Theme → String
  | default => "default"
  | dark => "dark"
  | forest => "forest"
  | neutral => "neutral"

end Layering.Diagram

namespace Layering

/-- Why no diagram is drawn. -/
inductive DiagramError where
  /-- A value, as it is quoted, is no kind of diagram. -/
  | unknownKind (quoted : String)
  | unknownTheme (name : String)
  /-- What is given as a theme is no text. -/
  | noTheme
  /-- A name that is drawn cannot be encoded. -/
  | unencodable
deriving DecidableEq, Repr

/-- The text of an error. -/
def DiagramError.message : DiagramError → String
  | unknownKind quoted =>
    let known := ", ".intercalate (Diagram.Kind.all.map Diagram.Kind.text)
    s!"Unknown diagram type: {quoted} (expected one of {known})"
  | unknownTheme name =>
    let known := ", ".intercalate (Diagram.Theme.all.map Diagram.Theme.text)
    s!"Unknown theme: {quote name} (expected one of {known})"
  | noTheme => "the theme is no text"
  | unencodable => "a name cannot be encoded"

namespace Diagram

/-- The kind that a value names. -/
def Kind.ofValue (name : Value) : Except DiagramError Kind :=
  match Kind.all.find? fun k => name.text? = some k.text with
  | some k => .ok k
  | none => .error (.unknownKind name.quotedText)

/-- The theme with a name, whatever the case of its letters. -/
def Theme.ofText (name : String) : Except DiagramError Theme :=
  let name := String.ofList (Text.lower name.toList)
  match Theme.all.find? fun t => t.text = name with
  | some t => .ok t
  | none => .error (.unknownTheme name)

/-- The theme that a value names. -/
def Theme.ofValue (name : Value) : Except DiagramError Theme :=
  match name.text? with
  | some s => Theme.ofText s
  | none => .error .noTheme

/-- The lines of a diagram. -/
def lines (graph : Graph) (kind : Kind) (focus : Option String) (entryPoints : List String) :
    List String :=
  match kind with
  | .architecture => Architecture.lines graph focus entryPoints
  | .sequence => sequenceLines graph
  | .dependency => Dependency.lines graph focus
  | .classes => classLines graph
  | .flow => flowLines graph

/-- The names whose identifiers a diagram shows. -/
def names (graph : Graph) (kind : Kind) (focus : Option String) : List String :=
  match kind with
  | .architecture => Architecture.names graph focus
  | .sequence => (participants graph).map (·.name)
  | .dependency => Dependency.names graph focus
  | .classes => (classes graph).map (·.name)
  | .flow => (steps graph).map (·.name)

/-- A diagram. There is none if a name has no identifier. -/
def render (graph : Graph) (kind : Kind) (focus : Option String) (entryPoints : List String) :
    Except DiagramError String :=
  if (names graph kind focus).all Text.isEncodable then
    .ok ("\n".intercalate (lines graph kind focus entryPoints))
  else .error .unencodable

/-- A diagram in a theme; the default theme is not mentioned. -/
def withTheme (theme : Theme) (code : String) : String :=
  if theme = .default then code
  else s!"%%\x7binit: \x7b'theme': '{theme.text}'\x7d\x7d%%\n{code}"

end Diagram

end Layering
