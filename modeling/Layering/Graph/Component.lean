import Layering.Value.Basic

/-!
# Components

A component is one source file: its name, its path, what it imports and which components it depends
on. Components are read from loosely shaped records, in which a field of the wrong kind counts as
missing.
-/

namespace Layering

/-- A place in a source file: a line or column number, or a bare truth value where a record gives
that in its place. -/
inductive Place where
  | number (n : Int)
  | flag (b : Bool)
deriving DecidableEq, Repr

namespace Place

/-- The place as a value. -/
def value : Place → Value
  | number n => .int n
  | flag b => .bool b

/-- The place that a value is, if it is an integer or a truth value. -/
def ofValue? : Value → Option Place
  | .int n => some (number n)
  | .bool b => some (flag b)
  | _ => none

/-- Whether a place can be a line of a file: a positive number, or true. -/
def isLine : Place → Bool
  | number n => 0 < n
  | flag b => b

/-- The place in a message. -/
def text : Place → String
  | number n => toString n
  | flag true => "True"
  | flag false => "False"

end Place

/-- An import statement: the path it names and the line it stands on, if that is known. -/
structure ImportRef where
  path : String
  line : Option Place
deriving DecidableEq, Repr

namespace ImportRef

/-- The import as a record; an unknown line is left out. -/
def value (i : ImportRef) : Value :=
  .record ([("path", .str i.path)] ++ (i.line.map fun l => ("line", l.value)).toList)

/-- The import that a value gives: a text, or a record with a text as path. -/
def ofValue? : Value → Option ImportRef
  | .str path => some ⟨path, none⟩
  | .map entries =>
    match Entries.field "path" entries with
    | .str path =>
      some ⟨path, (Place.ofValue? (Entries.field "line" entries)).filter Place.isLine⟩
    | _ => none
  | _ => none

end ImportRef

/-- One source file. -/
structure Component where
  name : String
  filePath : String
  directory : String
  kind : String
  originalName : String
  imports : List ImportRef
  dependencies : List String
deriving DecidableEq, Repr

namespace Component

/-- The first of two spellings of a field that is present. -/
def either (entries : List (Scalar × Value)) (name other : String) : Value :=
  match Entries.field? name entries with
  | some v => v
  | none => Entries.field other entries

/-- The component that a record describes. -/
def ofEntries (entries : List (Scalar × Value)) : Component where
  name := (Entries.field "name" entries).text?.getD ""
  filePath := (either entries "filePath" "file_path").text?.getD ""
  directory := (Entries.field "directory" entries).text?.getD ""
  kind := (Entries.field "type" entries).text?.getD "file"
  originalName := (either entries "originalName" "original_name").text?.getD ""
  imports := ((Entries.field "imports" entries).items?.getD []).filterMap ImportRef.ofValue?
  dependencies := ((Entries.field "dependencies" entries).items?.getD []).filterMap fun v =>
    v.text?.filter (· ≠ "")

/-- The name that a component is shown under. -/
def shownName (c : Component) : String := if c.originalName = "" then c.name else c.originalName

/-- The record of a component. -/
def value (c : Component) : Value :=
  .record [
    ("name", .str c.name),
    ("originalName", .str c.shownName),
    ("filePath", .str c.filePath),
    ("directory", .str c.directory),
    ("type", .str c.kind),
    ("imports", .list (c.imports.map ImportRef.value)),
    ("dependencies", .list (c.dependencies.map .str))]

end Component

end Layering
