import Layering.Graph.Component

/-!
# Violations

What a rule has to say against a file, or against the rule itself when no file is named.
-/

namespace Layering

/-- A violation of a rule. -/
structure Violation where
  ruleName : String
  message : String
  file : Option String := none
  line : Option Place := none
  column : Option Place := none
  severity : Option String := some "error"
  suggestion : Option String := none
  relatedFile : Option String := none
deriving DecidableEq, Repr

namespace Violation

/-- The record of a violation; what is unknown is left out. -/
def value (v : Violation) : Value :=
  let present (name : String) (x : Option Value) : List (String × Value) := (x.map (name, ·)).toList
  .record (
    [("ruleName", .str v.ruleName)] ++
    present "severity" (v.severity.map .str) ++
    present "file" (v.file.map .str) ++
    present "line" (v.line.map Place.value) ++
    present "column" (v.column.map Place.value) ++
    [("message", .str v.message)] ++
    present "suggestion" (v.suggestion.map .str) ++
    present "relatedFile" (v.relatedFile.map .str))

/-- The file that a violation is listed under. -/
def place (v : Violation) : String :=
  match v.file with
  | some f => if f = "" then "(rule)" else f
  | none => "(rule)"

end Violation

end Layering
