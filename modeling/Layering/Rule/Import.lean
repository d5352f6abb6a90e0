import Layering.Rule.Basic
import Layering.Text.Blank

/-!
# Import rules

An import rule constrains what the files of a layer import. Each import that matches a forbidden
pattern is reported once, with the first pattern it matches. If there are allowed patterns, an import
is reported when it matches none of them. Each required pattern that no import matches is reported
once.

A pattern is matched against the import as it is written: it matches the path itself and everything
below it. A pattern with `*` or `?` is matched as a path pattern instead. For any other pattern, a
relative import is also matched by the path it leads to from the importing file.
-/

namespace Layering

open PathText Text

/-- The constraints of a layer on its imports. -/
structure ImportRule where
  fullName : Option String
  fullDescription : Option String
  layer : Layer
  forbidden : List String
  allowed : List String
  required : List String

/-- Why fields make no rule. -/
inductive RuleFieldError where
  | unexpected (name : String)
  | missing (names : List String)
deriving DecidableEq, Repr

/-- The text of an error. -/
def RuleFieldError.message : RuleFieldError → String
  | unexpected name =>
    s!"ImportRuleConfig.__init__() got an unexpected keyword argument {quote name}"
  | missing names =>
    let plural := if names.length = 1 then "" else "s"
    let listed := " and ".intercalate (names.map quote)
    s!"ImportRuleConfig.__init__() missing {names.length} required positional argument{plural}: {listed}"

namespace ImportRule

/-! ## Where imports lead -/

/-- Where a path leads, seen from the directory of a file. -/
def resolveFrom (source path : List Char) : List Char :=
  normal (join (directory (slashed source)) path)

/-- Where an import leads: a relative one is resolved from the importing file. -/
def target (path source : String) : String :=
  let p := slashed path.toList
  String.ofList (if p.head? == some '.' then resolveFrom source.toList p else p)

/-! ## Matching -/

/-- A pattern with slashes only, without a slash at its end. -/
def directoryPattern (pattern : List Char) : List Char :=
  let p := slashed pattern
  if p.getLast? == some '/' then p.dropLast else p

/-- Whether an import in a file matches a pattern. -/
def isMatch (path pattern source : String) : Bool :=
  if isBlankText pattern.toList then false
  else
    let i := slashed path.toList
    let p := directoryPattern pattern.toList
    if isUnder p i then true
    else if p.contains '*' || p.contains '?' then (Glob.compile true p).test i
    else if path.toList.head? == some '.' then isUnder p (resolveFrom source.toList i)
    else false

/-! ## Checking -/

/-- The name that is shown. -/
def name (r : ImportRule) : String := Rule.shownName r.fullName

/-- The violation of an import that matches a forbidden pattern. -/
def forbiddenImport (r : ImportRule) (source : String) (i : ImportRef) (pattern : String) :
    Violation where
  ruleName := r.name
  file := some source
  line := i.line
  message := s!"Forbidden import: \"{i.path}\" matches \"{pattern}\""
  suggestion := some "Remove this import or add to allowed list"
  relatedFile := some (target i.path source)

/-- The violation of an import that matches no allowed pattern. -/
def unlistedImport (r : ImportRule) (source : String) (i : ImportRef) : Violation where
  ruleName := r.name
  file := some source
  line := i.line
  message := s!"Import not in whitelist: \"{i.path}\""
  suggestion := some "Add to may_import_from or use allowed import"
  relatedFile := some (target i.path source)

/-- The violation of a required pattern that no import matches. -/
def missingImport (r : ImportRule) (source pattern : String) : Violation where
  ruleName := r.name
  file := some source
  message := s!"Missing required import matching \"{pattern}\""
  suggestion := some s!"Add an import that matches \"{pattern}\""

/-- The violations of a file. -/
def violations (r : ImportRule) (c : Component) : List Violation :=
  let source := c.filePath
  (c.imports.filterMap fun i =>
    (r.forbidden.find? fun p => isMatch i.path p source).map (r.forbiddenImport source i)) ++
  (if r.allowed.isEmpty then []
   else (c.imports.filter fun i => !r.allowed.any fun p => isMatch i.path p source).map
    (r.unlistedImport source)) ++
  (r.required.filter fun p => !c.imports.any fun i => isMatch i.path p source).map
    (r.missingImport source)

/-- The import rule as a rule. -/
def toRule (r : ImportRule) : Rule where
  kind := "ImportRule"
  fullName := r.fullName
  fullDescription := r.fullDescription
  layer := r.layer
  check := fun _ c => .ok (r.violations c)

/-! ## Reading -/

/-- The patterns that a field of a rule record gives: a text is one pattern, null is none, and what
is neither text nor list is one pattern by the text it is shown as. -/
def patternsOf : Value → List String
  | .null => []
  | .str s => [s]
  | .list items => (items.filter fun v => !v.isNull).map Value.shownText
  | v => [v.shownText]

/-- The fields of a record that hold patterns. -/
def constraintFields : List String := ["must_not_import_from", "may_import_from", "must_import_from"]

/-- The fields of a rule record, with whether they have to be there. -/
def fields : List (String × Bool) :=
  [("name", true), ("layer", true), ("description", false)] ++ constraintFields.map (·, false)

/-- The rule that a record gives when its name and description are taken as they are. -/
def ofFields (entries : List (Scalar × Value)) : ImportRule where
  fullName := (Entries.field "name" entries).text?
  fullDescription := (Entries.field "description" entries).text?
  layer := .ofValue (Entries.field "layer" entries)
  forbidden := patternsOf (Entries.field "must_not_import_from" entries)
  allowed := patternsOf (Entries.field "may_import_from" entries)
  required := patternsOf (Entries.field "must_import_from" entries)

/-- The rule that a record of exactly these fields gives. -/
def build (entries : List (Scalar × Value)) : Except RuleFieldError ImportRule :=
  let names := entries.filterMap fun (k, _) => match k with
    | .text s => some s
    | _ => none
  let needed := (fields.filter (·.2)).map (·.1)
  match names.find? fun n => !(fields.map (·.1)).contains n, needed.filter fun n => !names.contains n with
  | some n, _ => .error (.unexpected n)
  | none, [] => .ok (ofFields entries)
  | none, missing => .error (.missing missing)

/-- The rule that a record gives; a name that is no text becomes a placeholder. -/
def ofEntries (entries : List (Scalar × Value)) : ImportRule :=
  let r := ofFields entries
  { r with fullName := some (r.fullName.getD "unnamed") }

end ImportRule

end Layering
