import Layering.Config.Basic
import Layering.Rule.Import
import Layering.Text.Basic

/-!
# The shape of a configuration

Every issue of a configuration is found, in a fixed order: keys that are not known, the version, the
base, and the rules one after the other.
-/

namespace Layering.Config

open Text

/-- The keys of a configuration. -/
def topLevelKeys : List String := ["version", "extends", "rules"]

/-- Whether a text is a version: two numbers with a point between them. -/
def isVersion (s : List Char) : Bool :=
  let s := if s.getLast? == some '\n' then s.dropLast else s
  let (major, r) := s.span Char.isDigit
  match r with
  | '.' :: minor => !major.isEmpty && !minor.isEmpty && minor.all Char.isDigit
  | _ => false

/-- Whether a value may stand for a version: a number counts as the text it is shown as. -/
def isVersionValue : Value → Bool
  | .str s => isVersion s.toList
  | .int n => isVersion (Value.int n).shown
  | .real x => isVersion (Value.real x).shown
  | _ => false

/-- The issues of a rule's name. -/
def nameIssues (path : String) : Value → List ConfigIssue
  | .str name =>
    if name = "" then [⟨s!"{path}.name", "Rule name is required"⟩]
    else if maxNameLength < name.length then
      [⟨s!"{path}.name", s!"Rule name must be less than {maxNameLength} characters"⟩]
    else []
  | _ => [⟨s!"{path}.name", "Rule name is required"⟩]

/-- The issues of a rule's description. -/
def descriptionIssues (path : String) : Value → List ConfigIssue
  | .null => []
  | .str d =>
    if maxDescriptionLength < d.length then
      [⟨s!"{path}.description",
        s!"Description must be less than {maxDescriptionLength} characters"⟩]
    else []
  | _ => [⟨s!"{path}.description", "Description must be a string"⟩]

/-- The patterns of a layer, if they are texts that are not empty. -/
def layerPatterns? : Value → Option (List String)
  | .str s => if s = "" then none else some [s]
  | .list [] => none
  | .list ps => ps.mapM fun
    | .str s => if s = "" then none else some s
    | _ => none
  | _ => none

/-- Whether a layer pattern names a place outside of the project. -/
def leavesProject (pattern : String) : Bool :=
  occursIn ['.', '.'] pattern.toList || pattern.toList.head? == some '/'

/-- The issues of a rule's layer. -/
def layerIssues (path : String) (layer : Value) : List ConfigIssue :=
  match layerPatterns? layer with
  | some patterns =>
    if patterns.any leavesProject then
      [⟨s!"{path}.layer", "Layer patterns cannot contain \"..\" or absolute paths"⟩]
    else []
  | none =>
    match layer with
    | .list [] => [⟨s!"{path}.layer", "At least one layer pattern is required"⟩]
    | _ => [⟨s!"{path}.layer", "Layer pattern is required"⟩]

/-- Whether a value is a list of texts. -/
def isPatternList : Value → Bool
  | .list items => items.all fun v => v.text?.isSome
  | _ => false

/-- The issues of a rule's constraints. -/
def constraintIssues (path : String) (entries : List (Scalar × Value)) : List ConfigIssue :=
  let present := ImportRule.constraintFields.filter fun k => !(Entries.field k entries).isNull
  (present.filter fun k => !isPatternList (Entries.field k entries)).map
    (fun k => ⟨s!"{path}.{k}", "Expected a list of strings"⟩) ++
  (if present.isEmpty then
    [⟨s!"{path}.constraints", "Rule must specify at least one constraint " ++
      "(must_not_import_from, may_import_from, or must_import_from)"⟩]
   else [])

/-- The issues of a rule. -/
def ruleIssues (path : String) : Value → List ConfigIssue
  | .map entries =>
    nameIssues path (Entries.field "name" entries) ++
    descriptionIssues path (Entries.field "description" entries) ++
    layerIssues path (Entries.field "layer" entries) ++
    constraintIssues path entries
  | _ => [⟨path, "Rule must be a mapping"⟩]

/-- The issues of the rules from a position on. -/
def rulesIssues (position : Nat) : List Value → List ConfigIssue
  | [] => []
  | r :: rs => ruleIssues s!"rules.{position}" r ++ rulesIssues (position + 1) rs

/-- The issue of a key that is not known. -/
def keyIssue? (key : Scalar) : Option ConfigIssue :=
  match key with
  | .text s =>
    if topLevelKeys.contains s then none else some ⟨s, "Unrecognized key"⟩
  | _ => some ⟨String.ofList key.shown, "Unrecognized key"⟩

/-- Whether a scalar is an integer that cannot be written. -/
def isHugeScalar : Scalar → Bool
  | .int n => isHuge n
  | _ => false

/-- Whether the check of a configuration comes upon an integer that it cannot write: as a key, or as
the version. -/
def hasHugeNumber (entries : List (Scalar × Value)) : Bool :=
  entries.any (fun (k, _) => isHugeScalar k) ||
    match Entries.field "version" entries with
    | .scalar s => isHugeScalar s
    | _ => false

/-- The issues of a configuration. -/
def issues : Value → List ConfigIssue
  | .map entries =>
    entries.filterMap (fun (k, _) => keyIssue? k) ++
    (if ((Entries.field? "version" entries).map isVersionValue).getD true then []
     else [⟨"version", "Version must be in format \"X.Y\""⟩]) ++
    (match Entries.field "extends" entries with
     | .null => []
     | .str _ => []
     | _ => [⟨"extends", "Expected a string"⟩]) ++
    (match Entries.field "rules" entries with
     | .list [] => [⟨"rules", "At least one rule is required"⟩]
     | .list rules => rulesIssues 0 rules
     | _ => [⟨"rules", "Expected a list of rules"⟩])
  | _ => [⟨"", "Configuration must be a mapping"⟩]

end Layering.Config
