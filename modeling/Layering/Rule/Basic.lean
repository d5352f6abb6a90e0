import Layering.Graph.Basic
import Layering.Rule.Violation

/-!
# Rules

A rule applies to the files of its layer and checks each of them against the graph. The check may
fail, with a text that says why. Names and descriptions are cut to a fixed length where they are
shown; two rules are told apart by their full names.
-/

namespace Layering

/-- The number of characters of a rule's name that are shown. -/
def maxNameLength : Nat := 100

/-- The number of characters of a rule's description that are shown. -/
def maxDescriptionLength : Nat := 500

/-- The layer of a rule: one pattern, or several. -/
inductive Layer where
  | single (pattern : Value)
  | several (patterns : List Value)

namespace Layer

/-- The layer that a field of a rule record gives: a list stands for several patterns. -/
def ofValue : Value → Layer
  | .list patterns => .several patterns
  | v => .single v

/-- The patterns of a layer. -/
def patterns : Layer → List Value
  | single p => [p]
  | several ps => ps

/-- The layer as a value. -/
def value : Layer → Value
  | single p => p
  | several ps => .list ps

/-- The layer in a description of its rule. Several patterns stand between round brackets, and a
comma follows when there is only one. -/
def quotedText : Layer → String
  | single p => p.quotedText
  | several [p] => s!"({p.quotedText},)"
  | several ps => "(" ++ ", ".intercalate (ps.map Value.quotedText) ++ ")"

end Layer

/-- A rule. -/
structure Rule where
  /-- The kind of rule, as it is shown in descriptions. -/
  kind : String
  /-- The full name, if there is one. -/
  fullName : Option String
  /-- The full description, if there is one. -/
  fullDescription : Option String
  layer : Layer
  /-- The violations of a file, or why it cannot be checked. -/
  check : Graph → Component → Except String (List Violation)

namespace Rule

/-- The first characters of a string. -/
def cut (n : Nat) (s : String) : String := String.ofList (s.toList.take n)

/-- The name that is shown for a full name. -/
def shownName (fullName : Option String) : String :=
  (fullName.map (cut maxNameLength)).getD "unnamed"

/-- The name that is shown. -/
def name (r : Rule) : String := shownName r.fullName

/-- The description that is shown. -/
def description (r : Rule) : String := (r.fullDescription.map (cut maxDescriptionLength)).getD ""

/-- What tells a rule apart from others. -/
def identity (r : Rule) : String := r.fullName.getD r.name

/-- The rule in a line. -/
def summary (r : Rule) : String := s!"{r.kind}(name={quote r.name}, layer={r.layer.quotedText})"

/-- The refusal of an attempt to change a rule. -/
def refusal (r : Rule) (field : String) : String :=
  s!"{r.kind} is immutable; cannot set {quote field}"

end Rule

end Layering
