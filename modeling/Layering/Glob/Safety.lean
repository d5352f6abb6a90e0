import Layering.Path.PathText
import Layering.Text.Blank
import Layering.Text.Quoted
import Layering.Value.Basic

/-!
# Safe patterns

A layer pattern has to stay inside the project: it is refused when it is blank, holds a NUL, climbs
above the directory it starts from, or is absolute. A drive letter makes a pattern absolute too.
-/

namespace Layering

/-- What is wrong with a pattern. -/
inductive PatternFault where
  | blank
  | nul
  | climbs
  | absolute
deriving DecidableEq, Repr

/-- A pattern that was refused, and what it was meant for. -/
structure PatternError where
  fault : PatternFault
  purpose : String
  pattern : String
deriving DecidableEq, Repr

namespace PatternError

/-- The text of a refusal. -/
def message (e : PatternError) : String :=
  match e.fault with
  | .blank => s!"Invalid {e.purpose}: must be a non-empty string"
  | .nul => s!"Invalid {e.purpose}: null bytes not allowed"
  | .climbs => s!"Invalid {e.purpose}: directory traversal not allowed ({quote e.pattern})"
  | .absolute => s!"Invalid {e.purpose}: absolute paths not allowed ({quote e.pattern})"

end PatternError

namespace Glob

open PathText Text

/-- Whether the normal form of a path leads out of the directory it starts from. -/
def climbs (normalized : List Char) : Bool :=
  normalized == up || (up ++ ['/']).isPrefixOf normalized

/-- Whether a path starts with a drive: a letter and a colon, followed by a slash, by nothing, or by
nothing but one line end. -/
def hasDrive : List Char → Bool
  | c :: ':' :: rest =>
    c.isAlpha && (rest.head? == some '/' || rest.isEmpty || rest == ['\n'])
  | _ => false

/-- What is wrong with a pattern, if anything is. -/
def fault? (pattern : List Char) : Option PatternFault :=
  let s := slashed pattern
  if isBlankText pattern then some .blank
  else if pattern.contains '\x00' then some .nul
  else if climbs (normal s) then some .climbs
  else if (normal s).head? == some '/' || hasDrive s then some .absolute
  else none

/-- The pattern that a value is, if it is safe. -/
def validate (purpose : String) : Value → Except PatternError String
  | .str pattern =>
    match fault? pattern.toList with
    | some fault => .error ⟨fault, purpose, pattern⟩
    | none => .ok pattern
  | _ => .error ⟨.blank, purpose, ""⟩

end Glob

end Layering
