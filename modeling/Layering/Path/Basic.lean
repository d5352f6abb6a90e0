import Layering.Path.PathText
import Layering.Text.Surrogate

/-!
# Paths

A path is parsed into its root and its names; empty names and `.` are dropped and `..` is kept.
Paths are ordered name by name.
-/

namespace Layering

/-- A path: the number of slashes of its root, none for a relative path, and its names. -/
structure Path where
  root : Nat
  names : List String
deriving DecidableEq, Repr

namespace Path

/-- The path that a text denotes. -/
def parse (s : String) : Path where
  root := PathText.rootSlashes s.toList
  names := ((PathText.segments s.toList).filter fun n => n ≠ [] ∧ n ≠ PathText.here).map String.ofList

/-- The text of a path; the empty relative path is `.`. -/
def text (p : Path) : String :=
  if p.root = 0 ∧ p.names.isEmpty then "."
  else String.ofList (List.replicate p.root '/') ++ "/".intercalate p.names

/-- The second path as seen from the first. -/
def append (p q : Path) : Path := if q.root ≠ 0 then q else ⟨p.root, p.names ++ q.names⟩

/-- The path one name shorter. -/
def parent (p : Path) : Path := ⟨p.root, p.names.dropLast⟩

/-- The last name of a path, empty when there is none. -/
def name (p : Path) : String := p.names.getLast?.getD ""

/-- The last name split before its last dot, unless the dot is at its start or at its end. -/
def splitName (p : Path) : String × String :=
  let n := p.name.toList
  let ext := (n.reverse.takeWhile (· ≠ '.')).reverse
  let stem := n.take (n.length - ext.length - 1)
  if ext.isEmpty ∨ stem.isEmpty ∨ n.length = ext.length then (p.name, "")
  else (String.ofList stem, String.ofList ('.' :: ext))

/-- The last name without its suffix. -/
def stem (p : Path) : String := p.splitName.1

/-- The suffix of the last name, with its dot. -/
def suffix (p : Path) : String := p.splitName.2

/-- Whether some names come before others or are the same. -/
def namesPrecede (a b : List String) : Bool :=
  @decide _ (List.decidableLE (a.map Text.codePoints) (b.map Text.codePoints))

end Path

end Layering
