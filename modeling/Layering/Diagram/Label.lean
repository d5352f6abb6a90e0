import Layering.Digest.Md5
import Layering.Graph.Basic
import Layering.Text.Surrogate

/-!
# Names in diagrams

The nodes of a diagram have identifiers, in which only letters, digits and underscores may stand. A
digest of the name is added, so that names which differ only in other characters are told apart. As the
digest is one of bytes, a name that cannot be encoded has no identifier. Labels may hold any text, with a
backslash in front of what would end them.
-/

namespace Layering.Diagram

/-- Whether a character may stand in an identifier. -/
def isIdChar (c : Char) : Bool := c.isAlphanum || c = '_'

/-- The readable part of an identifier. -/
def idStem (name : List Char) : List Char :=
  let base := name.map fun c => if isIdChar c then c else '_'
  if base.head?.any Char.isDigit then '_' :: base else base

/-- The identifier of a name under a digest, of which the first six digits are kept. -/
def nodeIdWith (digest : String → List Char) (name : String) : String :=
  String.ofList (idStem name.toList ++ '_' :: (digest name).take 6)

/-- The identifier of a name that can be encoded. -/
def nodeId (name : String) : String := nodeIdWith Md5.hexDigest name

/-- The characters that are escaped in a label. -/
def labelSigns : List Char := ['"', '[', ']', '(', ')', '#', '<', '>']

/-- A text as a label. -/
def escapeLabel (text : String) : String :=
  String.ofList (text.toList.flatMap fun c => if labelSigns.contains c then ['\\', c] else [c])

/-- The label of a component. -/
def label (c : Component) : String := escapeLabel c.shownName

/-- The components that a diagram shows: those whose path or name holds the text in focus, or all. -/
def inFocus (graph : Graph) (focus : Option String) : List Component :=
  match focus with
  | none => graph.components
  | some f =>
    if f = "" then graph.components
    else
      let needle := PathText.slashed f.toList
      graph.components.filter fun c =>
        Text.occursIn needle c.filePath.toList || Text.occursIn needle c.name.toList

end Layering.Diagram
