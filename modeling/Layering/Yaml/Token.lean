import Layering.Yaml.Fault

/-!
# Tokens

The words of a document. Indentation has become the start and end of blocks, and a key is marked even
where the text does not mark it. A fault is a token too, and the last one: what comes before it can
still be read.
-/

namespace Layering.Yaml

/-- An instruction in front of a document. -/
inductive Directive where
  | version (major : Nat)
  | tagHandle (handle uri : String)
  | other
deriving DecidableEq, Repr

/-- A word of a document. -/
inductive Token where
  | directive (d : Directive)
  | documentStart
  | documentEnd
  | streamEnd
  | blockSequenceStart
  | blockMappingStart
  | blockEnd
  | flowSequenceStart
  | flowSequenceEnd
  | flowMappingStart
  | flowMappingEnd
  | blockEntry
  | flowEntry
  | key
  | value
  | alias (name : String)
  | anchor (name : String)
  | tag (handle : Option String) (rest : String)
  | scalar (plain : Bool) (text : String)
  | fault (f : Fault)
deriving DecidableEq, Repr

end Layering.Yaml
