import Layering.Yaml.Meaning
import Layering.Yaml.Token.Scan

/-!
# Documents

The value of a text that holds one document; a text without a document stands for null.
-/

namespace Layering.Yaml

/-- The number of collections that may lie in one another in a text. This is what the stack of the
runtime holds, so it bounds the texts that are read and not the trees that events build. -/
def maxNesting : Nat := 325

/-- Events up to the first collection that lies too deep, which is a fault; `depth` collections have begun
and not ended, and `read` holds the events before, latest first. -/
def limitNesting (depth : Nat) (read : List Event) : List Event → List Event
  | [] => read.reverse
  | e :: es =>
    match e with
    | .sequenceStart _ _ | .mappingStart _ _ =>
      if maxNesting ≤ depth then (.fault .tooDeep :: read).reverse
      else limitNesting (depth + 1) (e :: read) es
    | .sequenceEnd | .mappingEnd => limitNesting (depth - 1) (e :: read) es
    | _ => limitNesting depth (e :: read) es

/-- The value of a text. -/
def read (text : String) : Except Fault Value := do
  match ← Node.ofEvents (limitNesting 0 [] (Event.ofTokens (tokens text.toList))) with
  | some n => n.value
  | none => .ok .null

end Layering.Yaml
