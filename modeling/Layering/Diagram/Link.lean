import Layering.Json.Printer
import Layering.Text.Base64

/-!
# Links to diagrams

A link that carries a diagram in itself, so that it can be looked at elsewhere. Large diagrams have none.
-/

namespace Layering.Diagram

/-- The number of characters that a linked diagram may have. -/
def maxLinkedCode : Nat := 5000

/-- The number of characters that a link may have. -/
def maxLinkLength : Nat := 8000

/-- What every link begins with. -/
def linkStart : String := "https://mermaid.live/edit#base64:"

/-- What a link says about a diagram. -/
def linkPayload (code : String) : List Char :=
  Json.print Json.line (.record [("code", .str code)])

/-- The link to a diagram, whatever its length. -/
def linkText (code : String) : String :=
  linkStart ++ String.ofList (Base64.encode Base64.urlSafe
    ((linkPayload code).flatMap String.utf8EncodeChar))

/-- The link to a diagram that is not too large. -/
def link? (code : String) : Option String :=
  if maxLinkedCode < code.length then none
  else
    let url := linkText code
    if maxLinkLength < url.length then none else some url

end Layering.Diagram
