import Layering.Decimal.Binary64
import Layering.Text.Basic

/-!
# A fixed number of places

A number rounded to a number of decimal places, as a text and as a number. The exact value is
rounded, and a half goes to the even neighbour.
-/

namespace Layering.Decimal

/-- `num / den` in units of `10 ^ (-places)`, rounded. -/
def inPlaces (places num den : Nat) : Nat := roundDiv (num * Nat.pow 10 places) den

/-- The digits of `n * 10 ^ (-places)`. -/
def pointed (places n : Nat) : List Char :=
  let ds := Text.decimal (places + 1) n
  ds.take (ds.length - places) ++ '.' :: ds.drop (ds.length - places)

namespace Binary64

/-- A number with a fixed number of places, at least one. -/
def fixedText (places : Nat) : Binary64 → List Char
  | .finite negative m e =>
    let (num, den) := ratio m e
    (if negative then ['-'] else []) ++ pointed places (inPlaces places num den)
  | .infinite negative => (if negative then ['-'] else []) ++ ['i', 'n', 'f']
  | .nan _ => ['n', 'a', 'n']

/-- A number rounded to a fixed number of places, as the nearest number to that decimal. -/
def roundTo (places : Nat) : Binary64 → Binary64
  | .finite negative m e =>
    let (num, den) := ratio m e
    ofRatio negative (inPlaces places num den) (Nat.pow 10 places)
  | x => x

end Binary64

end Layering.Decimal
