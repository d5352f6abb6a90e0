/-!
# Sets of characters

A set of characters is kept as the increasing list of the code points at which membership changes,
the first of them being the least member. The standard character classes of this library are such
lists; membership counts the changes up to a character and asks whether their number is odd.
-/

namespace Layering.Text

/-- A set of characters, given by the code points at which membership changes. -/
structure CharSet where
  changes : List Nat

namespace CharSet

/-- A character is a member when an odd number of changes lie at or below it. -/
def contains (s : CharSet) (c : Char) : Bool :=
  (s.changes.takeWhile (· ≤ c.toNat)).length % 2 == 1

end CharSet

end Layering.Text
