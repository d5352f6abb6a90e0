import Layering.Text.CharSet

/-!
# Blank characters

The characters that count as white space at the ends of a pattern and between the words of an import
statement: the ASCII spaces, the four separators U+001C to U+001F, and the Unicode spaces.
-/

namespace Layering.Text

/-- The blank characters. -/
def blanks : CharSet := ⟨
  [9, 14, 28, 33, 133, 134, 160, 161, 5760, 5761, 8192, 8203, 8232, 8234, 8239, 8240, 8287, 8288,
   12288, 12289]⟩

/-- Whether a character is blank. -/
def isBlank (c : Char) : Bool := blanks.contains c

/-- Whether a text has no character other than blanks. -/
def isBlankText (s : List Char) : Bool := s.all isBlank

/-- A text without the blanks at its two ends. -/
def trim (s : List Char) : List Char :=
  ((s.dropWhile isBlank).reverse.dropWhile isBlank).reverse

end Layering.Text
