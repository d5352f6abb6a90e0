/-!
# Text inside markup

Characters that mean something in markup are written by name. Between two tags all five of them are;
in an attribute, the quote is chosen so that few of them have to be, and line ends and tabs are
written by number.
-/

namespace Layering.Report.Markup

/-- A character of a text between two tags. -/
def bodyChar (c : Char) : List Char :=
  if c = '&' then "&amp;".toList
  else if c = '<' then "&lt;".toList
  else if c = '>' then "&gt;".toList
  else if c = '"' then "&quot;".toList
  else if c = '\'' then "&apos;".toList
  else [c]

/-- A text between two tags. -/
def body (s : String) : String := String.ofList (s.toList.flatMap bodyChar)

/-- A character of an attribute between two `quote`s. -/
def attributeChar (quote c : Char) : List Char :=
  if c = '&' then "&amp;".toList
  else if c = '<' then "&lt;".toList
  else if c = '>' then "&gt;".toList
  else if c = '\n' then "&#10;".toList
  else if c = '\r' then "&#13;".toList
  else if c = '\t' then "&#9;".toList
  else if c = '"' ∧ quote = '"' then "&quot;".toList
  else [c]

/-- An attribute with its quotes: single ones when it holds double ones only, else double ones. -/
def attributeText (s : String) : String :=
  let cs := s.toList
  let q := if cs.contains '"' && !cs.contains '\'' then '\'' else '"'
  String.ofList (q :: cs.flatMap (attributeChar q) ++ [q])

end Layering.Report.Markup
