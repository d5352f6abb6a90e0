import Layering.Text.Basic
import Layering.Text.Printable
import Layering.Text.Surrogate

/-!
# Quoted texts

How a text is shown inside a message: between single quotes, or between double quotes when it holds a
single quote and no double one. The quote in use, the backslash and the characters that cannot be
printed are escaped.
-/

namespace Layering.Text

/-- The quote that a text is shown between. -/
def quoteFor (s : List Char) : Char :=
  if s.contains '\'' && !s.contains '"' then '"' else '\''

/-- A character as it is shown between two `quote`s. -/
def quoteChar (quote c : Char) : List Char :=
  if c = quote ∨ c = '\\' then ['\\', c]
  else if c = '\n' then ['\\', 'n']
  else if c = '\r' then ['\\', 'r']
  else if c = '\t' then ['\\', 't']
  else if isPrintable c then [c]
  else if c.toNat < 0x100 then '\\' :: 'x' :: hexDigits 2 c.toNat
  else if codePoint c < 0x10000 then '\\' :: 'u' :: hexDigits 4 (codePoint c)
  else '\\' :: 'U' :: hexDigits 8 c.toNat

/-- A text as it is shown in a message. -/
def quoted (s : List Char) : List Char :=
  let q := quoteFor s
  q :: s.flatMap (quoteChar q) ++ [q]

/-- Bytes as they are shown in a message: as the text of their ASCII characters, with all others
escaped. -/
def quotedBytes (bs : List UInt8) : List Char :=
  let cs := bs.map fun b => Char.ofNat b.toNat
  let q := quoteFor cs
  let escaped (c : Char) : List Char :=
    if c.toNat < 0x7f then quoteChar q c else '\\' :: 'x' :: hexDigits 2 c.toNat
  'b' :: q :: cs.flatMap escaped ++ [q]

end Layering.Text

/-- A string as it is shown in a message. -/
def Layering.quote (s : String) : String := String.ofList (Text.quoted s.toList)
