import Layering.Text.Number
import Layering.Text.Quoted
import Layering.Value.Shown

/-!
# Why a document cannot be read

Most faults are faults of form. A document can also refer to its own parts too often, and a scalar can
fail to be what its tag says.
-/

namespace Layering

namespace Yaml

/-- The number of aliases that a document may hold. -/
def maxAliases : Nat := 100

/-- Why a document cannot be read. -/
inductive Fault where
  /-- The text is no document. -/
  | malformed
  /-- The document has more aliases than allowed. -/
  | tooManyAliases
  /-- A numbered character does not exist. -/
  | noSuchCharacter
  /-- The number of a character is not even a small integer. -/
  | hugeCharacter
  /-- An integer cannot be read in its base. -/
  | integer (base : Nat) (text : String)
  /-- An integer has too many digits. -/
  | longInteger (digits : Nat)
  /-- A decimal fraction cannot be read. -/
  | decimal (text : String)
  /-- A number in base sixty has a part that is worth more than any floating-point number. -/
  | hugeFraction
  /-- A collection lies too deep in others, or a scalar refers to itself. -/
  | tooDeep
  /-- A mapping stands where a time has to be read from a text. -/
  | noText
  /-- A number has no digits. -/
  | noDigits
  /-- A word is no truth value. -/
  | noTruthValue
  /-- A text has not the form of a time. -/
  | noTime
  /-- A date or a time does not exist. -/
  | calendar (e : CalendarError)
deriving DecidableEq, Repr

/-- The text of a fault. -/
def Fault.message : Fault → String
  | malformed => "<yaml error>"
  | tooManyAliases => s!"too many aliases (maximum {maxAliases})"
  | noSuchCharacter => "chr() arg not in range(0x110000)"
  | hugeCharacter => "character number too large"
  | integer base text =>
    let shown := String.ofList ((Text.quoted text.toList).take 200)
    s!"invalid literal for int() with base {base}: {shown}"
  | longInteger digits =>
    s!"Exceeds the limit ({Text.maxDigits} digits) for integer string conversion: " ++
      s!"value has {digits} digits; use sys.set_int_max_str_digits() to increase the limit"
  | decimal text => s!"could not convert string to float: {quote text}"
  | hugeFraction => "number too large"
  | tooDeep => "nested too deeply"
  | noText => "expected string or bytes-like object, got 'list'"
  | noDigits => "string index out of range"
  | noTruthValue => "unknown truth value"
  | noTime => "not a time"
  | calendar e => e.message

end Yaml

end Layering
