import Layering.Text.Number
import Layering.Yaml.Time

/-!
# Tags

The tag of a node says what kind of value it is. A scalar without a tag gets one by its text, when it is
plain: null, truth values, numbers, dates and times are told by their form, and all else is text.
-/

namespace Layering.Yaml

open Text

/-- The kind of value that a node is. -/
inductive Tag where
  | null
  | bool
  | int
  | float
  | str
  | binary
  | timestamp
  | seq
  | map
  /-- A sequence of mappings with one entry, each with its own key. -/
  | omap
  /-- A sequence of mappings with one entry. -/
  | pairs
  /-- The keys of a mapping. -/
  | set
  /-- A key that takes over the entries of other mappings. -/
  | merge
  /-- A key that stands for the value of its mapping. -/
  | value
  | unknown (name : String)
deriving DecidableEq, Repr

namespace Tag

/-- The names of the known tags. -/
def known : List (String × Tag) :=
  [("null", null), ("bool", bool), ("int", int), ("float", float), ("str", str),
   ("binary", binary), ("timestamp", timestamp), ("seq", seq), ("map", map), ("omap", omap),
   ("pairs", pairs), ("set", set), ("merge", merge), ("value", value)]

/-- What the names of the known tags begin with. -/
def authority : String := "tag:yaml.org,2002:"

/-- The tag with a name. -/
def ofName (name : String) : Tag :=
  ((known.map fun (n, t) => (authority ++ n, t)).lookup name).getD (unknown name)

/-! ## Plain scalars -/

/-- The spellings of null. -/
def nullWords : List String := ["", "~", "null", "Null", "NULL"]

/-- The spellings of the truth values. -/
def boolWords : List String :=
  ["yes", "Yes", "YES", "no", "No", "NO", "true", "True", "TRUE", "false", "False", "FALSE",
   "on", "On", "ON", "off", "Off", "OFF"]

/-- The signs that are no text by themselves. -/
def signWords : List String := ["!", "&", "*"]

/-- Whether a character is a digit or an underscore. -/
def isLooseDigit (c : Char) : Bool := c.isDigit || c = '_'

/-- Whether a text is a digit, of which `first` tells which may come first, with digits and
underscores after it. -/
def isLooseNumber (first : Char → Bool) : List Char → Bool
  | [] => false
  | c :: s => c.isDigit && first c && s.all isLooseDigit

/-- Whether a text is a number below sixty, of one or two digits. -/
def isSixtieth : List Char → Bool
  | [d] => d.isDigit
  | [t, d] => t.isDigit && t ≤ '5' && d.isDigit
  | _ => false

/-- Whether a text is nonempty and all its characters satisfy `p`. -/
def isRun (p : Char → Bool) (s : List Char) : Bool := !s.isEmpty && s.all p

/-- Whether a text is an integer: binary, octal, hexadecimal, decimal or in base sixty. -/
def isInt (s : List Char) : Bool :=
  match (splitSign s).2 with
  | ['0'] => true
  | '0' :: 'b' :: r => isRun (fun c => c = '0' || c = '1' || c = '_') r
  | '0' :: 'x' :: r => isRun (fun c => (digitIn? 16 c).isSome || c = '_') r
  | '0' :: r => isRun (fun c => (digitIn? 8 c).isSome || c = '_') r
  | r =>
    match r.splitOn ':' with
    | [] => false
    | whole :: parts => isLooseNumber (· ≠ '0') whole && parts.all isSixtieth

/-- Whether a text is empty or an exponent, which has a sign. -/
def isExponent : List Char → Bool
  | [] => true
  | e :: sign :: r => (e = 'e' || e = 'E') && (sign = '+' || sign = '-') && isRun Char.isDigit r
  | _ => false

/-- Whether a text is a decimal fraction: it has a point, and an exponent has a sign. -/
def isFloat (s : List Char) : Bool :=
  let unsigned := (splitSign s).2
  let (whole, r) := unsigned.span (· ≠ '.')
  match r with
  | [] => false
  | _ :: r =>
    let (fraction, exponent) := r.span isLooseDigit
    if whole.isEmpty then
      let word := String.ofList r
      (isLooseNumber (fun _ => true) fraction && isExponent exponent && s = unsigned) ||
        word = "inf" || word = "Inf" || word = "INF" ||
        (s = unsigned && (word = "nan" || word = "NaN" || word = "NAN"))
    else if whole.contains ':' then
      match whole.splitOn ':' with
      | [] => false
      | first :: parts =>
        isLooseNumber (fun _ => true) first && parts.all isSixtieth && exponent.isEmpty
    else isLooseNumber (fun _ => true) whole && isExponent exponent

/-- The tag of a plain scalar. One end of line at its end does not count. -/
def ofText (text : String) : Tag :=
  let s := text.toList
  let s := if 1 < s.length && s.getLast? == some '\n' then s.dropLast else s
  let word := String.ofList s
  if nullWords.contains word then null
  else if boolWords.contains word then bool
  else if isFloat s then float
  else if isInt s then int
  else if word = "<<" then merge
  else if TimeFields.isTime s then timestamp
  else if word = "=" then value
  else if signWords.contains word then unknown (authority ++ "yaml")
  else str

end Tag

end Layering.Yaml
