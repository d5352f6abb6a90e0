import Layering.Decimal.Binary64
import Layering.Text.Surrogate
import Layering.Value.Calendar

/-!
# Values

The data that configurations and analyses are made of: scalars, lists, maps from scalars to values, and
sets of scalars. A map keeps its entries in the order in which their keys were first written, and holds
one entry for each key; `1`, `1.0` and `true` are the same key.
-/

namespace Layering

open Decimal

/-- A value without parts. -/
inductive Scalar where
  | null
  | bool (b : Bool)
  | int (n : Int)
  | real (x : Binary64)
  | text (s : String)
  | bytes (bs : List UInt8)
  | date (d : Date)
  | time (t : Timestamp)
deriving DecidableEq, Repr

/-- A scalar, a list, a map, or a set. -/
inductive Value where
  | scalar (s : Scalar)
  | list (items : List Value)
  | map (entries : List (Scalar × Value))
  | set (members : List Scalar)
deriving Repr

namespace Scalar

/-- The integer that a truth value or an integer stands for. -/
def integer? : Scalar → Option Int
  | bool b => some (if b then 1 else 0)
  | int n => some n
  | _ => none

/-- Whether two scalars are the same key. Numbers and truth values are compared by value, and what is no
number is the same key as itself only. -/
def same : Scalar → Scalar → Bool
  | null, null => true
  | text s, text t => s == t
  | bytes s, bytes t => s == t
  | date d, date e => d == e
  | time s, time t => s.equals t
  | real x, real y => x.equals y || decide (x = y)
  | real x, y => match y.integer? with
    | some n => x.toInt? == some n
    | none => false
  | x, real y => match x.integer? with
    | some n => y.toInt? == some n
    | none => false
  | x, y => match x.integer?, y.integer? with
    | some m, some n => m == n
    | _, _ => false

/-- Whether a scalar is a text. -/
def isText : Scalar → Bool
  | text _ => true
  | _ => false

/-- Whether a scalar is a number or a truth value. -/
def isNumeric : Scalar → Bool
  | bool _ => true
  | int _ => true
  | real _ => true
  | _ => false

/-- The number that a number or a truth value stands for, as a ratio with a sign. -/
def signedRatio : Scalar → Int × Nat
  | real x => x.signedRatio
  | x => (x.integer?.getD 0, 1)

/-- Whether a text comes before another or is the same, and whether a number or a truth value is at most
another. -/
def le : Scalar → Scalar → Bool
  | text s, text t => Text.precedes s t
  | x, y =>
    let (a, b) := x.signedRatio
    let (c, d) := y.signedRatio
    if a.sign = c.sign then a * d ≤ c * b else a.sign ≤ c.sign

/-- Whether a scalar counts as true: all do but null, false, zero and the empty ones. -/
def isTruthy : Scalar → Bool
  | null => false
  | bool b => b
  | int n => n != 0
  | real x => !x.isZero
  | text s => s != ""
  | bytes bs => !bs.isEmpty
  | _ => true

end Scalar

namespace Value

/-- The missing value. -/
@[match_pattern] abbrev null : Value := .scalar .null

/-- A truth value. -/
@[match_pattern] abbrev bool (b : Bool) : Value := .scalar (.bool b)

/-- An integer. -/
@[match_pattern] abbrev int (n : Int) : Value := .scalar (.int n)

/-- A floating-point number. -/
@[match_pattern] abbrev real (x : Binary64) : Value := .scalar (.real x)

/-- A text. -/
@[match_pattern] abbrev str (s : String) : Value := .scalar (.text s)

/-- Whether a value counts as true: all do but null, false, zero and the empty ones. -/
def isTruthy : Value → Bool
  | .scalar s => s.isTruthy
  | .list items => !items.isEmpty
  | .map entries => !entries.isEmpty
  | .set members => !members.isEmpty

/-- The text that a value is, if it is one. -/
def text? : Value → Option String
  | .str s => some s
  | _ => none

/-- The items of a list. -/
def items? : Value → Option (List Value)
  | .list items => some items
  | _ => none

/-- The entries of a map. -/
def entries? : Value → Option (List (Scalar × Value))
  | .map entries => some entries
  | _ => none

/-- Whether a value is null. -/
def isNull : Value → Bool
  | .null => true
  | _ => false

end Value

namespace Entries

/-- The value under a key. -/
def get? (key : Scalar) (entries : List (Scalar × Value)) : Option Value :=
  (entries.find? fun e => e.1.same key).map (·.2)

/-- The value under a text. -/
def field? (name : String) (entries : List (Scalar × Value)) : Option Value :=
  get? (.text name) entries

/-- The value under a text, null when there is none. -/
def field (name : String) (entries : List (Scalar × Value)) : Value :=
  (field? name entries).getD .null

/-- Writes a value under a key: in the place of the entry that has the key, else at the end. -/
def insert {α : Type} (key : Scalar) (value : α) : List (Scalar × α) → List (Scalar × α)
  | [] => [(key, value)]
  | (k, v) :: rest => if k.same key then (k, value) :: rest else (k, v) :: insert key value rest

/-- The entries of a list of writes, made one after the other. -/
def ofList {α : Type} (writes : List (Scalar × α)) : List (Scalar × α) :=
  writes.foldl (fun es (k, v) => insert k v es) []

end Entries

namespace Value

/-- A map with texts as keys, which are taken to be different. -/
def record (fields : List (String × Value)) : Value :=
  .map (fields.map fun (k, v) => (.text k, v))

/-- The value under a text in a map, null when there is none or the value is no map. -/
def field (name : String) : Value → Value
  | .map entries => Entries.field name entries
  | _ => .null

end Value

end Layering
