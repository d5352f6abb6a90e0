import Layering.Text.Base64
import Layering.Text.Lowercase
import Layering.Value.Basic
import Layering.Yaml.Fault
import Layering.Yaml.Tag

/-!
# Values of scalars

What a scalar with a tag stands for. Underscores in numbers do not count, and parts between colons are
in base sixty.
-/

namespace Layering.Yaml

open Decimal Text

/-- Reads a truth value. -/
def readBool (text : List Char) : Except Fault Bool :=
  let word := String.ofList (lower text)
  if ["yes", "true", "on"].contains word then .ok true
  else if ["no", "false", "off"].contains word then .ok false
  else .error .noTruthValue

/-- Reads an integer in a base. -/
def readIn (base : Nat) (s : List Char) : Except Fault Int :=
  match readInteger base s with
  | .ok n => .ok n
  | .error .malformed => .error (.integer base (String.ofList s))
  | .error (.tooManyDigits n) => .error (.longInteger n)

/-- Reads an integer without its sign. A zero in front marks the base. -/
def readUnsigned (s : List Char) : Except Fault Int :=
  match s with
  | [] => .error .noDigits
  | ['0'] => .ok 0
  | '0' :: 'b' :: r => readIn 2 r
  | '0' :: 'x' :: r => readIn 16 r
  | '0' :: _ => readIn 8 s
  | _ =>
    if s.contains ':' then do
      let parts ← (s.splitOn ':').mapM (readIn 10)
      return parts.foldl (fun n d => n * 60 + d) 0
    else readIn 10 s

/-- Reads an integer. -/
def readInt (text : List Char) : Except Fault Int := do
  match text.filter (· ≠ '_') with
  | [] => throw .noDigits
  | s =>
    let (negative, s) := splitSign s
    let n ← readUnsigned s
    return if negative then -n else n

/-- Reads a decimal fraction without its sign. -/
def readFraction (s : List Char) : Except Fault Binary64 :=
  match decimal? s with
  | some x => .ok x
  | none => .error (.decimal (String.ofList s))

/-- Adds parts in base sixty to a sum, the last part first, where the next part is worth `base`. -/
def addSixtieths (sum : Binary64) (base : Nat) : List Binary64 → Except Fault Binary64
  | [] => .ok sum
  | d :: ds =>
    match Binary64.ofInt base with
    | .infinite _ => .error .hugeFraction
    | b => addSixtieths (sum.add (d.mul b)) (base * 60) ds

/-- Reads a decimal fraction. What is no number gets a payload, unless it is spelled as such. -/
def readFloat (payload : Nat) (text : List Char) : Except Fault Binary64 := do
  match lower (text.filter (· ≠ '_')) with
  | [] => throw .noDigits
  | s =>
    let (negative, s) := splitSign s
    if s = ".nan".toList then return .nan 0
    let x ←
      if s = ".inf".toList then .ok (.infinite false)
      else if s.contains ':' then do
        addSixtieths (.zero false) 1 (← (s.splitOn ':').mapM readFraction).reverse
      else readFraction s
    return match x with
      | .nan _ => .nan payload
      | x => if negative then x.neg else x

/-- Reads bytes in base 64. -/
def readBytes (text : List Char) : Except Fault (List UInt8) :=
  if text.all (·.toNat < 128) then
    match Base64.decodeLoose? Base64.standard text with
    | some bs => .ok bs
    | none => .error .malformed
  else .error .malformed

/-- Reads a date or a time. -/
def readTime (text : List Char) : Except Fault Scalar :=
  let s := if text.getLast? == some '\n' then text.dropLast else text
  match TimeFields.read? s with
  | none => .error .noTime
  | some f =>
    match f.clock with
    | none =>
      match Date.ofFields f.year f.month f.day with
      | .ok d => .ok (.date d)
      | .error e => .error (.calendar e)
    | some c =>
      match Timestamp.ofFields f.year f.month f.day c.hour c.minute c.second c.microsecond c.offset with
      | .ok t => .ok (.time t)
      | .error e => .error (.calendar e)

end Layering.Yaml
