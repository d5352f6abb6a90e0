/-!
# Binary64 numbers

The 64-bit floating-point numbers, as exact data: a finite number is a sign, a mantissa and a power
of two. A ratio of naturals is rounded to the nearest of them, a half to the even mantissa, so
reading a decimal and doing arithmetic both come down to `Binary64.ofRatio`.
-/

namespace Layering.Decimal

/-- The quotient rounded to the nearest natural, a half to the even one. -/
def roundDiv (num den : Nat) : Nat :=
  let q := num / den
  let r := num % den
  if 2 * r < den then q
  else if den < 2 * r then q + 1
  else if q % 2 = 0 then q else q + 1

/-- A 64-bit floating-point number. A finite one is `± mantissa * 2 ^ exponent`, the exponent being
the least one, not below `-1074`, with which the mantissa stays below `2 ^ 53`. What is no number has a
payload, by which those that arose apart can be told apart. -/
inductive Binary64 where
  | finite (negative : Bool) (mantissa : Nat) (exponent : Int)
  | infinite (negative : Bool)
  | nan (payload : Nat)
deriving DecidableEq, Repr

namespace Binary64

/-- The zero of a sign. -/
def zero (negative : Bool) : Binary64 := .finite negative 0 (-1074)

/-- The number nearest to `± num / den`. -/
def ofRatio (negative : Bool) (num den : Nat) : Binary64 :=
  if num = 0 then zero negative
  else
    let d : Int := (num.log2 : Int) - den.log2
    -- the power of two at or below the ratio is `2 ^ d` or `2 ^ (d - 1)`
    let reaches := den * Nat.pow 2 d.toNat ≤ num * Nat.pow 2 (-d).toNat
    let exponent := max ((if reaches then d else d - 1) - 52) (-1074)
    let mantissa := roundDiv (num * Nat.pow 2 (-exponent).toNat) (den * Nat.pow 2 exponent.toNat)
    let (mantissa, exponent) :=
      if mantissa = Nat.pow 2 53 then (Nat.pow 2 52, exponent + 1) else (mantissa, exponent)
    if exponent > 971 then .infinite negative else .finite negative mantissa exponent

/-- The number nearest to `± digits * 10 ^ exponent`. Powers far outside the range are not
computed. -/
def ofDecimal (negative : Bool) (digits : Nat) (exponent : Int) : Binary64 :=
  let top : Int := (Nat.toDigits 10 digits).length + exponent
  if digits = 0 ∨ top < -340 then zero negative
  else if top > 320 then .infinite negative
  else ofRatio negative (digits * Nat.pow 10 exponent.toNat) (Nat.pow 10 (-exponent).toNat)

/-- The number nearest to an integer. -/
def ofInt (n : Int) : Binary64 := ofRatio (n < 0) n.natAbs 1

/-- The size of a finite number as a ratio of naturals. -/
def ratio (mantissa : Nat) (exponent : Int) : Nat × Nat :=
  (mantissa * Nat.pow 2 exponent.toNat, Nat.pow 2 (-exponent).toNat)

/-- A number as a ratio with a sign. One that is infinite has the denominator zero, and what is no number
has both zero. -/
def signedRatio : Binary64 → Int × Nat
  | .finite negative mantissa exponent =>
    let (num, den) := ratio mantissa exponent
    (if negative then -(num : Int) else num, den)
  | .infinite negative => (if negative then -1 else 1, 0)
  | .nan _ => (0, 0)

/-- The integer that a number is equal to, if there is one. -/
def toInt? : Binary64 → Option Int
  | .finite negative mantissa exponent =>
    let (num, den) := ratio mantissa exponent
    if num % den = 0 then some (if negative then -((num / den : Nat) : Int) else (num / den : Nat))
    else none
  | _ => none

/-- The integer part of a finite number: its fraction is cut off. -/
def truncate? : Binary64 → Option Int
  | .finite negative mantissa exponent =>
    let (num, den) := ratio mantissa exponent
    some (if negative then -((num / den : Nat) : Int) else (num / den : Nat))
  | _ => none

/-- Whether a number is a zero of either sign. -/
def isZero : Binary64 → Bool
  | .finite _ mantissa _ => mantissa == 0
  | _ => false

/-- Whether two numbers are equal: the two zeros are, and the number that is none equals nothing. -/
def equals : Binary64 → Binary64 → Bool
  | .nan _, _ => false
  | _, .nan _ => false
  | x, y => (x.isZero && y.isZero) || decide (x = y)

/-- The sum of two finite numbers, as a signed ratio. -/
def addFinite (s₁ : Bool) (m₁ : Nat) (e₁ : Int) (s₂ : Bool) (m₂ : Nat) (e₂ : Int) : Binary64 :=
  let e := min e₁ e₂
  let a : Int := m₁ * Nat.pow 2 (e₁ - e).toNat
  let b : Int := m₂ * Nat.pow 2 (e₂ - e).toNat
  let sum := (if s₁ then -a else a) + (if s₂ then -b else b)
  if sum = 0 then zero (s₁ && s₂)
  else
    let (num, den) := ratio sum.natAbs e
    ofRatio (sum < 0) num den

/-- The sum, rounded to the nearest number. -/
def add : Binary64 → Binary64 → Binary64
  | .finite s₁ m₁ e₁, .finite s₂ m₂ e₂ => addFinite s₁ m₁ e₁ s₂ m₂ e₂
  | .infinite s, .infinite t => if s = t then .infinite s else .nan 0
  | .infinite s, .finite .. => .infinite s
  | .finite .., .infinite s => .infinite s
  | _, _ => .nan 0

/-- The product, rounded to the nearest number. -/
def mul : Binary64 → Binary64 → Binary64
  | .finite s₁ m₁ e₁, .finite s₂ m₂ e₂ =>
    let (num, den) := ratio (m₁ * m₂) (e₁ + e₂)
    ofRatio (s₁ != s₂) num den
  | .infinite s, .infinite t => .infinite (s != t)
  | .infinite s, .finite t m _ => if m = 0 then .nan 0 else .infinite (s != t)
  | .finite t m _, .infinite s => if m = 0 then .nan 0 else .infinite (s != t)
  | _, _ => .nan 0

/-- The number with the other sign. -/
def neg : Binary64 → Binary64
  | .finite s m e => .finite (!s) m e
  | .infinite s => .infinite (!s)
  | .nan p => .nan p

end Binary64

end Layering.Decimal
