import Layering.Decimal.Binary64

/-!
# The shortest decimal of a number

A number is written with the fewest digits that read back as it, and of the decimals of that length
with the one nearest to it. For one digit, two digits and so on, the two neighbours of the number on
the decimal grid of that many digits are tried in exact arithmetic; the first grid with a neighbour
inside the interval of reals that round to the number wins.
-/

namespace Layering.Decimal

/-- A decimal `0.d₁d₂… * 10 ^ point`, its digits given by a natural without trailing zeros. -/
structure Digits where
  digits : Nat
  point : Int
deriving DecidableEq, Repr

/-- The least power of ten above a ratio: the `k` with `10 ^ (k - 1) ≤ num / den < 10 ^ k`. -/
def scale (num den : Nat) : Int :=
  let k : Int := (Nat.toDigits 10 num).length - (Nat.toDigits 10 den).length
  if den * Nat.pow 10 k.toNat ≤ num * Nat.pow 10 (-k).toNat then k + 1 else k

/-- Whether `c * 10 ^ g` lies among the reals that round to `m * 2 ^ e`. The ends of the interval
belong to it when the mantissa is even, and the gap below a power of two is half as wide. -/
def readsBack (m : Nat) (e : Int) (c : Nat) (g : Int) : Bool :=
  let low := if m = Nat.pow 2 52 ∧ e > -1074 then 4 * m - 1 else 4 * m - 2
  let high := 4 * m + 2
  let q := e - 2
  let size := c * Nat.pow 10 g.toNat * Nat.pow 2 (-q).toNat
  let unit := Nat.pow 2 q.toNat * Nat.pow 10 (-g).toNat
  if m % 2 = 0 then low * unit ≤ size && size ≤ high * unit
  else low * unit < size && size < high * unit

/-- The neighbour of `m * 2 ^ e` on the grid of the multiples of `10 ^ g` that reads back, the nearer
one when both do and the even one when both are as near. -/
def onGrid? (m : Nat) (e g : Int) : Option Nat :=
  let num := m * Nat.pow 2 e.toNat * Nat.pow 10 (-g).toNat
  let den := Nat.pow 2 (-e).toNat * Nat.pow 10 g.toNat
  let below := num / den
  match readsBack m e below g, readsBack m e (below + 1) g with
  | true, true => some (roundDiv num den)
  | true, false => some below
  | false, true => some (below + 1)
  | false, false => none

/-- Moves the zeros at the end of the digits into the power of ten; `fuel` bounds their number. -/
def dropZeros : (fuel : Nat) → Nat → Nat
  | 0, n => n
  | fuel + 1, n => if n % 10 = 0 ∧ n ≠ 0 then dropZeros fuel (n / 10) else n

/-- The shortest decimal of `m * 2 ^ e`, for a mantissa other than zero. Should no grid of up to
seventeen digits do, the seventeen digits at or below the number are given. -/
def shortest (m : Nat) (e : Int) : Digits :=
  let (num, den) := Binary64.ratio m e
  let k := scale num den
  let grids := (List.range 17).map fun (n : Nat) => k - ((n + 1 : Nat) : Int)
  let found := grids.findSome? fun g => (onGrid? m e g).map (·, g)
  let last := (num * Nat.pow 10 (17 - k).toNat) / (den * Nat.pow 10 (k - 17).toNat)
  let (c, g) := found.getD (last, k - 17)
  ⟨dropZeros 20 c, (Nat.toDigits 10 c).length + g⟩

/-- The text of a decimal: positional when the point stands at most three places before the digits
and at most sixteen after the first, otherwise with a signed exponent of two digits or more. -/
def Digits.text (d : Digits) : List Char :=
  let ds := Nat.toDigits 10 d.digits
  if d.point ≤ -4 ∨ d.point > 16 then
    let e := d.point - 1
    let es := Nat.toDigits 10 e.natAbs
    let mantissa := match ds with
      | [] => []
      | [c] => [c]
      | c :: rest => c :: '.' :: rest
    mantissa ++ ['e', if e < 0 then '-' else '+'] ++ List.replicate (2 - es.length) '0' ++ es
  else if d.point ≤ 0 then
    '0' :: '.' :: List.replicate (-d.point).toNat '0' ++ ds
  else
    let p := d.point.toNat
    if ds.length ≤ p then ds ++ List.replicate (p - ds.length) '0' ++ ['.', '0']
    else ds.take p ++ '.' :: ds.drop p

/-- A number as it is shown in messages and reports. -/
def Binary64.text : Binary64 → List Char
  | .finite negative m e =>
    (if negative then ['-'] else []) ++ (if m = 0 then ['0', '.', '0'] else (shortest m e).text)
  | .infinite negative => (if negative then ['-'] else []) ++ ['i', 'n', 'f']
  | .nan _ => ['n', 'a', 'n']

end Layering.Decimal
