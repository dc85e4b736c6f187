/-!
  Shortest decimal digits of a double.

  * `BinaryFloat.ofBits`: what a 64-bit pattern encodes, a finite value being
    `mantissa · 2 ^ exponent`.
  * `Decimal.shortest`: the decimal `digits · 10 ^ exponent` with the fewest
    significant digits that reads back as the given finite double, the nearest
    to it of those.

  The rounding interval of a value `m · 2 ^ q` is measured in units of
  `2 ^ (q - 2)`: the value is `4m`, its upper end `4m + 2` and its lower end
  `4m - 2` (or `4m - 1` when the next smaller double has a finer spacing).
  Both ends belong to it iff `m` is even, because a halfway text reads back
  as the even neighbour. On the grid of multiples of `10 ^ i` only the two
  neighbours of the value can be the nearest point in the interval, and the
  first grid, from coarse to fine, that has one gives the fewest digits.
-/

namespace OverlapLayout

/-- What a 64-bit pattern encodes. -/
inductive BinaryFloat
  /-- Not a number; the sign bit is kept. -/
  | nan (negative : Bool)
  /-- An infinity. -/
  | infinite (negative : Bool)
  /-- The value `± mantissa · 2 ^ exponent`; zero has mantissa 0. -/
  | finite (negative : Bool) (mantissa : Nat) (exponent : Int)
  deriving Repr, DecidableEq

namespace BinaryFloat

/-- Decodes sign, biased exponent and fraction of a double's bit pattern. -/
def ofBits (bits : UInt64) : BinaryFloat :=
  let n := bits.toNat
  let negative := decide (Nat.pow 2 63 ≤ n)
  let biased : Nat := n / Nat.pow 2 52 % Nat.pow 2 11
  let fraction : Nat := n % Nat.pow 2 52
  if biased = 2047 then
    if fraction = 0 then .infinite negative else .nan negative
  else if biased = 0 then .finite negative fraction (-1074)
  else .finite negative (fraction + Nat.pow 2 52) ((biased : Int) - 1075)

/-- What a double encodes. -/
def ofFloat (x : Float) : BinaryFloat := ofBits x.toBits

end BinaryFloat

/-- A decimal number `digits · 10 ^ exponent`. -/
structure Decimal where
  /-- The significant digits, as a number. -/
  digits : Nat
  /-- The power of ten of the last digit. -/
  exponent : Int
  deriving Repr, DecidableEq

namespace Decimal

/-- Number of decimal digits of `n`; zero has one. -/
def digitCount (n : Nat) : Nat := (Nat.toDigits 10 n).length

/-- Factors `(num, den)` with `x · 2 ^ (q - 2) = (x · num / den) · 10 ^ i`. -/
def gridScale (q i : Int) : Nat × Nat :=
  (Nat.pow 2 (q - 2).toNat * Nat.pow 10 (-i).toNat,
    Nat.pow 2 (2 - q).toNat * Nat.pow 10 i.toNat)

/-- The point of the grid `num / den` that lies in the interval `lo .. hi` around
`v` (ends included iff `closed`) and is nearest to `v`; a tie goes to the even
multiple. Only the two neighbours of `v` can be that point. -/
def nearestOnGrid (lo v hi : Nat) (closed : Bool) (num den : Nat) : Option Nat :=
  let inside (k : Nat) : Bool :=
    (if closed then lo * num ≤ k * den else lo * num < k * den) &&
      (if closed then k * den ≤ hi * num else k * den < hi * num)
  let below := v * num / den
  let above := below + 1
  match inside below, inside above with
  | true, true =>
    let dBelow := v * num - below * den
    let dAbove := above * den - v * num
    if dBelow < dAbove then some below
    else if dAbove < dBelow then some above
    else if below % 2 = 0 then some below else some above
  | true, false => some below
  | false, true => some above
  | false, false => none

/-- The largest `i` with `10 ^ i ≤ num / den`, for positive `num` and `den`. -/
def floorLog10 (num den : Nat) : Int :=
  if den ≤ num then (digitCount (num / den) : Int) - 1
  else
    let j := digitCount den - digitCount num
    if den ≤ num * Nat.pow 10 j then -(j : Int) else -((j + 1 : Nat) : Int)

/-- Scans the grids `10 ^ i`, `10 ^ (i - 1)`, … for the first that has a point in
the interval; `fuel` bounds the number of grids. -/
def scanGrids (lo v hi : Nat) (closed : Bool) (q : Int) : Nat → Int → Option Decimal
  | 0, _ => none
  | fuel + 1, i =>
    let (num, den) := gridScale q i
    match nearestOnGrid lo v hi closed num den with
    | some k => some ⟨k, i⟩
    | none => scanGrids lo v hi closed q fuel (i - 1)

/-- The exact decimal value of `m · 2 ^ q`: for negative `q` it lies on the grid
`10 ^ q`, since `2 ^ q = 5 ^ (-q) · 10 ^ q`. -/
def exact (m : Nat) (q : Int) : Decimal :=
  if 0 ≤ q then ⟨m * Nat.pow 2 q.toNat, 0⟩ else ⟨m * Nat.pow 5 (-q).toNat, q⟩

/-- Removes trailing zeros of the digits, raising the exponent. -/
def normalize (d : Decimal) : Decimal :=
  go d.digits.log2 d
where
  go : Nat → Decimal → Decimal
    | 0, d => d
    | fuel + 1, d =>
      if d.digits ≠ 0 ∧ d.digits % 10 = 0 then go fuel ⟨d.digits / 10, d.exponent + 1⟩ else d

/-- The shortest decimal that reads back as the positive double `m · 2 ^ q`
whose lower neighbour is `lowerGap` quarter units away (2, or 1 at a power of
two above the least exponent). Seventeen significant digits always suffice, so
the scan from the coarsest grid below the upper end finds it within its fuel. -/
def shortestPositive (m : Nat) (q : Int) (lowerGap : Nat) : Decimal :=
  let v := 4 * m
  let lo := v - lowerGap
  let hi := v + 2
  let (num, den) := gridScale q 0
  let top := floorLog10 (hi * num) den
  match scanGrids lo v hi (m % 2 == 0) q 40 top with
  | some d => d
  | none => normalize (exact m q)

/-- The shortest decimal of a finite double `± m · 2 ^ q` (sign aside); zero is `0`. -/
def shortest (m : Nat) (q : Int) : Decimal :=
  if m = 0 then ⟨0, 0⟩
  else
    let lowerGap := if m = Nat.pow 2 52 ∧ q > -1074 then 1 else 2
    shortestPositive m q lowerGap

end Decimal

end OverlapLayout
