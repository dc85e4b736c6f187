/-!
  Reading a decimal into a double by scaling.

  `Decimal.readScaled` reads `± digits · 10 ^ exponent` the way a scaling
  reader does: the leading digits that fit in a 64-bit word are kept, the
  rest dropped (the kept ones keep their places), the word is converted to
  the nearest double, and that double is multiplied or divided once by the
  double nearest to the power of ten. This is not always the nearest double
  to the decimal: `495.90000000000003` reads as `495.9`, since its seventeen
  digits already round to `49590000000000000` as a double.

  Powers beyond `10 ^ 308` are reached by first dividing by `1e308`; a
  product that overflows is refused.

  * `Decimal.Numeral.read?`: the parts of a numeral written with digits, an
    optional point and an optional exponent.
  * `Decimal.Numeral.scaled`: a numeral read by `readScaled`.
  * `Decimal.Numeral.nearest`: a numeral read as the nearest double.
  * `Decimal.readText?`: the text of a double: a sign, then a numeral or
    `inf`, `infinity`, `nan` in any case.
-/

namespace OverlapLayout

namespace Decimal

/-- The leading digits of `n` that fit in a 64-bit word, read from the left, and
the number of digits dropped after them. -/
def leadingWord (n : Nat) : Nat × Nat :=
  (Nat.toDigits 10 n).foldl (fun (word, dropped) c =>
    if 0 < dropped then (word, dropped + 1)
    else
      let v := word * 10 + (c.toNat - '0'.toNat)
      if v < Nat.pow 2 64 then (v, 0) else (word, 1)) (0, 0)

/-- `x · 10 ^ e` by one multiplication or division by the double nearest to the
power of ten, dividing by `1e308` first while the power is beyond it; `none`
when a product overflows or a nonzero `x` is scaled beyond `10 ^ 308`. -/
def scaleByPowerOfTen (x : Float) (e : Int) : Option Float :=
  if e.natAbs ≤ 308 then
    let p := Float.ofScientific 1 false e.natAbs
    if 0 ≤ e then
      let y := x * p
      if y.isInf then none else some y
    else some (x / p)
  else if x == 0 then some x
  else if 0 ≤ e then none
  else scaleByPowerOfTen (x / Float.ofScientific 1 false 308) (e + 308)
termination_by e.natAbs
decreasing_by omega

/-- Reads `± digits · 10 ^ exponent` by scaling its leading word of digits. -/
def readScaled (negative : Bool) (digits : Nat) (exponent : Int) : Option Float :=
  let (word, dropped) := leadingWord digits
  (scaleByPowerOfTen (Float.ofNat word) (exponent + dropped)).map fun f => if negative then -f else f

/-- An unsigned decimal numeral: its digits as one number and the power of ten
that scales them. -/
structure Numeral where
  /-- The digits before and after the point, as one number. -/
  digits : Nat
  /-- The power of ten of the last digit. -/
  exponent : Int
  deriving Repr, DecidableEq

/-- The leading decimal digits of `cs`: their value, their count and the rest. -/
def digitRun (cs : List Char) : Nat × Nat × List Char :=
  let ds := cs.takeWhile Char.isDigit
  (ds.foldl (fun n c => 10 * n + (c.toNat - '0'.toNat)) 0, ds.length, cs.drop ds.length)

/-- A leading sign: whether it is `-`, and the rest. -/
def sign (cs : List Char) : Bool × List Char :=
  match cs with
  | '-' :: rest => (true, rest)
  | '+' :: rest => (false, rest)
  | cs => (false, cs)

/-- Reads a numeral filling all of `cs`: digits with an optional point, at least
one digit on either side of it, then optionally `e` or `E`, a sign and at least
one digit. -/
def Numeral.read? (cs : List Char) : Option Numeral :=
  let (whole, wholeCount, cs) := digitRun cs
  let (fraction, fractionCount, cs) := match cs with
    | '.' :: rest => digitRun rest
    | cs => (0, 0, cs)
  let digits := whole * Nat.pow 10 fractionCount + fraction
  if wholeCount + fractionCount = 0 then none
  else match cs with
    | [] => some ⟨digits, -(fractionCount : Int)⟩
    | c :: rest =>
      if c == 'e' || c == 'E' then
        let (negative, rest) := sign rest
        let (power, count, rest) := digitRun rest
        if count = 0 || !rest.isEmpty then none
        else some ⟨digits, (if negative then -(power : Int) else power) - fractionCount⟩
      else none

/-- The numeral read by scaling its leading word (`readScaled`). -/
def Numeral.scaled (n : Numeral) (negative : Bool) : Option Float :=
  readScaled negative n.digits n.exponent

/-- The nearest double to the numeral, ties to even. A numeral of `d` digits lies
in `[10 ^ (d - 1 + e), 10 ^ (d + e))`: from point position 310 on it is past the
largest double, and below -330 under half the least one, so those are not
computed. -/
def Numeral.nearest (n : Numeral) : Float :=
  let point := ((Nat.toDigits 10 n.digits).length : Int) + n.exponent
  if n.digits = 0 || point < -330 then 0
  else if 310 < point then Float.ofBits 0x7FF0000000000000
  else Float.ofScientific n.digits (n.exponent < 0) n.exponent.natAbs

/-- Reads the text of a double: an optional sign, then `inf`, `infinity` or `nan`
in any case, or a numeral (`Numeral.read?`) read as the nearest double. -/
def readText? (s : String) : Option Float :=
  let (negative, cs) := sign s.toList
  let word := String.ofList (cs.map Char.toLower)
  let x? :=
    if word == "inf" || word == "infinity" then some (Float.ofBits 0x7FF0000000000000)
    else if word == "nan" then some (Float.ofBits 0x7FF8000000000000)
    else (Numeral.read? cs).map Numeral.nearest
  x?.map fun x => if negative then -x else x

end Decimal

end OverlapLayout
