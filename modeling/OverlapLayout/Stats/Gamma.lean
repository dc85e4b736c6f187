import OverlapLayout.Error
import OverlapLayout.Stats.Basic
/-!
  The regularized incomplete gamma functions and the χ² tail of two degrees.

  * `lnGamma`: `ln Γ(x)` for `x ≥ 1/2` by the Lanczos approximation with
    `r = 10.900511` and eleven coefficients.
  * `gammaLower` (`P(a, x)`) by its power series where `x ≤ max(1, a)`, and
    `gammaUpper` (`Q(a, x) = 1 - P(a, x)`) by its continued fraction above;
    each stops once a step changes the result by a relative `10⁻¹⁵` or less.
    A factor `e^(a ln x - x - ln Γ(a))` below `e^(-709.78…)` settles the value
    at 0 or 1.
  * `chiSquaredTwoTail x`: `P(X > x)` for two degrees of freedom, that is
    `Q(1, x / 2)`. `Q` is defined for positive arguments only, and half of the
    least positive double rounds to 0: that argument stops the computation.

  The iterations are bounded (`iterationLimit`); the series and the fraction
  converge long before for the arguments met here.
-/

namespace OverlapLayout

namespace Gamma

/-- The Lanczos parameter. -/
def lanczosR : Float := 10.900511

/-- The Lanczos coefficients. -/
def lanczosCoefficients : List Float :=
  [2.48574089138753565546e-5, 1.05142378581721974210, -3.45687097222016235469,
   4.51227709466894823700, -2.98285225323576655721, 1.05639711577126713077,
   -1.95428773191645869583e-1, 1.70970543404441224307e-2, -5.71926117404305781283e-4,
   4.63399473359905636708e-6, -2.71994908488607703910e-9]

/-- `ln (2 √(e / π))`. -/
def lnTwoSqrtEOverPi : Float := 0.6207822376352452223455184457816472122518527279025978

/-- Euler's number. -/
def euler : Float := 2.718281828459045

/-- `ln Γ(x)` for `x ≥ 1/2`. -/
def lnGamma (x : Float) : Float :=
  let s := (lanczosCoefficients.drop 1).zipIdx.foldl
    (fun s (c, i) => s + c / (x + (i + 1 : Nat).toFloat - 1)) (lanczosCoefficients.headD 0)
  s.log + lnTwoSqrtEOverPi + (x - 0.5) * ((x - 0.5 + lanczosR) / euler).log

/-- Relative change at which the iterations stop. -/
def tolerance : Float := 0.000000000000001

/-- Magnitude at which the continued fraction is rescaled. -/
def big : Float := 4503599627370496

/-- The inverse of `big`. -/
def bigInverse : Float := 2.22044604925031308085e-16

/-- The most steps an iteration takes. -/
def iterationLimit : Nat := 100000

/-- The log of `x ^ a e ^ (-x) / Γ(a)`. -/
def logFactor (a x : Float) : Float := a * x.log - x - lnGamma a

/-- The power series `1 + x / (a + 1) + x² / ((a + 1)(a + 2)) + …`, summed until a
term is at most `tolerance` of the sum. -/
def series (a x : Float) : Float :=
  go iterationLimit a 1 1
where
  go : Nat → Float → Float → Float → Float
    | 0, _, _, sum => sum
    | fuel + 1, r, c, sum =>
      let r := r + 1
      let c := c * (x / r)
      let sum := sum + c
      if c / sum ≤ tolerance then sum else go fuel r c sum

/-- The continued fraction of `Q(a, x) / factor`, by the convergents `p / q` with
rescaling of large terms. -/
def continuedFraction (a x : Float) : Float :=
  let y := 1 - a
  let z := x + y + 1
  go iterationLimit y z 0 1 x (x + 1) (z * x) ((x + 1) / (z * x))
where
  go : Nat → Float → Float → Float → Float → Float → Float → Float → Float → Float
    | 0, _, _, _, _, _, _, _, ans => ans
    | fuel + 1, y, z, c, pkm2, qkm2, pkm1, qkm1, ans =>
      let y := y + 1
      let z := z + 2
      let c := c + 1
      let yc := y * c
      let pk := pkm1 * z - pkm2 * yc
      let qk := qkm1 * z - qkm2 * yc
      let (pkm2, pkm1, qkm2, qkm1) :=
        if big < pk.abs then (pkm1 * bigInverse, pk * bigInverse, qkm1 * bigInverse, qk * bigInverse)
        else (pkm1, pk, qkm1, qk)
      if qk != 0 then
        let r := pk / qk
        let t := ((ans - r) / r).abs
        if t ≤ tolerance then r else go fuel y z c pkm2 qkm2 pkm1 qkm1 r
      else go fuel y z c pkm2 qkm2 pkm1 qkm1 ans

/-- The regularized lower incomplete gamma function `P(a, x)`, for `a > 0`. -/
def lower (a x : Float) : Float :=
  if x.isNaN then x
  else if x.abs < tolerance then 0
  else
    let ax := logFactor a x
    if ax < -709.78271289338399 then (if a < x then 1 else 0)
    else if x ≤ 1 || x ≤ a then ax.exp * series a x / a
    else 1 - ax.exp * continuedFraction a x

/-- The regularized upper incomplete gamma function `Q(a, x) = 1 - P(a, x)`, for `a > 0`. -/
def upper (a x : Float) : Float :=
  if x.isNaN then x
  else if x < 1 || x ≤ a then 1 - lower a x
  else
    let ax := logFactor a x
    if ax < -709.78271289338399 then (if a < x then 0 else 1)
    else continuedFraction a x * ax.exp

end Gamma

/-- `P(X > x)` for `X` χ²-distributed with two degrees of freedom: 1 at or below
0, 0 at infinity, else `Q(1, x / 2)`, refused where `x / 2` rounds to 0. -/
def chiSquaredTwoTail (x : Float) : Except Panic Float :=
  if x ≤ 0 then pure 1
  else if x.isInf then pure 0
  else
    let half := x * 0.5
    if half ≤ 0 then throw .gammaArgumentNotPositive
    else pure (Gamma.upper 1 half)

end OverlapLayout
