/-!
  Floating-point helpers shared by the statistics.

  * `Float.maxNum`, `Float.minNum`: the larger and smaller of two doubles,
    where a NaN gives way to the other argument (IEEE 754 `maxNum`, `minNum`).
  * `Float.toWord`: the nearest-below natural number of a double, saturating:
    NaN and negatives give 0, values past `2 ^ 64 - 1` give `2 ^ 64 - 1`.
  * `Float.horner`: a polynomial given by its coefficients, lowest first.
-/

namespace Float

/-- The larger of two doubles; a NaN gives way to the other argument, and of two
equal ones (such as `0.0` and `-0.0`) the second is taken. -/
def maxNum (a b : Float) : Float :=
  if a.isNaN then b else if b.isNaN then a else if b < a then a else b

/-- The smaller of two doubles; a NaN gives way to the other argument, and of two
equal ones (such as `0.0` and `-0.0`) the second is taken. -/
def minNum (a b : Float) : Float :=
  if a.isNaN then b else if b.isNaN then a else if a < b then a else b

/-- The integral part of a double as a 64-bit natural number, saturating at both ends. -/
def toWord (x : Float) : Nat := x.toUInt64.toNat

/-- Evaluates `c₀ + z (c₁ + z (c₂ + …))` from the highest coefficient down. -/
def horner (z : Float) (cs : List Float) : Float :=
  match cs.reverse with
  | [] => 0
  | top :: rest => rest.foldl (fun acc c => c + z * acc) top

end Float
