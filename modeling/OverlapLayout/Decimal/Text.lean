import OverlapLayout.Decimal.Shortest
/-!
  Text of a double in the three styles this library writes.

  * `FloatStyle`: where positional notation ends, whether an integral value
    keeps `.0`, and the texts of NaN and the infinities.
  * `FloatStyle.plain` (messages), `FloatStyle.data` (answers) and
    `FloatStyle.config` (configuration files).
  * `FloatStyle.render`: the shortest decimal (`Decimal.shortest`) laid out by
    a style.

  The point position of a decimal with `n` digits and exponent `e` is `n + e`:
  the value lies in `[10 ^ (n + e - 1), 10 ^ (n + e))`. Every double has its
  point position between -323 and 309.
-/

namespace OverlapLayout

/-- How a double is written. -/
structure FloatStyle where
  /-- Point positions above this are written positionally (exclusive bound). -/
  positionalAbove : Int
  /-- Point positions up to this are written positionally. -/
  positionalUpTo : Int
  /-- An integral value is followed by `.0`. -/
  pointZero : Bool
  /-- Text of a NaN with a clear sign bit. -/
  nanText : String
  /-- Text of a NaN with its sign bit set. -/
  negativeNanText : String
  /-- Text of positive infinity. -/
  infinityText : String
  /-- Text of negative infinity. -/
  negativeInfinityText : String

namespace FloatStyle

/-- Messages: always positional, no `.0` on integral values, `NaN`, `inf`. -/
def plain : FloatStyle :=
  ⟨-1000, 1000, false, "NaN", "NaN", "inf", "-inf"⟩

/-- Answers: positional for point positions in `-4 .. 16`, else one digit before
the point and an exponent (`1e-7`, `1.5e300`); integral values keep `.0`. -/
def data : FloatStyle :=
  ⟨-5, 16, true, "NaN", "NaN", "Infinity", "-Infinity"⟩

/-- Configuration files: the plain text, with `.0` on integral values and
`nan`, `-nan` for NaN. -/
def config : FloatStyle :=
  ⟨-1000, 1000, true, "nan", "-nan", "inf", "-inf"⟩

/-- `n` zeros. -/
def zeros (n : Nat) : String := String.ofList (List.replicate n '0')

/-- Lays out the digits of a positive decimal (`digits ≠ 0`). -/
def layout (style : FloatStyle) (d : Decimal) : String :=
  let s := (Nat.toDigits 10 d.digits)
  let n : Int := s.length
  let point := n + d.exponent
  if style.positionalAbove < point ∧ point ≤ style.positionalUpTo then
    if 0 ≤ d.exponent then
      String.ofList s ++ zeros d.exponent.toNat ++ (if style.pointZero then ".0" else "")
    else if 0 < point then
      String.ofList (s.take point.toNat) ++ "." ++ String.ofList (s.drop point.toNat)
    else
      "0." ++ zeros (-point).toNat ++ String.ofList s
  else
    let mantissa :=
      match s with
      | [c] => String.singleton c
      | c :: rest => String.singleton c ++ "." ++ String.ofList rest
      | [] => ""
    mantissa ++ "e" ++ toString (point - 1)

/-- The text of a double: its shortest decimal laid out by the style, with a
leading `-` when the sign bit is set (also for zero). -/
def render (style : FloatStyle) (x : Float) : String :=
  match BinaryFloat.ofFloat x with
  | .nan negative => if negative then style.negativeNanText else style.nanText
  | .infinite negative => if negative then style.negativeInfinityText else style.infinityText
  | .finite negative m q =>
    let sign := if negative then "-" else ""
    if m = 0 then sign ++ (if style.pointZero then "0.0" else "0")
    else sign ++ style.layout (Decimal.shortest m q)

end FloatStyle

end OverlapLayout
