import OverlapLayout.Stats.Basic
/-!
  Running mean and variance.

  * `Moments`: count, mean and sum of squared deviations of the values seen,
    updated one value at a time (`Moments.push`, Welford's update). It is
    written over any type with the four operations and a cast from `Nat`, so
    that the same update can be read over exact numbers.
  * `RunningStats`: the moments of the finite doubles seen, with their least
    and greatest; non-finite values are skipped.
  * `Moments.variance`, `RunningStats.variance`: the sample variance, 0 below two values.
-/

namespace OverlapLayout

/-- Count, mean and sum of squared deviations. -/
structure Moments (α : Type) where
  /-- Number of values. -/
  count : Nat
  /-- Their mean. -/
  mean : α
  /-- Sum of squared deviations from the mean. -/
  m2 : α
  deriving Repr

namespace Moments

variable {α : Type} [Add α] [Sub α] [Mul α] [Div α] [NatCast α]

/-- No values. -/
def empty [OfNat α 0] : Moments α := ⟨0, 0, 0⟩

/-- Adds one value: the mean moves by `δ / n` and the squared deviations grow by
`δ · (x - new mean)`, where `δ` is the distance of `x` from the old mean. -/
def push (m : Moments α) (x : α) : Moments α :=
  let count := m.count + 1
  let delta := x - m.mean
  let mean := m.mean + delta / (count : α)
  ⟨count, mean, m.m2 + delta * (x - mean)⟩

/-- The sample variance: squared deviations over `count - 1`, 0 below two values. -/
def variance [OfNat α 0] (m : Moments α) : α :=
  if m.count < 2 then 0 else m.m2 / ((m.count - 1 : Nat) : α)

end Moments

instance natCastFloat : NatCast Float := ⟨Float.ofNat⟩

/-- Moments and extremes of the finite doubles seen. -/
structure RunningStats where
  /-- Moments of the values. -/
  moments : Moments Float := Moments.empty
  /-- The least value, `∞` before any. -/
  least : Float := Float.ofBits 0x7FF0000000000000
  /-- The greatest value, `-∞` before any. -/
  greatest : Float := Float.ofBits 0xFFF0000000000000

namespace RunningStats

/-- Adds a value; NaN and the infinities are skipped. -/
def push (s : RunningStats) (x : Float) : RunningStats :=
  if x.isFinite then
    { moments := s.moments.push x, least := Float.minNum s.least x, greatest := Float.maxNum s.greatest x }
  else s

/-- The statistics of a list of values. -/
def ofList (xs : List Float) : RunningStats := xs.foldl push {}

/-- Number of values kept. -/
def count (s : RunningStats) : Nat := s.moments.count

/-- Their mean, 0 before any. -/
def average (s : RunningStats) : Float := s.moments.mean

/-- The sample variance of the values kept. -/
def variance (s : RunningStats) : Float := s.moments.variance

/-- The least value, if any. -/
def min? (s : RunningStats) : Option Float := if 0 < s.count then some s.least else none

/-- The greatest value, if any. -/
def max? (s : RunningStats) : Option Float := if 0 < s.count then some s.greatest else none

end RunningStats

end OverlapLayout
