import OverlapLayout.Error
import OverlapLayout.Stats.Basic
/-!
  The distributions the scores are drawn from.

  The library computes no tail probability itself: the χ² distribution and the
  normal distribution come from a statistics library, which every function
  that scores takes as a `Distributions` argument.

  * `Distributions`: the survival function of χ² with two degrees of freedom,
    which may stop the program on an argument it refuses, and the normal
    distribution of a mean and a standard deviation, which the statistics
    library may refuse to build.
  * `NormalFit`: a normal distribution given by mean and variance (a negative
    or NaN variance counts as 0). Its cumulative distribution is the library's
    when the library accepts the mean and the deviation and the variance is
    positive, and otherwise a step at the mean (½ at it).

  `Distributions.approximate` (in `Stats.Normal`) is the library the program
  is run with.
-/

namespace OverlapLayout

/-- The distribution functions taken from a statistics library. -/
structure Distributions where
  /-- `P(X > x)` for `X` χ²-distributed with two degrees of freedom; an argument
  the library cannot handle stops the program. -/
  chiSquaredTail : Float → Except Panic Float
  /-- The cumulative distribution function of the normal distribution of a mean
  and a standard deviation, or `none` when the library refuses them. -/
  normal : Float → Float → Option (Float → Float)

/-- A normal distribution by mean and variance. -/
structure NormalFit where
  /-- The mean. -/
  mean : Float
  /-- The variance, not negative. -/
  variance : Float
  deriving Repr

namespace NormalFit

/-- A normal distribution; a negative or NaN variance becomes 0. -/
def new (mean variance : Float) : NormalFit := ⟨mean, Float.maxNum variance 0⟩

/-- The standard normal distribution. -/
def standard : NormalFit := ⟨0, 1⟩

/-- The standard deviation. -/
def deviation (n : NormalFit) : Float := n.variance.sqrt

/-- `P(X ≤ x)` for all the mass at the mean. -/
def step (n : NormalFit) (x : Float) : Float :=
  if x < n.mean then 0 else if n.mean < x then 1 else 0.5

/-- `P(X ≤ x)`: the library's for a proper distribution, else a step at the mean. -/
def cdf (dist : Distributions) (n : NormalFit) (x : Float) : Float :=
  match dist.normal n.mean n.deviation with
  | some cdf => if 0 < n.variance then cdf x else n.step x
  | none => n.step x

end NormalFit

end OverlapLayout
