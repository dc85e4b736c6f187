import OverlapLayout.Error
import OverlapLayout.Stats.Running
import OverlapLayout.Stats.Distributions
import OverlapLayout.Graph.Relationship
/-!
  Scores and costs of relationships.

  * `ScoreModel.score`: `√overlap · coverage / 100 · √evidence`, damped by a
    further `√evidence / √max(indels, 1)` when secondary features weigh,
    rounded and kept at or above 0.
  * `ScoreModel.featureCosts`: six capped `-log10` tail probabilities of the
    features under the fitted normals (`FeatureFits`): overlap, coverage,
    coverage proportion, overlap deviation (½ for containments), evidence
    proportion, and the indel rate under χ² with two degrees, the
    distributions taken from `Distributions`.
  * `ScoreModel.cost`: `10⁴ ·` the weighted sum of those, truncated, plus
    `10 ·` the overlap's cumulative probability, truncated.
-/

namespace OverlapLayout

/-- `-log10 p`, or `limit` when `p ≤ 10 ^ (-limit)`. -/
def negLog10 (p limit : Float) : Float :=
  if p ≤ Float.pow 10 (-limit) then limit else -p.log10

/-- Normal fits of the six edge features. -/
structure FeatureFits where
  /-- Overlap length. -/
  overlap : NormalFit := .standard
  /-- Weighted coverage. -/
  weightedCoverage : NormalFit := .standard
  /-- Coverage proportion. -/
  coverageProportion : NormalFit := .standard
  /-- Diagonal spread. -/
  overlapSd : NormalFit := .standard
  /-- Evidence proportion. -/
  evidenceProportion : NormalFit := .standard
  /-- Indel rate. -/
  indelsPerKbp : NormalFit := .standard
  deriving Repr

/-- The fit of a feature's running statistics. -/
def RunningStats.fit (s : RunningStats) : NormalFit := NormalFit.new s.average s.variance

/-- Scoring with a weight for the secondary features (evidence and indel rate). -/
structure ScoreModel where
  /-- Weight of the secondary features, a number at least 0. -/
  secondaryWeight : Float
  deriving Repr

namespace ScoreModel

/-- A model; a NaN or negative weight is refused. -/
def new (w : Float) : Except LayoutError ScoreModel :=
  if w.isNaN || w < 0 then .error (.config "secondary_features_weight cannot be negative")
  else .ok ⟨w⟩

/-- Largest cost of one feature. -/
def maxFeatureCost : Float := 10

/-- Tail probabilities above these count as these. -/
def limits : List Float := [1, 0.5, 0.1, 0.05, 0.5, 0.25]

/-- Tail probability of the spread of a containment. -/
def containedSdTail : Float := 0.5

/-- Weights of the six features. -/
def weights (m : ScoreModel) : List Float :=
  [1, 1, 0, 0, m.secondaryWeight, m.secondaryWeight]

/-- The score of a relationship. -/
def score (m : ScoreModel) (r : Relationship) : Nat :=
  let e := r.evidence
  let ev := Float.maxNum e.evidenceProportion 0
  let s := e.overlap.toFloat.sqrt * (0.01 * e.weightedCoverage) * ev.sqrt
  let s := if 0 < m.secondaryWeight then s * ev.sqrt / (Float.maxNum e.indelsPerKbp 1).sqrt else s
  (Float.maxNum s.round 0).toWord

/-- The six feature costs. -/
def featureCosts (dist : Distributions) (r : Relationship) (fits : FeatureFits) :
    Except Panic (List Float) := do
  let e := r.evidence
  let indelsTail ← dist.chiSquaredTail (Float.maxNum e.indelsPerKbp 0)
  let tails := [
    fits.overlap.cdf dist e.overlap.toFloat,
    fits.weightedCoverage.cdf dist e.weightedCoverage,
    fits.coverageProportion.cdf dist e.coverageProportion,
    match r.overlapSd? with
    | some sd => 1 - fits.overlapSd.cdf dist sd
    | none => containedSdTail,
    fits.evidenceProportion.cdf dist e.evidenceProportion,
    indelsTail]
  pure ((limits.zip tails).map fun (lim, p) => negLog10 (Float.minNum lim p) maxFeatureCost)

/-- The cost of a relationship. -/
def cost (dist : Distributions) (m : ScoreModel) (r : Relationship) (fits : FeatureFits) :
    Except Panic Nat := do
  let weighted := ((← featureCosts dist r fits).zip m.weights).foldl (fun s (c, w) => s + c * w) 0
  let base := (10000 * weighted).toWord
  pure (base.toFloat + 10 * fits.overlap.cdf dist r.evidence.overlap.toFloat).toWord

/-- The relationship with its score and cost set. -/
def update (dist : Distributions) (m : ScoreModel) (r : Relationship) (fits : FeatureFits) :
    Except Panic Relationship := do
  pure (r.withScores (m.score r) (← m.cost dist r fits))

end ScoreModel

end OverlapLayout
