import OverlapLayout.Error
import OverlapLayout.Decimal.Text
/-!
  The settings of graph construction and layout.

  * `LayoutThresholds`: the settings of path selection.
  * `LayoutConfig`: k-mer and window lengths, ploidy, workers, discovery and
    filtering settings, and the thresholds; every field has a default.
  * `LayoutConfig.validate`: refuses settings that would make a phase
    meaningless, checking the fields in a fixed order and reporting the
    first refused one.
-/

namespace OverlapLayout

/-- Settings of path selection. -/
structure LayoutThresholds where
  /-- Paths with fewer edges are dropped from the result. -/
  minPathLength : Nat := 6
  /-- Whether the absorb and merge passes run. -/
  runImprovement : Bool := true
  /-- Connecting edges above mean + factor · deviation of the indel rate are skipped. -/
  ikbpStddevFactor : Float := 15
  /-- Longest path, in edges, that can be absorbed as an alternative. -/
  absorbMaxPathLength : Nat := 10
  /-- Largest length of an absorbed path relative to its host. -/
  absorbMaxLengthRatio : Float := 0.1
  /-- Largest distance of the attachment points relative to the absorbed length. -/
  absorbMaxDistanceFactor : Float := 1.5
  /-- Positions from a path end where a merge vote may attach. -/
  mergeEndWindow : Nat := 4
  /-- Votes costing more than this multiple of the mean path edge cost are ignored. -/
  mergeMaxCostFactor : Float := 2
  deriving Repr, Inhabited, BEq

/-- Settings of graph construction. -/
structure LayoutConfig where
  /-- K-mer length of the minimizers. -/
  kmerLength : Nat := 15
  /-- K-mers per minimizer window. -/
  windowLength : Nat := 10
  /-- Ploidy of the sample. -/
  ploidy : Nat := 1
  /-- Number of workers. -/
  numThreads : Nat := 1
  /-- Percentage of the query's informative k-mers a subject must hit. -/
  minKmerPercentage : Float := 5
  /-- Weight of evidence proportion and indel rate in scores and costs. -/
  secondaryFeaturesWeight : Float := 0.5
  /-- Coverage of the backbone, in multiples of ploidy times the expected length. -/
  backboneCoverage : Float := 10
  /-- Most chains taken per subject. -/
  maxClustersPerSubject : Nat := 3
  /-- Largest diagonal difference between chained hits. -/
  maxDiagonalDrift : Int := 100
  /-- Relationships scoring below this fraction of the best around a sequence are dropped. -/
  filterScoreRatio : Float := 0.5
  /-- Contained reads needed on each side of a gap to call a host chimeric. -/
  minChimericFlankDepth : Nat := 3
  /-- Path selection settings. -/
  layout : LayoutThresholds := {}
  deriving Repr, Inhabited, BEq

namespace LayoutConfig

/-- Refuses meaningless settings; the first refused field, in declaration order, is reported. -/
def validate (c : LayoutConfig) : Except LayoutError Unit :=
  let refuse (m : String) : Except LayoutError Unit := .error (.config m)
  let t := c.layout
  if c.numThreads = 0 then refuse "num_threads must be at least 1"
  else if c.kmerLength = 0 ∨ 31 < c.kmerLength then
    refuse ("kmer_length must be between 1 and 31, got " ++ toString c.kmerLength)
  else if c.windowLength = 0 then refuse "window_length must be at least 1"
  else if c.ploidy = 0 then refuse "ploidy must be at least 1"
  else if !(0 ≤ c.minKmerPercentage && c.minKmerPercentage ≤ 100) then
    refuse ("min_kmer_percentage must be within [0, 100], got " ++
      FloatStyle.plain.render c.minKmerPercentage)
  else if c.secondaryFeaturesWeight < 0 then refuse "secondary_features_weight cannot be negative"
  else if c.backboneCoverage ≤ 0 then refuse "backbone_coverage must be positive"
  else if c.maxClustersPerSubject = 0 then refuse "max_clusters_per_subject must be at least 1"
  else if c.maxDiagonalDrift < 0 then refuse "max_diagonal_drift cannot be negative"
  else if !(0 ≤ c.filterScoreRatio && c.filterScoreRatio ≤ 1) then
    refuse "filter_score_ratio must be within [0, 1]"
  else if t.ikbpStddevFactor < 0 || t.absorbMaxLengthRatio < 0 ||
      t.absorbMaxDistanceFactor < 0 || t.mergeMaxCostFactor < 0 then
    refuse "layout thresholds cannot be negative"
  else .ok ()

end LayoutConfig

end OverlapLayout
