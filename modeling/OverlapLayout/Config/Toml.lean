import OverlapLayout.Config.Basic
import OverlapLayout.Toml.Document
/-!
  Settings read from and written to TOML.

  * `LayoutConfig.ofToml`: the settings of a document's root table. Each
    known key must have a value of its field's type: a whole number not
    below zero for counts and lengths, any integer for the drift, a float or
    an integer for fractions and factors, a boolean for switches. Missing
    keys keep their defaults and unknown keys are ignored. `layout` is a
    table of the same kind, or an array holding its fields in declaration
    order: missing places keep their defaults and extra ones are ignored.
  * `LayoutConfig.readToml`: parses and validates a document; any fault of
    syntax or type is a parse error, reported before validation.
  * `LayoutConfig.toToml`: the document of the settings: one `key = value`
    line per field in declaration order, then a blank line and the `[layout]`
    table. Integers are written in decimal and must fit a signed 64-bit word;
    floats in the configuration style.
-/

namespace OverlapLayout

namespace LayoutConfig

/-- A count: an integer not below zero. -/
def countOf : TomlValue → Option Nat
  | .integer i => if 0 ≤ i then some i.toNat else none
  | _ => none

/-- A signed integer. -/
def integerOf : TomlValue → Option Int
  | .integer i => some i
  | _ => none

/-- A float, or an integer read as the nearest float. -/
def floatOf : TomlValue → Option Float
  | .float x => some x
  | .integer i => some (Float.ofInt i)
  | _ => none

/-- A boolean. -/
def booleanOf : TomlValue → Option Bool
  | .boolean b => some b
  | _ => none

/-- Where the fields of a struct are found: by key in a table, or by place in an
array whose items are the fields in declaration order. -/
def fieldsOf : TomlValue → Option (String → Nat → Option TomlValue)
  | .table es => some fun key _ => TomlValue.get? es key
  | .array vs => some fun _ place => vs[place]?
  | _ => none

/-- The field of key `key` and place `place` read by `read`, or `default` when it
is missing. -/
def field {α : Type} (fields : String → Nat → Option TomlValue) (key : String) (place : Nat)
    (read : TomlValue → Option α) (default : α) : Option α :=
  match fields key place with
  | some v => read v
  | none => some default

/-- Path selection settings of a table or an array. -/
def thresholdsOf (v : TomlValue) : Option LayoutThresholds := do
  let fs ← fieldsOf v
  let d : LayoutThresholds := {}
  pure {
    minPathLength := ← field fs "min_path_length" 0 countOf d.minPathLength
    runImprovement := ← field fs "run_improvement_algorithms" 1 booleanOf d.runImprovement
    ikbpStddevFactor := ← field fs "ikbp_stddev_factor" 2 floatOf d.ikbpStddevFactor
    absorbMaxPathLength := ← field fs "absorb_max_path_length" 3 countOf d.absorbMaxPathLength
    absorbMaxLengthRatio := ← field fs "absorb_max_length_ratio" 4 floatOf d.absorbMaxLengthRatio
    absorbMaxDistanceFactor := ← field fs "absorb_max_distance_factor" 5 floatOf d.absorbMaxDistanceFactor
    mergeEndWindow := ← field fs "merge_end_window" 6 countOf d.mergeEndWindow
    mergeMaxCostFactor := ← field fs "merge_max_cost_factor" 7 floatOf d.mergeMaxCostFactor }

/-- The settings of a document's root table. -/
def ofToml (es : List (String × TomlValue)) : Option LayoutConfig := do
  let fs ← fieldsOf (.table es)
  let d : LayoutConfig := {}
  pure {
    kmerLength := ← field fs "kmer_length" 0 countOf d.kmerLength
    windowLength := ← field fs "window_length" 1 countOf d.windowLength
    ploidy := ← field fs "ploidy" 2 countOf d.ploidy
    numThreads := ← field fs "num_threads" 3 countOf d.numThreads
    minKmerPercentage := ← field fs "min_kmer_percentage" 4 floatOf d.minKmerPercentage
    secondaryFeaturesWeight := ← field fs "secondary_features_weight" 5 floatOf d.secondaryFeaturesWeight
    backboneCoverage := ← field fs "backbone_coverage" 6 floatOf d.backboneCoverage
    maxClustersPerSubject := ← field fs "max_clusters_per_subject" 7 countOf d.maxClustersPerSubject
    maxDiagonalDrift := ← field fs "max_diagonal_drift" 8 integerOf d.maxDiagonalDrift
    filterScoreRatio := ← field fs "filter_score_ratio" 9 floatOf d.filterScoreRatio
    minChimericFlankDepth := ← field fs "min_chimeric_flank_depth" 10 countOf d.minChimericFlankDepth
    layout := ← field fs "layout" 11 thresholdsOf d.layout }

/-- Parses and validates a TOML document of settings. -/
def readToml (text : String) : Except LayoutError LayoutConfig := do
  match (Toml.parseDocument text).bind ofToml with
  | none => throw .configParse
  | some c =>
    c.validate
    pure c

/-- A `key = value` line of a count, refused beyond a signed 64-bit word. -/
def countLine (key : String) (n : Nat) : Except LayoutError String :=
  if n < Nat.pow 2 63 then pure (key ++ " = " ++ toString n ++ "\n")
  else throw (.configSerialize "out-of-range value for u64 type")

/-- A `key = value` line of a float. -/
def floatLine (key : String) (x : Float) : String := key ++ " = " ++ FloatStyle.config.render x ++ "\n"

/-- The TOML document of the settings. -/
def toToml (c : LayoutConfig) : Except LayoutError String := do
  let t := c.layout
  let top := [← countLine "kmer_length" c.kmerLength, ← countLine "window_length" c.windowLength,
    ← countLine "ploidy" c.ploidy, ← countLine "num_threads" c.numThreads,
    floatLine "min_kmer_percentage" c.minKmerPercentage,
    floatLine "secondary_features_weight" c.secondaryFeaturesWeight,
    floatLine "backbone_coverage" c.backboneCoverage,
    ← countLine "max_clusters_per_subject" c.maxClustersPerSubject,
    "max_diagonal_drift = " ++ toString c.maxDiagonalDrift ++ "\n",
    floatLine "filter_score_ratio" c.filterScoreRatio,
    ← countLine "min_chimeric_flank_depth" c.minChimericFlankDepth]
  let layout := [← countLine "min_path_length" t.minPathLength,
    "run_improvement_algorithms = " ++ toString t.runImprovement ++ "\n",
    floatLine "ikbp_stddev_factor" t.ikbpStddevFactor,
    ← countLine "absorb_max_path_length" t.absorbMaxPathLength,
    floatLine "absorb_max_length_ratio" t.absorbMaxLengthRatio,
    floatLine "absorb_max_distance_factor" t.absorbMaxDistanceFactor,
    ← countLine "merge_end_window" t.mergeEndWindow,
    floatLine "merge_max_cost_factor" t.mergeMaxCostFactor]
  pure (String.join top ++ "\n[layout]\n" ++ String.join layout)

end LayoutConfig

end OverlapLayout
