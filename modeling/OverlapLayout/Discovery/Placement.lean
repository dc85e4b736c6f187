import OverlapLayout.Config.Basic
import OverlapLayout.Scoring
import OverlapLayout.Discovery.Chain
/-!
  Relationships of a query found from its hits.

  * `Finder.minHits`: hits a subject needs, `max(⌈pct / 100 · informative⌉, 2)`.
  * `Finder.classify`: a chain's predicted placement of the query on the
    subject, within a margin of `2k`: the query inside the subject, the
    subject inside the query, or an overlap of their ends (the query's end
    meeting the subject's start when the placement begins before it).
  * `Finder.infer`: per subject (forward then reverse hits, subjects
    ascending) the best classified chain, by weighted coverage, then lower
    indel rate, then longer overlap, in IEEE total order; the results by
    ascending subject, scored.
  * `selectGoodContainments`: containments of a query whose evidence
    exceeds 0.99, indel rate is below 10 and coverage exceeds half its length.
-/

namespace OverlapLayout

/-- Which subjects a query is compared with. -/
structure SearchMode where
  /-- Subjects with this id or larger are ignored. -/
  subjectLimit : Option Nat := none
  /-- Only containments of the query in a subject are reported. -/
  onlyContained : Bool := false
  deriving Repr

/-- A stretch of the query, in the coordinates of its hits. -/
structure QueryRegion where
  /-- First position. -/
  start : Int
  /-- Position past the last. -/
  stop : Int

/-- Discovery settings with the sequence lengths. -/
structure Finder where
  /-- Length of each sequence, by id. -/
  lengths : Array Nat
  /-- Chaining settings. -/
  rule : ChainRule
  /-- Percentage of informative k-mers a subject must hit. -/
  minKmerPercentage : Float
  /-- Scoring of the results. -/
  model : ScoreModel

/-- The order of doubles in which `-NaN < -∞ < … < -0 < +0 < … < ∞ < NaN`: the
bit pattern, with the others flipped for a set sign bit and the sign flipped otherwise. -/
def Float.totalKey (x : Float) : Nat :=
  let b := x.toBits.toNat
  if Nat.pow 2 63 ≤ b then Nat.pow 2 64 - 1 - b else b + Nat.pow 2 63

namespace Finder

/-- A finder for a configuration; a NaN or negative secondary weight is refused. -/
def new (c : LayoutConfig) (lengths : Array Nat) : Except LayoutError Finder := do
  let model ← ScoreModel.new c.secondaryFeaturesWeight
  pure ⟨lengths, ⟨c.kmerLength % Nat.pow 2 32, c.maxDiagonalDrift, c.maxClustersPerSubject⟩,
    c.minKmerPercentage, model⟩

/-- The length of a sequence, if known. -/
def length? (f : Finder) (id : Nat) : Option Nat := f.lengths[id]?

/-- Hits a subject needs given the query's informative k-mers. -/
def minHits (f : Finder) (informative : Nat) : Nat :=
  max (f.minKmerPercentage / 100 * informative.toFloat).ceil.toWord 2

/-- The support of a chain over a region of the query with a given overlap. -/
def evidence (f : Finder) (c : HitChain) (t : HitTable) (region : QueryRegion) (overlap : Nat) :
    Except Panic Evidence := do
  let chainCodes := HitTable.distinctCount (c.hits.toList.filterMap fun h => t.queryCode? h.query)
  let regionCodes := t.distinctCodesIn region.start region.stop f.rule.k
  let proportion := if regionCodes = 0 then 0
    else Float.minNum (chainCodes.toFloat / regionCodes.toFloat) 1
  let wc ← c.weightedCoverage
  let ikbp ← c.indelsPerKbp
  pure
    { overlap, sharedKmers := c.hits.size % Nat.pow 2 32, weightedCoverage := wc,
      evidenceProportion := proportion, indelsPerKbp := ikbp }

/-- The relationship a chain predicts between query `q` and its subject, if any. -/
def classify (f : Finder) (q : Nat) (qlen slen : Nat) (c : HitChain) (t : HitTable) :
    Except Panic (Option Relationship) := do
  let qlen : Int := qlen
  let slen : Int := slen
  let margin : Int := 2 * f.rule.k
  let start ← c.predictedStart
  let stop ← c.predictedEnd qlen
  let clamp (x lo hi : Int) : Int := max lo (min x hi)
  if -margin ≤ start ∧ stop ≤ slen + margin then
    let hostStart := clamp start 0 slen
    let hostEnd := clamp stop 0 slen
    if hostEnd ≤ hostStart then return none
    let ev ← f.evidence c t ⟨0, qlen⟩ (hostEnd - hostStart).toNat
    return some (.contained
      { sequence := q, host := c.subjectId, hostStart := hostStart.toNat,
        hostEnd := hostEnd.toNat, reverse := c.reverse, evidence := ev })
  if start ≤ margin ∧ slen - margin ≤ stop then
    let region : QueryRegion := ⟨clamp (-start) 0 qlen, clamp (slen - start) 0 qlen⟩
    if region.stop ≤ region.start then return none
    let (hostStart, hostEnd) :=
      if c.reverse then (qlen - region.stop, qlen - region.start) else (region.start, region.stop)
    let ev ← f.evidence c t region (region.stop - region.start).toNat
    return some (.contained
      { sequence := c.subjectId, host := q, hostStart := hostStart.toNat,
        hostEnd := hostEnd.toNat, reverse := c.reverse, evidence := ev })
  let maxOverlap := min qlen slen
  let (qv, sv, overlap, region) :=
    if start < 0 then
      ((if c.reverse then Vertex.startOf q else Vertex.endOf q), Vertex.startOf c.subjectId,
        clamp stop 0 maxOverlap, (⟨min (-start) qlen, qlen⟩ : QueryRegion))
    else
      ((if c.reverse then Vertex.endOf q else Vertex.startOf q), Vertex.endOf c.subjectId,
        clamp (slen - start) 0 maxOverlap, (⟨0, max (qlen - (stop - slen)) 0⟩ : QueryRegion))
  if overlap ≤ 0 ∨ region.stop ≤ region.start then return none
  let ev ← f.evidence c t region overlap.toNat
  return some (.edge { v1 := qv, v2 := sv, evidence := ev, overlapSd := c.diagonalSd })

/-- Whether the first candidate beats the second: higher coverage, then lower
indel rate, then longer overlap. -/
def beats (a b : Relationship) : Bool :=
  let (ea, eb) := (a.evidence, b.evidence)
  let (ca, cb) := (Float.totalKey ea.weightedCoverage, Float.totalKey eb.weightedCoverage)
  if ca ≠ cb then cb < ca
  else
    let (ia, ib) := (Float.totalKey ea.indelsPerKbp, Float.totalKey eb.indelsPerKbp)
    if ia ≠ ib then ia < ib else eb.overlap < ea.overlap

/-- Keeps the better of a new candidate and the current one of its subject. -/
def keepBest (best : List (Nat × Relationship)) (s : Nat) (r : Relationship) :
    List (Nat × Relationship) :=
  match best.find? (·.1 == s) with
  | none => best ++ [(s, r)]
  | some (_, cur) => if beats r cur then best.map fun p => if p.1 == s then (s, r) else p else best

/-- Adds the candidate of one chain against subject `s`, if it classifies and the mode admits it. -/
def addChain (f : Finder) (q qlen slen s : Nat) (mode : SearchMode) (t : HitTable)
    (best : List (Nat × Relationship)) (c : HitChain) : Except Panic (List (Nat × Relationship)) := do
  match ← f.classify q qlen slen c t with
  | none => return best
  | some r =>
    let queryInside := match r with
      | .contained x => x.sequence == q
      | .edge _ => false
    if mode.onlyContained ∧ !queryInside then return best
    return keepBest best s r

/-- Adds the candidates against subject `s` that the mode and the hit count admit. -/
def addSubject (f : Finder) (q qlen : Nat) (mode : SearchMode) (minHits : Nat) (t : HitTable)
    (reverse : Bool) (best : List (Nat × Relationship)) (s : Nat) :
    Except Panic (List (Nat × Relationship)) :=
  if s = q ∨ (!mode.onlyContained ∧ q < s) ∨ (mode.subjectLimit.any (· ≤ s)) ∨
      t.hitCount s < minHits then pure best
  else match f.length? s with
    | none => pure best
    | some slen => (f.rule.clusters t s reverse minHits).foldlM (f.addChain q qlen slen s mode t) best

/-- The candidates of query `q` from one hit table, added to `best`. -/
def candidatesFrom (f : Finder) (q qlen : Nat) (mode : SearchMode) (minHits : Nat)
    (t : HitTable) (reverse : Bool) (best : List (Nat × Relationship)) :
    Except Panic (List (Nat × Relationship)) :=
  t.subjects.foldlM (f.addSubject q qlen mode minHits t reverse) best

/-- The scored relationships of query `q` from its forward and reverse hits. -/
def infer (f : Finder) (q : Nat) (forward reverse : HitTable) (mode : SearchMode) :
    Except Panic (List Relationship) := do
  let some qlen := f.length? q | return []
  let informative := max forward.informativeCodes reverse.informativeCodes
  if informative = 0 then return []
  let minHits := f.minHits informative
  let best ← f.candidatesFrom q qlen mode minHits forward false []
  let best ← f.candidatesFrom q qlen mode minHits reverse true best
  let sorted := best.mergeSort fun a b => a.1 ≤ b.1
  return sorted.map fun (_, r) => r.withScores (f.model.score r) r.cost

end Finder

/-- Containments reliable enough to settle their sequence without indexing it. -/
def selectGoodContainments (rs : List Relationship) (lengths : Array Nat) : List Relationship :=
  rs.filter fun
    | .contained c =>
      let len := lengths.getD c.sequence 0
      0.99 < c.evidence.evidenceProportion && c.evidence.indelsPerKbp < 10 &&
        0.5 * len.toFloat < c.evidence.weightedCoverage
    | .edge _ => false

end OverlapLayout
