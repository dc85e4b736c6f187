import OverlapLayout.Graph.Select
import OverlapLayout.Scoring
/-!
  Fitting the edge features and rescoring the graph.

  * `AssemblyGraph.estimateFits`: normal fits of the six features over the
    live overlap edges among some ids, leaving out edges that touch excluded
    sequences.
  * `AssemblyGraph.trustedEdges`: the edges best scoring at both ends, or all
    overlap edges when there is none.
  * `AssemblyGraph.rescore`: sets score and cost of every overlap edge and
    containment record from the fits over the trusted edges; a cost that
    cannot be computed stops it.
-/

namespace OverlapLayout

/-- An edge with score and cost set by the model. -/
def ScoreModel.rescoreEdge (dist : Distributions) (m : ScoreModel) (fits : FeatureFits) (e : Edge) :
    Except Panic Edge := do
  pure { e with score := m.score (.edge e), cost := ← m.cost dist (.edge e) fits }

/-- A containment with score and cost set by the model. -/
def ScoreModel.rescoreContainment (dist : Distributions) (m : ScoreModel) (fits : FeatureFits)
    (c : Containment) : Except Panic Containment := do
  pure { c with score := m.score (.contained c), cost := ← m.cost dist (.contained c) fits }

namespace AssemblyGraph

/-- Normal fits of the edge features over the live overlap edges among `ids`
that touch no excluded sequence. -/
def estimateFits (g : AssemblyGraph) (ids : List Nat) (excluded : List Nat) : FeatureFits :=
  let es := (ids.filterMap g.edge?).filter fun e =>
    !e.isIdentity && !excluded.contains e.v1.sequence && !excluded.contains e.v2.sequence
  let fit (f : Edge → Float) : NormalFit := (RunningStats.ofList (es.map f)).fit
  { overlap := fit (·.evidence.overlap.toFloat)
    weightedCoverage := fit (·.evidence.weightedCoverage)
    coverageProportion := fit (·.evidence.coverageProportion)
    overlapSd := fit (·.overlapSd)
    evidenceProportion := fit (·.evidence.evidenceProportion)
    indelsPerKbp := fit (·.evidence.indelsPerKbp) }

/-- The edges best scoring at both ends, or every overlap edge if there is none. -/
def trustedEdges (g : AssemblyGraph) : List Nat :=
  match g.mutualBest g.edgeMaxScore with
  | [] => g.overlapEdges.map (·.1)
  | ids => ids

/-- Sets score and cost of every overlap edge and containment record, with the
features fitted over the trusted edges. -/
def rescore (g : AssemblyGraph) (dist : Distributions) (m : ScoreModel) :
    Except Panic AssemblyGraph := do
  let fits := g.estimateFits g.trustedEdges []
  let edge (e? : Option Edge) : Except Panic (Option Edge) :=
    match e? with
    | some e => if e.isIdentity then pure (some e) else some <$> m.rescoreEdge dist fits e
    | none => pure none
  let records (lists : Std.TreeMap Nat (Array Containment) compare) :
      Except Panic (Std.TreeMap Nat (Array Containment) compare) :=
    lists.foldlM (fun acc k l => do pure (acc.insert k (← l.mapM (m.rescoreContainment dist fits)))) {}
  pure { g with
    edges := ← g.edges.mapM edge
    bySequence := ← records g.bySequence
    byHost := ← records g.byHost }

end AssemblyGraph

end OverlapLayout
