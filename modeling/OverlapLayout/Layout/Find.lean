import OverlapLayout.Layout.Connect
import OverlapLayout.Layout.Merge
import OverlapLayout.Graph.Status
/-!
  The layout: from the graph's edges to its stored paths.

  `LayoutThresholds.findPaths` builds paths from the safe edges, joins their
  ends by the connecting edges and builds the paths again; when the
  improvement passes are on, it absorbs short paths as alternatives and
  merges paths whose ends vote for each other. The paths with at least the
  least number of edges are stored, and their N-statistics returned.
-/

namespace OverlapLayout

namespace LayoutThresholds

/-- Lays out the graph's paths and stores those long enough; answers their
N-statistics. -/
def findPaths (t : LayoutThresholds) (g : AssemblyGraph) :
    Except Panic (Option NStats × AssemblyGraph) := do
  let safe := g.safeEdges
  let pathEdges := safe ++ t.connectingEdges g (g.buildPaths safe) safe
  let paths := g.buildPaths pathEdges
  let paths ← if t.runImprovement then
      let costs := RunningStats.ofList
        (((pathEdges.filterMap g.edge?).filter fun e => !e.isIdentity).map (·.cost.toFloat))
      t.mergeClosePaths g (t.absorbShortPaths g paths) costs
    else pure paths
  let g := paths.foldl (fun g p => if p.length < t.minPathLength then g else g.addPath p) g
  return (← g.contiguity, g)

end LayoutThresholds

end OverlapLayout
