import OverlapLayout.Layout.Position
import OverlapLayout.Graph.Scores
/-!
  Joining path ends and absorbing short paths.

  * `connectingEdges`: Kruskal's rule over the edges at path ends: cheapest
    first, each end used once, never closing a cycle of paths, and skipping
    edges whose indel rate exceeds mean plus a multiple of the deviation
    over the path edges.
  * `absorbShortPaths`: a path of few edges whose two ends both reach,
    through their cheapest edges, one much longer path at nearby places
    becomes an alternative of that path. Shorter paths move first, so a path
    carries its own alternatives along when it moves.
-/

namespace OverlapLayout

namespace LayoutThresholds

/-- Live edges at `vertices` joining sequences in no host, each once, in
increasing `(cost, id)`. -/
def endCandidates (g : AssemblyGraph) (vertices : List Vertex) : List Nat :=
  let ids := vertices.flatMap fun v => ((g.edgesOf v).filter fun (_, e) => g.joinsFree e).map (·.1)
  let ids := (ids.mergeSort (· ≤ ·)).eraseReps
  let cost (id : Nat) : Nat := ((g.edge? id).map (·.cost)).getD (Nat.pow 2 64 - 1)
  ids.mergeSort fun a b => cost a < cost b || (cost a == cost b && a ≤ b)

/-- The edges joining path ends, chosen by Kruskal's rule over the ends, each
path's two ends starting in one component. -/
def connectingEdges (t : LayoutThresholds) (g : AssemblyGraph) (paths : List Path)
    (pathEdges : List Nat) : List Nat :=
  let ikbp := (g.estimateFits pathEdges []).indelsPerKbp
  let limit := ikbp.mean + t.ikbpStddevFactor * ikbp.deviation
  let vertices := paths.flatMap fun p => [p.left, p.right]
  let place : Std.HashMap Nat Nat := vertices.zipIdx.foldl (fun m (v, i) => m.insert v.id i) {}
  let clusters := (List.range paths.length).foldl (fun c i => (c.union (2 * i) (2 * i + 1)).2)
    (UnionFind.new vertices.length)
  let (_, _, chosen) := (endCandidates g vertices).foldl (fun (used, clusters, chosen) id =>
    match g.edge? id with
    | none => (used, clusters, chosen)
    | some e =>
      match place.get? e.v1.id, place.get? e.v2.id with
      | some p1, some p2 =>
        if used.getD p1 false || used.getD p2 false || limit < e.evidence.indelsPerKbp then
          (used, clusters, chosen)
        else
          let (joined, clusters) := clusters.union p1 p2
          if joined then ((used.set! p1 true).set! p2 true, clusters, chosen.push id)
          else (used, clusters, chosen)
      | _, _ => (used, clusters, chosen))
    (Array.replicate vertices.length false, clusters, (#[] : Array Nat))
  chosen.toList

/-- Whether path `i`, attached at `left` and `right` to another path of
`hostLength` edges, is short and close enough to be absorbed by it. -/
def absorbs (t : LayoutThresholds) (i length hostLength : Nat) (left right : PathLocation) : Bool :=
  let distance := (if left.position ≤ right.position then right.position - left.position
    else left.position - right.position).toFloat
  left.path != i && left.path == right.path &&
    !(t.absorbMaxLengthRatio * hostLength.toFloat < length.toFloat) &&
    !(t.absorbMaxDistanceFactor * length.toFloat < distance)

/-- Pairs `(host, small)` of paths to absorb, smaller paths first. -/
def absorptions (t : LayoutThresholds) (g : AssemblyGraph) (paths : Array Path) : List (Nat × Nat) :=
  let positions := locate g paths.toList
  let pairs := paths.toList.zipIdx.filterMap fun (p, i) =>
    if t.absorbMaxPathLength < p.length then none
    else
      match connectedLocation g positions p.left, connectedLocation g positions p.right with
      | some l, some r =>
        if t.absorbs i p.length (paths.getD l.path default).length l r then some (l.path, i) else none
      | _, _ => none
  let size (i : Nat) : Nat := (paths.getD i default).length
  pairs.mergeSort fun a b => size a.2 < size b.2 || (size a.2 == size b.2 && a.2 ≤ b.2)

/-- Moves short paths into the alternatives of the paths they hang off. -/
def absorbShortPaths (t : LayoutThresholds) (g : AssemblyGraph) (paths : List Path) : List Path :=
  let arr := paths.toArray
  let slots := (t.absorptions g arr).foldl (fun (slots : Array (Option Path)) (host, small) =>
    match (slots[small]?).join with
    | none => slots
    | some p =>
      let slots := slots.set! small none
      match (slots[host]?).join with
      | some h => slots.set! host (some (h.addAlternative p))
      | none => slots.set! small (some p)) (arr.map some)
  slots.toList.filterMap id

end LayoutThresholds

end OverlapLayout
