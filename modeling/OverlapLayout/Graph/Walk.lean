import OverlapLayout.Graph.Basic
/-!
  Paths read against a graph.

  * `Path.ofEdge?`, `Path.singleton?`: a path of one live edge, or of a
    sequence's identity edge.
  * `Path.connectLeft`, `Path.connectRight`: extend an end by a live edge
    touching it; `none` when the edge does not fit.
  * `Path.connectPath`: appends another path (reversed when asked) through the
    live overlap edge joining the right end to the other's first vertex, and
    takes over its alternatives.
  * `Path.vertices`: the vertices from left to right, following the edges while
    each is live and touches the last vertex.
  * `Path.sequenceIds`, `Path.estimatedLength`: the sequences spelt, and the
    length spelt: sequence lengths added, overlaps taken off (not below 0).
-/

namespace OverlapLayout

namespace Path

/-- The path of one live edge. -/
def ofEdge? (g : AssemblyGraph) (id : Nat) : Option Path :=
  (g.edge? id).map fun e => { left := e.v1, right := e.v2, edges := #[id] }

/-- The path of a sequence's identity edge. -/
def singleton? (g : AssemblyGraph) (s : Nat) : Option Path :=
  (g.identityEdge? s).bind (ofEdge? g)

/-- Extends the left end by a live edge touching it. -/
def connectLeft (p : Path) (g : AssemblyGraph) (id : Nat) : Option Path :=
  ((g.edge? id).bind (·.across p.left)).map fun next =>
    { p with edges := #[id] ++ p.edges, left := next }

/-- Extends the right end by a live edge touching it. -/
def connectRight (p : Path) (g : AssemblyGraph) (id : Nat) : Option Path :=
  ((g.edge? id).bind (·.across p.right)).map fun next =>
    { p with edges := p.edges.push id, right := next }

/-- Appends `other` (reversed first when `reverse`) through the live overlap edge
between this path's right end and the other's first vertex. -/
def connectPath (p : Path) (g : AssemblyGraph) (other : Path) (reverse : Bool) : Option Path :=
  let (oLeft, oRight) := if reverse then (other.right, other.left) else (other.left, other.right)
  match g.findEdge? p.right oLeft with
  | none => none
  | some j =>
    match g.edge? j with
    | some e =>
      if e.isIdentity then none
      else some { p with
        edges := (p.edges.push j) ++ (if reverse then other.edges.reverse else other.edges)
        right := oRight
        alternatives := p.alternatives ++ other.alternatives }
    | none => none

/-- The vertices from left to right, stopping at an edge that is stale or does
not touch the last vertex. -/
def vertices (p : Path) (g : AssemblyGraph) : List Vertex :=
  go p.edges.toList p.left [p.left]
where
  go : List Nat → Vertex → List Vertex → List Vertex
    | [], _, acc => acc.reverse
    | id :: rest, last, acc =>
      match (g.edge? id).bind (·.across last) with
      | some next => go rest next (next :: acc)
      | none => acc.reverse

/-- The sequences along the path, each run of one sequence once. -/
def sequenceIds (p : Path) (g : AssemblyGraph) : List Nat :=
  ((p.vertices g).foldl (fun (acc : List Nat) v =>
    match acc with
    | s :: _ => if s = v.sequence then acc else v.sequence :: acc
    | [] => [v.sequence]) []).reverse

/-- The length spelt: each identity edge adds its sequence's length, each overlap
takes its overlap off, never below 0. -/
def estimatedLength (p : Path) (g : AssemblyGraph) : Nat :=
  p.edges.foldl (fun len id =>
    match g.edge? id with
    | some e => if e.isIdentity then len + (g.length? e.v1.sequence).getD 0 else len - e.evidence.overlap
    | none => len) 0

end Path

end OverlapLayout
