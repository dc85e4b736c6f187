import OverlapLayout.Graph.Walk
import OverlapLayout.Graph.UnionFind
/-!
  Choosing edges and chaining them into paths.

  * The edges *active* at a vertex are its live overlap edges between
    sequences that lie in no host.
  * `AssemblyGraph.edgeMinCost`, `edgeMaxScore`, `edgeBestOverlap`: the best
    active edge at a vertex by cost, by score or by overlap length, each
    order broken by the other criteria and then by age.
  * `AssemblyGraph.mutualBest`: the overlap edges that are best at both ends;
    `AssemblyGraph.safeEdges` takes the cheapest.
  * `AssemblyGraph.buildPaths`: from a set of edge ids, takes edges cheapest
    first while neither end has one yet and the edge joins two components
    (Kruskal's rule), then spells every sequence in no host into exactly one
    path, walking from one end of its component to the other.
-/

namespace OverlapLayout

namespace AssemblyGraph

/-- The first element that no later one comes before. -/
def least {α : Type} (before : α → α → Bool) : List α → Option α
  | [] => none
  | x :: xs => some (xs.foldl (fun m y => if before y m then y else m) x)

/-- Lower cost, then higher score, then the older edge. -/
def cheaper (a b : Nat × Edge) : Bool :=
  a.2.cost < b.2.cost ||
    (a.2.cost == b.2.cost && (b.2.score < a.2.score || (a.2.score == b.2.score && a.1 < b.1)))

/-- Higher score, then lower cost, then the older edge. -/
def scoresHigher (a b : Nat × Edge) : Bool :=
  b.2.score < a.2.score ||
    (a.2.score == b.2.score && (a.2.cost < b.2.cost || (a.2.cost == b.2.cost && a.1 < b.1)))

/-- Longer overlap, then lower cost, then the older edge. -/
def overlapsLonger (a b : Nat × Edge) : Bool :=
  b.2.evidence.overlap < a.2.evidence.overlap ||
    (a.2.evidence.overlap == b.2.evidence.overlap &&
      (a.2.cost < b.2.cost || (a.2.cost == b.2.cost && a.1 < b.1)))

/-- Whether an edge joins two sequences that lie in no host. -/
def joinsFree (g : AssemblyGraph) (e : Edge) : Bool :=
  !e.isIdentity && !g.isContained e.v1.sequence && !g.isContained e.v2.sequence

/-- The live overlap edges at a vertex between sequences in no host. -/
def activeEdges (g : AssemblyGraph) (v : Vertex) : List (Nat × Edge) :=
  (g.edgesOf v).filter fun (_, e) => g.joinsFree e

/-- The cheapest active edge at a vertex. -/
def edgeMinCost (g : AssemblyGraph) (v : Vertex) : Option Nat :=
  (least cheaper (g.activeEdges v)).map (·.1)

/-- The best scoring active edge at a vertex. -/
def edgeMaxScore (g : AssemblyGraph) (v : Vertex) : Option Nat :=
  (least scoresHigher (g.activeEdges v)).map (·.1)

/-- The active edge with the longest overlap at a vertex. -/
def edgeBestOverlap (g : AssemblyGraph) (v : Vertex) : Option Nat :=
  (least overlapsLonger (g.activeEdges v)).map (·.1)

/-- The overlap edges between sequences in no host that `best` picks at both ends, by id. -/
def mutualBest (g : AssemblyGraph) (best : Vertex → Option Nat) : List Nat :=
  (g.overlapEdges.filter fun (id, e) =>
    g.joinsFree e && best e.v1 == some id && best e.v2 == some id).map (·.1)

/-- The edges that are the cheapest at both ends. -/
def safeEdges (g : AssemblyGraph) : List Nat := g.mutualBest g.edgeMinCost

/-- Drops an element equal in id to the one before it. -/
def dedupIds : List (Nat × Edge) → List (Nat × Edge)
  | a :: b :: rest => if a.1 == b.1 then dedupIds (a :: rest) else a :: dedupIds (b :: rest)
  | l => l

/-- The live edges among `ids` joining sequences in no host, in increasing
`(cost, id)`, each once. -/
def pathCandidates (g : AssemblyGraph) (ids : List Nat) : List (Nat × Edge) :=
  let live := (ids.filterMap fun id => (g.edge? id).map (id, ·)).filter fun (_, e) => g.joinsFree e
  dedupIds (live.mergeSort fun a b => a.2.cost < b.2.cost || (a.2.cost == b.2.cost && a.1 ≤ b.1))

/-- Gives each vertex at most one edge: candidates in order, an edge taken when
neither end has one and it joins two components. -/
def choosePartners (g : AssemblyGraph) (candidates : List (Nat × Edge)) : Array (Option Nat) :=
  (candidates.foldl (fun (partner, components) (id, e) =>
    if (partner.getD e.v1.id none).isSome || (partner.getD e.v2.id none).isSome then
      (partner, components)
    else
      let (joined, components) := components.union e.v1.sequence e.v2.sequence
      if joined then ((partner.set! e.v1.id (some id)).set! e.v2.id (some id), components)
      else (partner, components))
    (Array.replicate (2 * g.size) none, UnionFind.new g.size)).1

/-- The vertex across the partner edge of `v`. -/
def partnerAcross (g : AssemblyGraph) (partner : Array (Option Nat)) (v : Vertex) : Option Vertex :=
  ((partner.getD v.id none).bind g.edge?).bind (·.across v)

/-- Walks from `v` through partner edges and sequences to the end of the chain,
stopping on coming back to sequence `s`. -/
def walkToEnd (g : AssemblyGraph) (partner : Array (Option Nat)) (s : Nat) : Nat → Vertex → Vertex
  | 0, v => v
  | fuel + 1, v =>
    match g.partnerAcross partner v with
    | some next =>
      let v := next.opposite
      if v.sequence = s then v else walkToEnd g partner s fuel v
    | none => v

/-- Extends a path to the right through partner edges and identity edges until a
visited sequence or the end of the chain. -/
def extendRight (g : AssemblyGraph) (partner : Array (Option Nat)) :
    Nat → Path → Array Bool → Path × Array Bool
  | 0, p, visited => (p, visited)
  | fuel + 1, p, visited =>
    match partner.getD p.right.id none with
    | none => (p, visited)
    | some id =>
      match p.connectRight g id with
      | none => (p, visited)
      | some p =>
        let next := p.right.sequence
        if visited.getD next false then (p, visited)
        else
          let visited := visited.set! next true
          match g.identityEdge? next with
          | none => (p, visited)
          | some self => extendRight g partner fuel ((p.connectRight g self).getD p) visited

/-- The paths spelt by the edges among `ids` chosen by `choosePartners`: one per
chain, every sequence in no host in exactly one. -/
def buildPaths (g : AssemblyGraph) (ids : List Nat) : List Path :=
  let partner := g.choosePartners (g.pathCandidates ids)
  let n := g.size
  ((List.range n).foldl (fun (paths, visited) s =>
    if visited.getD s false || g.isContained s then (paths, visited)
    else
      let stop := g.walkToEnd partner s (n + 1) (.startOf s)
      match Path.singleton? g stop.sequence with
      | none => (paths, visited)
      | some p =>
        let p := if p.left == stop then p else p.reverse
        let (p, visited) := g.extendRight partner (n + 1) p (visited.set! stop.sequence true)
        (paths.push p, visited)) ((#[] : Array Path), Array.replicate n false)).1.toList

end AssemblyGraph

end OverlapLayout
