import Std.Data.HashMap
import Std.Data.TreeMap
import OverlapLayout.Graph.Path
/-!
  The read graph: two vertices per sequence, an identity edge joining them,
  overlap edges between vertices of different sequences, and containment
  records kept both by host and by contained sequence.

  * Edges live in an arena: identity edges are `0 .. n - 1`, overlap edges
    follow in insertion order, and a removed edge leaves its slot empty, so
    ids never change and are never reused.
  * `AssemblyGraph.addRelationship`: refuses a relationship naming an
    unknown sequence or relating a sequence to itself. Of two edges between
    the same vertices the one of lower `(cost, -score)` stays, the older on a
    tie; a containment already recorded at the same place is refused.
  * `AssemblyGraph.removeRelationship`: removes the live edge between the
    vertices of an overlap, or every record of a containment's placement.
  * A vertex is flagged isolated when it loses its last overlap edge, and the
    flag clears when it gains one.
-/

namespace OverlapLayout

/-- The read graph. -/
structure AssemblyGraph where
  /-- Length of each sequence. -/
  lengths : Array Nat
  /-- The edge arena; removed edges leave `none`. -/
  edges : Array (Option Edge) := #[]
  /-- Ids of the edges at each vertex, in insertion order. -/
  adjacency : Array (Array Nat)
  /-- The live edge between two vertex numbers, keyed in increasing order. -/
  index : Std.HashMap (Nat × Nat) Nat := {}
  /-- Containments by host, each list in insertion order. -/
  byHost : Std.TreeMap Nat (Array Containment) compare := {}
  /-- Containments by contained sequence, each list in insertion order. -/
  bySequence : Std.TreeMap Nat (Array Containment) compare := {}
  /-- Hosts flagged chimeric. -/
  chimeric : Array Bool
  /-- Vertices that lost their last overlap edge. -/
  isolated : Array Bool
  /-- The stored paths. -/
  paths : Array Path := #[]
  /-- The stored path holding each sequence. -/
  pathOf : Array (Option Nat)
  /-- Number of live overlap edges. -/
  overlapCount : Nat := 0
  /-- The expected length of the assembly. -/
  expectedLength : Nat := 0
  /-- The ploidy, at least 1. -/
  ploidy : Nat := 1
  deriving Inhabited

namespace AssemblyGraph

/-- Number of sequences. -/
def size (g : AssemblyGraph) : Nat := g.lengths.size

/-- Whether a sequence id is known. -/
def contains (g : AssemblyGraph) (s : Nat) : Bool := s < g.size

/-- The length of a sequence, if known. -/
def length? (g : AssemblyGraph) (s : Nat) : Option Nat := g.lengths[s]?

/-- A live edge by id. -/
def edge? (g : AssemblyGraph) (id : Nat) : Option Edge := (g.edges[id]?).join

/-- Ids of the edges touching a vertex, in insertion order. -/
def adjacent (g : AssemblyGraph) (v : Vertex) : Array Nat := g.adjacency.getD v.id #[]

/-- Live edges touching a vertex, identity edge included, in insertion order. -/
def edgesOf (g : AssemblyGraph) (v : Vertex) : List (Nat × Edge) :=
  (g.adjacent v).toList.filterMap fun id => (g.edge? id).map (id, ·)

/-- Whether a vertex has a live overlap edge. -/
def hasOverlapEdges (g : AssemblyGraph) (v : Vertex) : Bool :=
  (g.edgesOf v).any fun (_, e) => !e.isIdentity

/-- Live overlap edges, by id. -/
def overlapEdges (g : AssemblyGraph) : List (Nat × Edge) :=
  g.edges.toList.zipIdx.filterMap fun (e?, id) =>
    match e? with
    | some e => if e.isIdentity then none else some (id, e)
    | none => none

/-- Stores a new edge at the end of the arena. -/
def insertEdge (g : AssemblyGraph) (e : Edge) : AssemblyGraph :=
  let id := g.edges.size
  let overlap := !e.isIdentity
  let touch (g : AssemblyGraph) (v : Vertex) : AssemblyGraph :=
    { g with
      adjacency := g.adjacency.modify v.id (·.push id)
      isolated := if overlap then g.isolated.set! v.id false else g.isolated }
  let g := touch (touch g e.v1) e.v2
  { g with
    overlapCount := if overlap then g.overlapCount + 1 else g.overlapCount
    index := g.index.insert e.key id
    edges := g.edges.push (some e) }

/-- Removes a live edge; `false` if the id holds none. A vertex left without
overlap edges by the removal of an overlap edge is flagged isolated. -/
def removeEdge (g : AssemblyGraph) (id : Nat) : Bool × AssemblyGraph :=
  match g.edge? id with
  | none => (false, g)
  | some e =>
    let g := { g with edges := g.edges.set! id none, index := g.index.erase e.key }
    let detach (g : AssemblyGraph) (v : Vertex) : AssemblyGraph :=
      let g := { g with adjacency := g.adjacency.modify v.id (·.filter (· ≠ id)) }
      if !e.isIdentity && !g.hasOverlapEdges v then { g with isolated := g.isolated.set! v.id true }
      else g
    let g := detach (detach g e.v1) e.v2
    (true, if e.isIdentity then g else { g with overlapCount := g.overlapCount - 1 })

/-- A graph of sequences with the given lengths, each with its identity edge. -/
def new (lengths : Array Nat) : AssemblyGraph :=
  let n := lengths.size
  let g : AssemblyGraph :=
    { lengths, adjacency := Array.replicate (2 * n) #[], chimeric := Array.replicate n false,
      isolated := Array.replicate (2 * n) false, pathOf := Array.replicate n none }
  lengths.toList.zipIdx.foldl (fun g (len, s) => g.insertEdge (Edge.identity s len)) g

/-- The vertex of a known sequence. -/
def vertex? (g : AssemblyGraph) (s : Nat) (start : Bool) : Option Vertex :=
  if g.contains s then some ⟨s, start⟩ else none

/-- The identity edge of a sequence, if live. -/
def identityEdge? (g : AssemblyGraph) (s : Nat) : Option Nat :=
  (g.edge? s).map fun _ => s

/-- The live edge between two vertices. -/
def findEdge? (g : AssemblyGraph) (v1 v2 : Vertex) : Option Nat :=
  g.index.get? ({ v1, v2 } : Edge).key

/-- The containments of a sequence in its hosts. -/
def containmentsOf (g : AssemblyGraph) (s : Nat) : Array Containment := g.bySequence.getD s #[]

/-- The containments within a host. -/
def containedIn (g : AssemblyGraph) (h : Nat) : Array Containment := g.byHost.getD h #[]

/-- Whether a sequence lies in some host. -/
def isContained (g : AssemblyGraph) (s : Nat) : Bool := g.bySequence.contains s

/-- Number of containment records. -/
def containmentCount (g : AssemblyGraph) : Nat :=
  g.bySequence.foldl (fun n _ l => n + l.size) 0

/-- Number of sequences lying in some host. -/
def containedCount (g : AssemblyGraph) : Nat := g.bySequence.size

/-- Drops the records of a placement from one list of a containment map. -/
def dropPlacement (m : Std.TreeMap Nat (Array Containment) compare) (key : Nat) (c : Containment) :
    Bool × Std.TreeMap Nat (Array Containment) compare :=
  match m.get? key with
  | none => (false, m)
  | some l =>
    let l' := l.filter fun x => !x.samePlacement c
    (l'.size ≠ l.size, if l'.isEmpty then m.erase key else m.insert key l')

/-- Removes every record of a containment's placement from both maps; reports
whether the contained sequence's list lost one. -/
def removeContainment (g : AssemblyGraph) (c : Containment) : Bool × AssemblyGraph :=
  let (removed, bySequence) := dropPlacement g.bySequence c.sequence c
  let (_, byHost) := dropPlacement g.byHost c.host c
  (removed, { g with bySequence, byHost })

/-- Adds a relationship; `false` when refused or when an edge already there is kept. -/
def addRelationship (g : AssemblyGraph) (r : Relationship) : Bool × AssemblyGraph :=
  let (a, b) := r.sequences
  if !g.contains a || !g.contains b || a == b then (false, g)
  else
    match r with
    | .edge e =>
      match g.findEdge? e.v1 e.v2 with
      | some old =>
        let keepOld := match g.edge? old with
          | some o => o.cost < e.cost || (o.cost == e.cost && e.score ≤ o.score)
          | none => false
        if keepOld then (false, g) else (true, (g.removeEdge old).2.insertEdge e)
      | none => (true, g.insertEdge e)
    | .contained c =>
      if (g.containmentsOf c.sequence).any (·.samePlacement c) then (false, g)
      else
        (true, { g with
          byHost := g.byHost.alter c.host fun l => some ((l.getD #[]).push c)
          bySequence := g.bySequence.alter c.sequence fun l => some ((l.getD #[]).push c) })

/-- Removes a relationship; `false` when it was not there. -/
def removeRelationship (g : AssemblyGraph) (r : Relationship) : Bool × AssemblyGraph :=
  match r with
  | .edge e =>
    if e.isIdentity then (false, g)
    else match g.findEdge? e.v1 e.v2 with
      | some id => g.removeEdge id
      | none => (false, g)
  | .contained c => g.removeContainment c

/-- Whether a host is flagged chimeric. -/
def isChimeric (g : AssemblyGraph) (s : Nat) : Bool := g.chimeric.getD s false

/-- Flags a known sequence as chimeric. -/
def markChimeric (g : AssemblyGraph) (s : Nat) : AssemblyGraph :=
  if s < g.chimeric.size then { g with chimeric := g.chimeric.set! s true } else g

/-- Whether a vertex lost its last overlap edge. -/
def isVertexIsolated (g : AssemblyGraph) (v : Vertex) : Bool := g.isolated.getD v.id false

/-- A known sequence in no host and with no overlap edge at either end. -/
def isIsolated (g : AssemblyGraph) (s : Nat) : Bool :=
  g.contains s && !g.isContained s && !g.hasOverlapEdges (.startOf s) &&
    !g.hasOverlapEdges (.endOf s)

/-- Sets the expected assembly length. -/
def setExpectedLength (g : AssemblyGraph) (n : Nat) : AssemblyGraph := { g with expectedLength := n }

/-- Sets the ploidy, at least 1. -/
def setPloidy (g : AssemblyGraph) (p : Nat) : AssemblyGraph := { g with ploidy := max p 1 }

end AssemblyGraph

end OverlapLayout
