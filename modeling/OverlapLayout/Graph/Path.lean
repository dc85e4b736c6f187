import OverlapLayout.Graph.Relationship
/-!
  Paths through the read graph.

  A path is a walk given by its edge ids from its left vertex to its right
  vertex; absorbed short paths hang off it as alternatives, and a consensus
  text may be attached later. This module holds what needs no graph:
  reversal and the attachments. The walks themselves are read against a
  graph in `OverlapLayout.Graph.Basic`.
-/

namespace OverlapLayout

/-- A walk through the graph, by edge ids. -/
structure Path where
  /-- Its number once stored, 0 before. -/
  id : Nat := 0
  /-- The vertex it starts from. -/
  left : Vertex
  /-- The vertex it ends at. -/
  right : Vertex
  /-- The edges from left to right. -/
  edges : Array Nat
  /-- Short paths absorbed into this one. -/
  alternatives : Array Path := #[]
  /-- The consensus text, once computed. -/
  consensus : Option String := none
  deriving Repr, Inhabited

namespace Path

/-- The number of edges, identity edges included. -/
def length (p : Path) : Nat := p.edges.size

/-- The same walk read from right to left. -/
def reverse (p : Path) : Path := { p with left := p.right, right := p.left, edges := p.edges.reverse }

/-- Adds an absorbed path. -/
def addAlternative (p : Path) (q : Path) : Path := { p with alternatives := p.alternatives.push q }

/-- Sets the consensus text. -/
def setConsensus (p : Path) (s : String) : Path := { p with consensus := some s }

end Path

end OverlapLayout
