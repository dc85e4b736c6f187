import Std.Data.HashMap
import OverlapLayout.Graph.Select
import OverlapLayout.Config.Basic
/-!
  Where vertices sit in a list of paths.

  * `PathLocation`: the path holding a vertex, that path's number of edges,
    and the vertex's place along it.
  * `locate`: the location of every vertex of a list of paths; a vertex
    found in two paths is placed in the later.
  * `connectedLocation`: the location of the vertex reached from a vertex
    through its cheapest edge.
  * `PathLocation.endId`: the signed end a location is close to: `+i` for the
    left end of the `i`-th path (counting from 1), `-i` for its right end,
    nothing in the middle. The window of closeness is read as a signed word,
    and the right-end test subtracts it from the path length, which
    overflows for the most negative window.
-/

namespace OverlapLayout

/-- Where a vertex sits in a list of paths. -/
structure PathLocation where
  /-- Index of the path. -/
  path : Nat
  /-- Number of edges of the path. -/
  pathLength : Nat
  /-- Place of the vertex along the path, from 0. -/
  position : Nat
  deriving Repr, Inhabited, DecidableEq

/-- The locations of the vertices of a list of paths, by vertex number. -/
def locate (g : AssemblyGraph) (paths : List Path) : Std.HashMap Nat PathLocation :=
  paths.zipIdx.foldl (fun m (p, i) =>
    (p.vertices g).zipIdx.foldl (fun m (v, position) =>
      m.insert v.id { path := i, pathLength := p.length, position }) m) {}

/-- The location of the vertex across the cheapest edge at `v`. -/
def connectedLocation (g : AssemblyGraph) (positions : Std.HashMap Nat PathLocation) (v : Vertex) :
    Option PathLocation :=
  ((g.edgeMinCost v).bind g.edge?).bind fun e => (e.across v).bind fun w => positions.get? w.id

/-- A word read as a signed word of 64 bits. -/
def signedWord (n : Nat) : Int := if n < Nat.pow 2 63 then n else (n : Int) - Int.pow 2 64

/-- The signed path end within `window` places of a location, if any. -/
def PathLocation.endId (loc : PathLocation) (window : Nat) : Except Panic (Option Int) := do
  let id : Int := loc.path + 1
  let w := signedWord window
  let rightLimit : Int := loc.pathLength - w
  if Int.pow 2 63 ≤ rightLimit then throw .subOverflow
  if rightLimit < loc.position then return some (-id)
  else if w < loc.position then return none
  else return some id

end OverlapLayout
