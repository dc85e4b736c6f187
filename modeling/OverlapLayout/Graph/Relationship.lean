import OverlapLayout.Stats.Basic
/-!
  Vertices, edges and containments of the read graph.

  * `Vertex`: one end of a sequence, numbered `2 s` for its start and
    `2 s + 1` for its end (`Vertex.id`, `Vertex.ofId`).
  * `Evidence`: the support of a relationship: overlap length, shared
    k-mers, weighted coverage, evidence proportion, indel rate.
  * `Edge`: an overlap between ends of two sequences, or the identity edge
    joining the two ends of one sequence.
  * `Containment`: a sequence lying inside a longer host, at
    `hostStart .. hostEnd`, possibly reverse complemented.
  * `Relationship`: an edge or a containment, as found by discovery.
-/

namespace OverlapLayout

/-- One end of a sequence. -/
structure Vertex where
  /-- The sequence. -/
  sequence : Nat
  /-- The start (`true`) or the end (`false`) of it. -/
  start : Bool
  deriving Repr, DecidableEq, Inhabited, Hashable

namespace Vertex

/-- The start of a sequence. -/
def startOf (s : Nat) : Vertex := ⟨s, true⟩

/-- The end of a sequence. -/
def endOf (s : Nat) : Vertex := ⟨s, false⟩

/-- The vertex number: `2 s` for a start, `2 s + 1` for an end. -/
def id (v : Vertex) : Nat := 2 * v.sequence + (if v.start then 0 else 1)

/-- The vertex of a number. -/
def ofId (n : Nat) : Vertex := ⟨n / 2, n % 2 == 0⟩

/-- The other end of the same sequence. -/
def opposite (v : Vertex) : Vertex := ⟨v.sequence, !v.start⟩

/-- Vertices ordered by sequence, an end (`false`) before a start (`true`). -/
def key (v : Vertex) : Nat × Bool := (v.sequence, v.start)

end Vertex

/-- The support of a relationship. -/
structure Evidence where
  /-- Length of the overlapping region. -/
  overlap : Nat := 0
  /-- Number of k-mer hits behind it. -/
  sharedKmers : Nat := 0
  /-- Query bases covered by hits, weighted by k-mer uniqueness. -/
  weightedCoverage : Float := 0
  /-- Fraction of the region's k-mers explained by the hits. -/
  evidenceProportion : Float := 0
  /-- Diagonal drift per thousand bases. -/
  indelsPerKbp : Float := 0
  deriving Repr, Inhabited

/-- Weighted coverage relative to the overlap length plus one. -/
def Evidence.coverageProportion (e : Evidence) : Float :=
  e.weightedCoverage / (e.overlap.toFloat + 1)

/-- An overlap between two vertices. -/
structure Edge where
  /-- First vertex. -/
  v1 : Vertex
  /-- Second vertex. -/
  v2 : Vertex
  /-- Its support. -/
  evidence : Evidence := {}
  /-- Spread of the hit diagonals. -/
  overlapSd : Float := 0
  /-- Score, higher is better. -/
  score : Nat := 0
  /-- Cost, lower is better. -/
  cost : Nat := 0
  deriving Repr, Inhabited

namespace Edge

/-- The edge joining both ends of a sequence of length `len`. -/
def identity (s len : Nat) : Edge :=
  { v1 := .startOf s, v2 := .endOf s,
    evidence := { overlap := len, weightedCoverage := len.toFloat, evidenceProportion := 1 } }

/-- Both ends belong to one sequence. -/
def isIdentity (e : Edge) : Bool := e.v1.sequence == e.v2.sequence

/-- The vertex across the edge from `v`, if the edge touches `v`. -/
def across (e : Edge) (v : Vertex) : Option Vertex :=
  if e.v1 = v then some e.v2 else if e.v2 = v then some e.v1 else none

/-- The vertex numbers in increasing order: the edge's key in a graph. -/
def key (e : Edge) : Nat × Nat :=
  let a := e.v1.id
  let b := e.v2.id
  if a ≤ b then (a, b) else (b, a)

end Edge

/-- A sequence lying inside a longer host. -/
structure Containment where
  /-- The contained sequence. -/
  sequence : Nat
  /-- The host. -/
  host : Nat
  /-- Start of the contained sequence in the host. -/
  hostStart : Nat
  /-- End of it in the host. -/
  hostEnd : Nat
  /-- Contained in reverse complement. -/
  reverse : Bool
  /-- Its support. -/
  evidence : Evidence := {}
  /-- Score, higher is better. -/
  score : Nat := 0
  /-- Cost, lower is better. -/
  cost : Nat := 0
  deriving Repr, Inhabited

/-- Two records describe the same placement: sequence, host, start and strand agree. -/
def Containment.samePlacement (a b : Containment) : Bool :=
  a.sequence == b.sequence && a.host == b.host && a.hostStart == b.hostStart &&
    a.reverse == b.reverse

/-- A relationship found between two sequences. -/
inductive Relationship
  /-- An overlap of their ends. -/
  | edge (e : Edge)
  /-- One inside the other. -/
  | contained (c : Containment)
  deriving Repr, Inhabited

namespace Relationship

/-- Its support. -/
def evidence : Relationship → Evidence
  | .edge e => e.evidence
  | .contained c => c.evidence

/-- Its score. -/
def score : Relationship → Nat
  | .edge e => e.score
  | .contained c => c.score

/-- Its cost. -/
def cost : Relationship → Nat
  | .edge e => e.cost
  | .contained c => c.cost

/-- Sets score and cost. -/
def withScores (r : Relationship) (score cost : Nat) : Relationship :=
  match r with
  | .edge e => .edge { e with score, cost }
  | .contained c => .contained { c with score, cost }

/-- The diagonal spread of an edge; containments record none. -/
def overlapSd? : Relationship → Option Float
  | .edge e => some e.overlapSd
  | .contained _ => none

/-- The two sequences related. -/
def sequences : Relationship → Nat × Nat
  | .edge e => (e.v1.sequence, e.v2.sequence)
  | .contained c => (c.sequence, c.host)

end Relationship

end OverlapLayout
