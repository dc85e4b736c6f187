import OverlapLayout.Graph.Walk
import OverlapLayout.Stats.NStats
/-!
  Stored paths and what becomes of each sequence.

  * `AssemblyGraph.addPath`: stores a path with id its 1-based position and
    assigns its sequences, and those of its alternatives, to it.
  * `SequenceStatus`, `AssemblyGraph.status`: a sequence lies in a host, is
    spelt by a stored path, or stands alone.
  * `AssemblyGraph.contiguity`: the N-statistics of the stored paths' lengths.
  * `AssemblyGraph.chimericSequences`, `isolatedVertices`, `isolatedSequences`,
    `containments`: the flags and records of the graph, in increasing order.
-/

namespace OverlapLayout

/-- What became of a sequence. -/
inductive SequenceStatus
  /-- It lies in a host. -/
  | contained
  /-- It is spelt by the stored path at this index. -/
  | inPath (index : Nat)
  /-- Neither. -/
  | alone
  deriving Repr, DecidableEq

namespace AssemblyGraph

/-- Stores a path: its id becomes its 1-based position, and its sequences and
those of its alternatives are assigned to it. -/
def addPath (g : AssemblyGraph) (p : Path) : AssemblyGraph :=
  let index := g.paths.size
  let p := { p with id := index + 1 }
  let sequences := p.sequenceIds g ++ (p.alternatives.toList.flatMap (·.sequenceIds g))
  { g with
    pathOf := sequences.foldl (fun pathOf s =>
      if s < pathOf.size then pathOf.set! s (some index) else pathOf) g.pathOf
    paths := g.paths.push p }

/-- What became of a sequence. -/
def status (g : AssemblyGraph) (s : Nat) : SequenceStatus :=
  if g.isContained s then .contained
  else match (g.pathOf[s]?).join with
    | some i => .inPath i
    | none => .alone

/-- N-statistics of the stored paths' estimated lengths. -/
def contiguity (g : AssemblyGraph) : Except Panic (Option NStats) :=
  NStats.ofLengths (g.paths.toList.map (·.estimatedLength g))

/-- The indices whose flag is set, in increasing order. -/
def flagged (flags : Array Bool) : List Nat :=
  (flags.toList.zipIdx.filter (·.1)).map (·.2)

/-- The sequences flagged chimeric. -/
def chimericSequences (g : AssemblyGraph) : List Nat := flagged g.chimeric

/-- The vertex numbers flagged isolated. -/
def isolatedVertices (g : AssemblyGraph) : List Nat := flagged g.isolated

/-- The sequences in no host and with no overlap edge. -/
def isolatedSequences (g : AssemblyGraph) : List Nat := (List.range g.size).filter g.isIsolated

/-- Every containment record, by contained sequence and then in list order. -/
def containments (g : AssemblyGraph) : List Containment :=
  g.bySequence.toList.flatMap (·.2.toList)

end AssemblyGraph

end OverlapLayout
