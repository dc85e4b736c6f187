import OverlapLayout.Graph.Basic
import OverlapLayout.Error
/-!
  Removing weak relationships and flagging chimeric hosts.

  * `AssemblyGraph.filterAround`: of a sequence's containments, and of the
    overlap edges at each of its ends, drops those scoring below `ratio` times
    the best of their group.
  * `AssemblyGraph.pruneContained`: removes every overlap edge of a sequence
    that lies in a host; a contained read is placed by its host.
  * `AssemblyGraph.hasInternalGap`: whether the reads lying in a host leave a
    stretch uncovered, away from the host's ends (a tenth of its length on
    each side), with at least `depth` reads wholly on each side of it. Flank
    counts are the same along one uncovered stretch, so each stretch is
    checked once.
  * `AssemblyGraph.detectChimeric`: flags the hosts with such a gap.
  * `AssemblyGraph.containedInChimeric`: the sequences all of whose hosts are
    chimeric.
-/

namespace OverlapLayout

namespace AssemblyGraph

/-- The greatest of a list of scores. -/
def bestScore (scores : List Nat) : Option Nat :=
  scores.foldl (fun best s => some (match best with | some b => max b s | none => s)) none

/-- Whether a score falls below `ratio` times the best one. -/
def belowRatio (ratio : Float) (best score : Nat) : Bool := score.toFloat < ratio * best.toFloat

/-- Drops the overlap edges at a vertex scoring below `ratio` times the best there. -/
def filterAt (g : AssemblyGraph) (ratio : Float) (v : Vertex) : AssemblyGraph :=
  let candidates := ((g.edgesOf v).filter fun (_, e) => !e.isIdentity).map fun (id, e) => (id, e.score)
  match bestScore (candidates.map (·.2)) with
  | none => g
  | some best =>
    candidates.foldl (fun g (id, s) => if belowRatio ratio best s then (g.removeEdge id).2 else g) g

/-- Keeps, of a sequence's containments and of the overlap edges at each of its
ends, those scoring at least `ratio` times the best of their group. -/
def filterAround (g : AssemblyGraph) (s : Nat) (ratio : Float) : AssemblyGraph :=
  if !g.contains s then g
  else
    let hosts := g.containmentsOf s
    let g := match bestScore (hosts.toList.map (·.score)) with
      | none => g
      | some best =>
        hosts.foldl (fun g (c : Containment) => if belowRatio ratio best c.score then (g.removeContainment c).2 else g) g
    (g.filterAt ratio (.startOf s)).filterAt ratio (.endOf s)

/-- Removes every overlap edge at a vertex. -/
def detachVertex (g : AssemblyGraph) (v : Vertex) : AssemblyGraph :=
  let ids := ((g.edgesOf v).filter fun (_, e) => !e.isIdentity).map (·.1)
  ids.foldl (fun g id => (g.removeEdge id).2) g

/-- Removes the overlap edges of every contained sequence; answers how many
sequences are contained. -/
def pruneContained (g : AssemblyGraph) : Nat × AssemblyGraph :=
  let contained := g.bySequence.keys
  (contained.length,
    contained.foldl (fun g s => (g.detachVertex (.startOf s)).detachVertex (.endOf s)) g)

/-- The change of depth at each position of a host of length `length`: each
read adds one where it starts and takes one off where it ends, both clamped to
the host. -/
def depthChanges (records : Array Containment) (length : Nat) : Array Int :=
  records.foldl (fun delta c =>
    let start := min c.hostStart length
    let stop := min c.hostEnd length
    if start < stop then (delta.modify start (· + 1)).modify stop (· - 1) else delta)
    (Array.replicate (length + 1) 0)

/-- Whether both flanks of position `pos` hold at least `depth` reads. -/
def flanksDeep (records : Array Containment) (depth pos : Nat) : Bool :=
  depth ≤ (records.filter fun c => c.hostEnd ≤ pos).size &&
    depth ≤ (records.filter fun c => pos < c.hostStart).size

/-- Scans the positions from `pos` on, the running depth being `covered` and
`checked` telling whether the current uncovered stretch was checked. -/
def scanGaps (records : Array Containment) (delta : Array Int) (length margin depth : Nat) :
    Nat → Nat → Int → Bool → Bool
  | 0, _, _, _ => false
  | fuel + 1, pos, covered, checked =>
    if length ≤ pos then false
    else
      let covered := covered + delta.getD pos 0
      if 0 < covered then scanGaps records delta length margin depth fuel (pos + 1) covered false
      else if checked || pos < margin || length ≤ pos + margin then
        scanGaps records delta length margin depth fuel (pos + 1) covered checked
      else if flanksDeep records depth pos then true
      else scanGaps records delta length margin depth fuel (pos + 1) covered true

/-- Whether the reads in a host of the given length leave an uncovered stretch
away from its ends with `depth` reads on each side. At least `2 · max depth 1`
reads are needed; that product overflows a word for a huge `depth`. -/
def hasInternalGap (records : Array Containment) (length depth : Nat) : Except Panic Bool := do
  let needed ← checkedMul 64 2 (max depth 1)
  if records.size < needed || length = 0 then return false
  let margin := (0.1 * length.toFloat).toWord
  return scanGaps records (depthChanges records length) length margin depth length 0 0 false

/-- Flags the hosts, in increasing order, whose reads leave an internal gap;
answers the newly flagged ones. -/
def detectChimeric (g : AssemblyGraph) (depth : Nat) : Except Panic (List Nat × AssemblyGraph) :=
  g.byHost.keys.foldlM (fun (flagged, g) host => do
    if g.isChimeric host then return (flagged, g)
    match g.length? host with
    | none => return (flagged, g)
    | some length =>
      if ← hasInternalGap (g.containedIn host) length depth then
        return (flagged ++ [host], g.markChimeric host)
      else return (flagged, g)) ([], g)

/-- The contained sequences, in increasing order, all of whose hosts are chimeric. -/
def containedInChimeric (g : AssemblyGraph) : List Nat :=
  (g.bySequence.toList.filter fun (_, l) => !l.isEmpty && l.all fun c => g.isChimeric c.host).map (·.1)

end AssemblyGraph

end OverlapLayout
