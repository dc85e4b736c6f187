import OverlapLayout.Assembly.Read
import OverlapLayout.Seed.Index
import OverlapLayout.Discovery.Placement
import OverlapLayout.Graph.Cleanup
import OverlapLayout.Graph.Scores
import OverlapLayout.Layout.Find
/-!
  Building the read graph and laying it out.

  `LayoutConfig.build` runs its phases in order:

  1. the backbone, the shortest prefix of the reads whose total length
     exceeds the backbone coverage of the expected assembly (all reads when
     that length is unknown), is indexed (`index-backbone`);
  2. each backbone read is compared with the index, its relationships are
     added and then filtered around it (`discovery-backbone`);
  3. each other read is searched for containment in the backbone; its
     reliable containments are added and settle it (`discovery-embedded`);
  4. hosts with an internal gap are flagged chimeric, and settled reads all
     of whose hosts are chimeric lose their containments again;
  5. the unsettled reads are indexed (`index-remaining`) and
  6. compared as in 2 (`discovery-remaining`);
  7. every relationship is rescored, and the overlap edges of contained
     reads are removed.

  A violated check inside a phase interrupts the build with the phase's
  name, and a failed reservation inside one is reported as it is; a violated
  check outside the phases, and a failed allocation anywhere, end the build as
  they are (`Panic.inPhase`). The phases that hand their results back in order
  first reserve a slot per read. `LayoutConfig.assemble` lays out the built
  graph.
-/

namespace OverlapLayout

namespace LayoutConfig

/-- The lengths of the reads, whose ids must be their positions. -/
def readLengths (reads : List Read) : Except LayoutError (Array Nat) :=
  reads.zipIdx.foldlM (fun lengths (r, i) =>
    if r.id ≠ i then
      throw (.config ("sequence ids must be contiguous: found id " ++ toString r.id ++
        " at position " ++ toString i))
    else if Nat.pow 2 32 ≤ r.bases.length then throw (.config ("sequence " ++ r.name ++ " is too long"))
    else pure (lengths.push r.bases.length)) #[]

/-- The number of leading reads whose total length first exceeds the backbone
coverage of the expected assembly; all of them when that length is 0. -/
def backbonePrefix (c : LayoutConfig) (lengths : List Nat) (expected : Nat) : Nat :=
  if expected = 0 then lengths.length
  else
    let limit := c.backboneCoverage * c.ploidy.toFloat * expected.toFloat
    go limit lengths 0 0
where
  /-- Adds lengths to `total` until it exceeds `limit`; `count` reads so far. -/
  go (limit : Float) : List Nat → Nat → Nat → Nat
    | [], count, _ => count
    | len :: rest, count, total =>
      if limit < (total + len).toFloat then count + 1 else go limit rest (count + 1) (total + len)

/-- Settings and tools shared by the phases of a build. -/
structure Discovery where
  /-- The memory allocator. -/
  alloc : Allocator
  /-- The reads. -/
  reads : Array Read
  /-- The read lengths. -/
  lengths : Array Nat
  /-- The relationship finder. -/
  finder : Finder

/-- The relationships of a read against the index, from its forward and then its
reverse-complement hits; none for a read that is not there. -/
def Discovery.relationships (d : Discovery) (ix : SeedIndex) (phase : String) (id : Nat)
    (mode : SearchMode) : Except Fault (List Relationship) :=
  match d.reads[id]? with
  | none => pure []
  | some r =>
    match ix.search d.alloc id r.bases with
    | .error f => throw (f.inPhase phase)
    | .ok forward =>
      match ix.search d.alloc id (reverseComplement r.bases) with
      | .error f => throw (f.inPhase phase)
      | .ok reverse =>
        match d.finder.infer id forward reverse mode with
        | .ok rs => pure rs
        | .error p => throw (p.inPhase phase)

/-- Indexes the given reads. -/
def Discovery.index (d : Discovery) (ix : SeedIndex) (phase : String) (ids : List Nat) :
    Except Fault SeedIndex :=
  ids.foldlM (fun ix id =>
    match ix.addSequence d.alloc id ((d.reads[id]?.map (·.bases)).getD []) with
    | .ok ix => pure ix
    | .error f => throw (f.inPhase phase)) ix

/-- Bytes of the slot that holds one read's relationships until they are taken in order. -/
def slotBytes : Nat := 24

/-- Reserves a slot per read for a phase that hands its results back in order. -/
def Discovery.reserveSlots (d : Discovery) (ids : List Nat) : Except Fault Unit :=
  (reserve d.alloc ids.length slotBytes 8).mapError fun e => .error e.toLayoutError

/-- Compares each read with the index, adding its relationships and filtering
around it before the next read. -/
def Discovery.discover (d : Discovery) (ix : SeedIndex) (ratio : Float) (phase : String)
    (ids : List Nat) (mode : SearchMode) (g : AssemblyGraph) : Except Fault AssemblyGraph := do
  d.reserveSlots ids
  ids.foldlM (fun g id => do
    let rs ← d.relationships ix phase id mode
    let g := rs.foldl (fun g r => (g.addRelationship r).2) g
    pure (g.filterAround id ratio)) g

/-- Searches each read for containment in the index, adding its reliable
containments; answers the graph and the containments that settled each read. -/
def Discovery.settle (d : Discovery) (ix : SeedIndex) (ids : List Nat) (g : AssemblyGraph) :
    Except Fault (AssemblyGraph × Std.HashMap Nat (List Relationship)) := do
  d.reserveSlots ids
  ids.foldlM (fun (g, settled) id => do
    let rs ← d.relationships ix "discovery-embedded" id { onlyContained := true }
    match selectGoodContainments rs d.lengths with
    | [] => pure (g, settled)
    | good => pure (good.foldl (fun g r => (g.addRelationship r).2) g, settled.insert id good))
    (g, {})

/-- Removes the containments of settled reads past the backbone all of whose
hosts are chimeric, and forgets that they were settled. -/
def releaseOrphans (prefixLength : Nat) (g : AssemblyGraph)
    (settled : Std.HashMap Nat (List Relationship)) :
    AssemblyGraph × Std.HashMap Nat (List Relationship) :=
  g.containedInChimeric.foldl (fun (g, settled) orphan =>
    if orphan < prefixLength then (g, settled)
    else match settled.get? orphan with
      | some rs => (rs.foldl (fun g r => (g.removeRelationship r).2) g, settled.erase orphan)
      | none => (g, settled)) (g, settled)

/-- Builds the read graph of validated settings from reads and a genome estimate, taking
memory from `alloc` and the score distributions from `dist`. -/
def build (alloc : Allocator) (dist : Distributions) (c : LayoutConfig) (reads : List Read)
    (estimate : GenomeEstimate) : Except Fault AssemblyGraph := do
  let lengths ← (readLengths reads).mapError .error
  let g := ((AssemblyGraph.new lengths).setExpectedLength estimate.expectedLength).setPloidy c.ploidy
  if reads.isEmpty then return g
  let finder ← (Finder.new c lengths).mapError .error
  let model ← (ScoreModel.new c.secondaryFeaturesWeight).mapError .error
  let d : Discovery := { alloc, reads := reads.toArray, lengths, finder }
  let ix := SeedIndex.new c.kmerLength c.windowLength estimate.modeDepth
  let n := reads.length
  let backboneLength := c.backbonePrefix lengths.toList estimate.expectedLength
  let backbone := List.range backboneLength
  let rest := (List.range n).drop backboneLength
  let ix ← d.index ix "index-backbone" backbone
  let g ← d.discover ix c.filterScoreRatio "discovery-backbone" backbone {} g
  let (g, settled) ← d.settle ix rest g
  let (_, g) ← (g.detectChimeric c.minChimericFlankDepth).mapError .panic
  let (g, settled) := releaseOrphans backboneLength g settled
  let unplaced := rest.filter fun id => !settled.contains id
  let ix ← d.index ix "index-remaining" unplaced
  let g ← d.discover ix c.filterScoreRatio "discovery-remaining" unplaced {} g
  let g ← (g.rescore dist model).mapError .panic
  return g.pruneContained.2

/-- Builds the read graph and lays out its paths. -/
def assemble (alloc : Allocator) (dist : Distributions) (c : LayoutConfig) (reads : List Read)
    (estimate : GenomeEstimate) : Except Fault AssemblyGraph := do
  let g ← c.build alloc dist reads estimate
  let (_, g) ← (c.layout.findPaths g).mapError .panic
  return g

end LayoutConfig

end OverlapLayout
