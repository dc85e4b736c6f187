import Mathlib
import OverlapLayout.Proofs.Layout.Stored
import OverlapLayout.Proofs.Stats.Contiguity
import OverlapLayout.Proofs.Graph.Shape
/-!
  The layout within words.

  The layout's arithmetic is checked in 64 bits at two places: the test of a path end
  subtracts the window of closeness, read as a signed word, from the length of a path, and
  the N-statistics of the stored paths sum and scale their lengths. Both stay within words
  on a graph of fewer than `2 ^ 62` reads, which any graph in memory is, its `2 n` vertices
  being counted by a signed word:

  * `Simple.length_lt`: a simple walk has fewer than twice as many edges as the graph has
    reads, so no path the merge pass locates is `2 ^ 63` edges long;
  * `sum_estimatedLength_le`: paths that spell no read twice together spell at most the total
    length of the reads;
  * `findPaths_failsOnly`: the only failure of the layout is the end test of a window of
    `2 ^ 63` or more, which wraps to a negative word; `findPaths_ok` the run with a window
    that is a signed word.
-/

namespace OverlapLayout

/-! ## Walks within the graph -/

namespace AssemblyGraph.Spells

variable {g : AssemblyGraph} {us : List Vertex} {ids : List Nat}

/-- The sequences a walk enters are known to the graph. -/
theorem sequence_lt (hi : g.Inv) (h : g.Spells us ids) : ∀ u ∈ us, u.sequence < g.size := by
  -- each sequence entered is crossed by a live identity edge, whose ends are known
  have hcross : ∀ {i : Nat} {u : Vertex}, g.IdentityAt i u → u.sequence < g.size := by
    rintro i u ⟨e, he, -, hx⟩
    obtain ⟨h1, h2⟩ := hi.arena.ends_lt he
    rcases Edge.across_eq_some.1 hx with ⟨rfl, -⟩ | ⟨-, rfl, -⟩
    · exact h1
    · exact h2
  induction h with
  | one hu => simpa using hcross hu
  | cons hu _ _ ih =>
    intro w hw
    rcases List.mem_cons.1 hw with rfl | hw
    · exact hcross hu
    · exact ih w hw

/-- A fold along a walk whose step at an identity edge adds at most the length `L` of the
sequence crossed, and whose step at an overlap edge adds nothing, gives at most the lengths
of the sequences entered. -/
theorem foldl_le {L : Nat → Nat} (F : Nat → Nat → Nat)
    (hid : ∀ len i u, g.IdentityAt i u → F len i ≤ len + L u.sequence)
    (hov : ∀ len j x w, g.OverlapAt j x w → F len j ≤ len) (h : g.Spells us ids) :
    ∀ acc, ids.foldl F acc ≤ acc + (us.map fun u => L u.sequence).sum := by
  induction h with
  | one hu =>
    intro acc
    simpa using hid acc _ _ hu
  | @cons u w us i j ids hu hw _ ih =>
    intro acc
    have hrest := ih (F (F acc i) j)
    have hi := hid acc i u hu
    have hj := hov (F acc i) j _ _ hw
    simp only [List.foldl_cons, List.map_cons, List.sum_cons] at hrest ⊢
    omega

end AssemblyGraph.Spells

namespace Path

variable {g : AssemblyGraph}

/-- A simple walk enters each known sequence at most once, so it has fewer than twice as many
edges as the graph has sequences. -/
theorem Simple.length_lt (hi : g.Inv) {p : Path} (h : p.Simple g) : p.length < 2 * g.size := by
  obtain ⟨us, hw, hnd⟩ := h
  have hsub : (us.map Vertex.sequence) ⊆ List.range g.size := fun s hs => by
    obtain ⟨u, hu, rfl⟩ := List.mem_map.1 hs
    exact List.mem_range.2 (hw.1.sequence_lt hi u hu)
  have hle : us.length ≤ g.size := by
    simpa using (List.subperm_of_subset hnd hsub).length_le
  have hpos : 0 < us.length := List.length_pos_iff.2 hw.1.ne_nil
  rw [hw.length]
  omega

/-- A walk spells at most the lengths of the sequences it enters. -/
theorem Walks.estimatedLength_le {p : Path} {us : List Vertex} (hw : p.Walks g us) :
    p.estimatedLength g ≤ (us.map fun u => (g.length? u.sequence).getD 0).sum := by
  unfold Path.estimatedLength
  rw [← Array.foldl_toList]
  refine le_of_le_of_eq (hw.1.foldl_le (L := fun s => (g.length? s).getD 0) _ (fun len i u hu => ?_)
    (fun len j x w hj => ?_) 0) (Nat.zero_add _)
  · obtain ⟨e, he, hid, hx⟩ := hu
    -- the identity edge crossed joins the two ends of the sequence entered
    have hseq : e.v1.sequence = u.sequence := by
      rcases Edge.across_eq_some.1 hx with ⟨rfl, -⟩ | ⟨-, -, h1⟩
      · rfl
      · rw [h1, Vertex.opposite_sequence]
    simp [he, hid, hseq]
  · obtain ⟨e, he, hid, -⟩ := hj
    simp [he, hid]

end Path

namespace AssemblyGraph

variable {g : AssemblyGraph}

/-- The length a path spells reads only the edges and the lengths of the graph. -/
theorem estimatedLength_congr {g' : AssemblyGraph} (he : g'.edges = g.edges)
    (hl : g'.lengths = g.lengths) (p : Path) : p.estimatedLength g' = p.estimatedLength g := by
  simp only [Path.estimatedLength, edge?, length?, he, hl]

/-- Paths that are simple walks and spell no sequence twice among them spell, together, at most
the total length of the sequences. -/
theorem sum_estimatedLength_le (hi : g.Inv) {ps : List Path} (hs : ∀ p ∈ ps, p.Simple g)
    (hnd : (ps.flatMap (·.sequenceIds g)).Nodup) :
    (ps.map (·.estimatedLength g)).sum ≤ g.lengths.toList.sum := by
  let L := fun s => (g.length? s).getD 0
  -- each path spells at most the lengths of its own sequences, which are known ones
  have hpath : ∀ p ∈ ps, p.estimatedLength g ≤ ((p.sequenceIds g).map L).sum := by
    intro p hp
    obtain ⟨us, hw, -⟩ := hs p hp
    rw [hw.sequenceIds, List.map_map]
    exact hw.estimatedLength_le
  have hlt : ∀ s ∈ ps.flatMap (·.sequenceIds g), s ∈ List.range g.size := by
    intro s hsm
    obtain ⟨p, hp, hsp⟩ := List.mem_flatMap.1 hsm
    obtain ⟨us, hw, -⟩ := hs p hp
    rw [hw.sequenceIds] at hsp
    obtain ⟨u, hu, rfl⟩ := List.mem_map.1 hsp
    exact List.mem_range.2 (hw.1.sequence_lt hi u hu)
  -- distinct known sequences are, up to order, some of all the sequences
  obtain ⟨l, hperm, hsub⟩ := List.subperm_of_subset hnd hlt
  calc (ps.map (·.estimatedLength g)).sum
      ≤ (ps.map fun p => ((p.sequenceIds g).map L).sum).sum := List.sum_le_sum hpath
    _ = ((ps.flatMap (·.sequenceIds g)).map L).sum := by
      simp only [List.flatMap, List.map_flatten, List.sum_flatten, List.map_map]
      rfl
    _ = (l.map L).sum := (hperm.map L).sum_eq.symm
    _ ≤ ((List.range g.size).map L).sum := (hsub.map L).sum_le_sum fun _ _ => Nat.zero_le _
    _ = g.lengths.toList.sum := by
      congr 1
      apply List.ext_getElem
      · simp [size]
      · intro i h₁ _
        simp only [List.getElem_map, List.getElem_range, L, length?, Array.getElem_toList]
        rw [Array.getElem?_eq_getElem (by simpa [size] using h₁), Option.getD_some]

/-- The sequences of some paths are among those of the paths and of all paths hanging off
them. -/
theorem flatMap_sequenceIds_sublist (ps : List Path) :
    (ps.flatMap (·.sequenceIds g)).Sublist (treeSequences g ps) := by
  induction ps with
  | nil => simp
  | cons p ps ih =>
    rw [List.flatMap_cons, treeSequences.cons, treeSequences.singleton, List.append_assoc]
    exact (List.Sublist.refl _).append (ih.trans (List.sublist_append_right _ _))

/-- Storing paths leaves the lengths of the sequences as they were. -/
theorem lengths_foldl_store (t : LayoutThresholds) (handed : List Path) :
    (handed.foldl (fun g p => if p.length < t.minPathLength then g else g.addPath p) g).lengths =
      g.lengths :=
  List.foldlRecOn (motive := fun g' : AssemblyGraph => g'.lengths = g.lengths) _ _ rfl
    fun _ hg' _ _ => by
      split
      · exact hg'
      · exact hg'

/-- The N-statistics of the paths stored from handed paths are computed within words when the
total length of the sequences, times ten, fits a word: the stored paths spell no sequence
twice, so together they spell at most that total. -/
theorem contiguity_stored_ok (h : g.Reachable) (hp : g.paths = #[]) {t : LayoutThresholds}
    (htotal : g.lengths.toList.sum ≤ (2 ^ 64 - 1) / 10) {handed : List Path}
    (hh : t.Handed g handed) :
    ∃ c, (handed.foldl (fun g p => if p.length < t.minPathLength then g else g.addPath p)
      g).contiguity = .ok c := by
  obtain ⟨hedges, hvalid, hnd, -, -⟩ := stored_valid h hp hh
  have hlengths := lengths_foldl_store (g := g) t handed
  generalize handed.foldl (fun g p => if p.length < t.minPathLength then g else g.addPath p) g = stored
    at hedges hvalid hnd hlengths
  -- the statistics read the stored paths' lengths in the stored graph, which spells as `g` does
  have hsum : (stored.paths.toList.map (·.estimatedLength stored)).sum ≤
      g.lengths.toList.sum := by
    rw [List.map_congr_left fun p _ => estimatedLength_congr hedges hlengths p]
    refine sum_estimatedLength_le h.inv (fun p hp' => ?_)
      (hnd.sublist (flatMap_sequenceIds_sublist _))
    exact (hvalid p (Array.mem_toList_iff.1 hp')).2 p p.mem_nodes_self
  obtain ⟨c, hc, -⟩ :=
    NStats.ofLengths_describes (stored.paths.toList.map (·.estimatedLength stored)) (by omega)
  exact ⟨c, hc⟩

end AssemblyGraph

/-! ## The end test -/

/-- Every location of a table lies on a path of fewer than `B` edges. -/
def LocationsBelow (B : Nat) (m : Std.HashMap Nat PathLocation) : Prop :=
  ∀ (v : Nat) (loc : PathLocation), m[v]? = some loc → loc.pathLength < B

theorem LocationsBelow.insert {B : Nat} {m : Std.HashMap Nat PathLocation}
    (h : LocationsBelow B m) (v : Nat) {loc : PathLocation} (hloc : loc.pathLength < B) :
    LocationsBelow B (m.insert v loc) := by
  unfold LocationsBelow
  intro w loc' hw
  rw [Std.HashMap.getElem?_insert] at hw
  split at hw
  · cases hw
    exact hloc
  · exact h w loc' hw

/-- The locations of a list of paths lie on those paths. -/
theorem locationsBelow_locate {B : Nat} (g : AssemblyGraph) {paths : List Path}
    (h : ∀ p ∈ paths, p.length < B) : LocationsBelow B (locate g paths) := by
  have hempty : LocationsBelow B {} := fun v loc hv => by simp at hv
  unfold locate
  refine List.foldlRecOn (motive := LocationsBelow B) _ _ hempty fun m hm pi hpi => ?_
  have hlen : pi.1.length < B := h _ (List.fst_mem_of_mem_zipIdx hpi)
  exact List.foldlRecOn (motive := LocationsBelow B) _ _ hm fun m' hm' _ _ => hm'.insert _ hlen

/-- The end test subtracts the window, read as a signed word, from the length of the path: on a
path shorter than `2 ^ 63` edges this overflows only for a window of `2 ^ 63` or more, which
reads as a negative word. -/
theorem PathLocation.endId_failsOnly (loc : PathLocation) (window : Nat)
    (h : loc.pathLength < 2 ^ 63) :
    FailsOnly (fun p => p = .subOverflow ∧ 2 ^ 63 ≤ window) (loc.endId window) := by
  intro e he
  unfold PathLocation.endId at he
  dsimp only at he
  split at he
  next hover =>
    cases he
    refine ⟨rfl, Nat.le_of_not_lt fun hw => ?_⟩
    simp only [signedWord, Nat.pow_eq, if_pos hw] at hover
    simp only [Int.pow_eq] at hover
    omega
  next =>
    split at he
    · cases he
    · split at he <;> cases he

namespace LayoutThresholds

variable (t : LayoutThresholds) (g : AssemblyGraph)

/-- A vote fails only at the end test, so only for a window of `2 ^ 63` or more. -/
theorem vote_failsOnly {positions : Std.HashMap Nat PathLocation}
    (hpos : LocationsBelow (2 ^ 63) positions) (maxCost : Float) (v : Vertex) (id? : Option Nat)
    (js : Junctions) :
    FailsOnly (fun p => p = .subOverflow ∧ 2 ^ 63 ≤ t.mergeEndWindow)
      (t.vote g positions maxCost v id? js) := by
  unfold vote
  split
  · exact .pure _
  split
  · exact .pure _
  split
  · rename_i first other hfirst hother
    split
    · exact .pure _
    rename_i second hsecond
    split
    · exact .pure _
    rw [Std.HashMap.get?_eq_getElem?] at hfirst hsecond
    exact (first.endId_failsOnly _ (hpos _ _ hfirst)).bind fun _ =>
      (second.endId_failsOnly _ (hpos _ _ hsecond)).bind fun _ => by split <;> exact .pure _
  · exact .pure _

/-- Merging paths shorter than `2 ^ 63` edges fails only at the end test. -/
theorem mergeClosePaths_failsOnly {paths : List Path} (h : ∀ p ∈ paths, p.length < 2 ^ 63)
    (costs : RunningStats) :
    FailsOnly (fun p => p = .subOverflow ∧ 2 ^ 63 ≤ t.mergeEndWindow)
      (t.mergeClosePaths g paths costs) := by
  unfold mergeClosePaths
  dsimp only
  -- renumbering keeps the lengths, so every location lies on a short path
  have hpos : LocationsBelow (2 ^ 63)
      (locate g (paths.zipIdx.map fun x => { x.1 with id := x.2 + 1 })) :=
    locationsBelow_locate g fun q hq => by
      obtain ⟨x, hx, rfl⟩ := List.mem_map.1 hq
      exact h x.1 (List.fst_mem_of_mem_zipIdx hx)
  refine (FailsOnly.foldlM (fun js v => ?_) _ _).bind fun _ => .pure _
  refine (vote_failsOnly t g hpos _ _ _ _).bind fun js => ?_
  split
  · exact vote_failsOnly t g hpos _ _ _ _
  · exact .pure _

/-- On a reachable graph of at most `2 ^ 62` sequences with no stored path, whose total length
times ten fits a word, the layout fails only at the end test of a window of `2 ^ 63` or more. -/
theorem findPaths_failsOnly {g : AssemblyGraph} (h : g.Reachable) (hp : g.paths = #[])
    (hsize : g.size ≤ 2 ^ 62) (htotal : g.lengths.toList.sum ≤ (2 ^ 64 - 1) / 10) :
    FailsOnly (fun p => p = .subOverflow ∧ 2 ^ 63 ≤ t.mergeEndWindow) (t.findPaths g) := by
  -- storing any handed paths and computing their statistics does not fail
  have hstore : ∀ handed, t.Handed g handed →
      FailsOnly (fun p => p = .subOverflow ∧ 2 ^ 63 ≤ t.mergeEndWindow)
        ((handed.foldl (fun g p => if p.length < t.minPathLength then g else g.addPath p)
          g).contiguity >>= fun c =>
            pure (c, handed.foldl (fun g p => if p.length < t.minPathLength then g else g.addPath p)
              g)) := by
    intro handed hh
    obtain ⟨c, hc⟩ := AssemblyGraph.contiguity_stored_ok h hp htotal hh
    rw [hc]
    exact .pure _
  unfold findPaths
  dsimp only
  split
  next hrun =>
    -- the paths merged are simple walks, so shorter than `2 ^ 63` edges
    have hc :=
      t.absorbShortPaths_conserves (AssemblyGraph.conserves_buildPaths h (t.pathEdges g))
    have hshort :
        ∀ p ∈ t.absorbShortPaths g (g.buildPaths (t.pathEdges g)), p.length < 2 ^ 63 :=
      fun p hp' => by
        have := (hc.simple p hp' p p.mem_nodes_self).length_lt h.inv
        omega
    exact FailsOnly.bind_of_ok (mergeClosePaths_failsOnly t g hshort _) fun handed hm =>
      hstore handed (by rw [Handed, if_pos hrun]; exact ⟨_, hm⟩)
  next hrun =>
    exact hstore _ (by rw [Handed, if_neg hrun]; rfl)

/-- The layout of a reachable graph of at most `2 ^ 62` sequences with no stored path, whose
total length is at most a tenth of the largest word, with a window of closeness that is a
signed word, returns. -/
theorem findPaths_ok {g : AssemblyGraph} (h : g.Reachable) (hp : g.paths = #[])
    (hsize : g.size ≤ 2 ^ 62) (htotal : g.lengths.toList.sum ≤ (2 ^ 64 - 1) / 10)
    (hw : t.mergeEndWindow < 2 ^ 63) :
    ∃ r, t.findPaths g = .ok r :=
  (findPaths_failsOnly t h hp hsize htotal).exists_ok fun _ he => absurd he.2 (by omega)

end LayoutThresholds

namespace AssemblyGraph

/-! ## What the layout stores and reports -/

/-- The layout of a reachable graph with no stored path, of at most `2 ^ 62` sequences whose
total length is at most a tenth of the largest word, with a window of closeness that is a signed
word, returns; it keeps the edges; every stored path is long enough, and it and every path
hanging off it is a simple walk; no sequence is spelt twice among them and none in a host at
all; and the paths handed to the final filter spell every sequence in no host exactly once. -/
theorem findPaths_paths_valid {g : AssemblyGraph} (h : g.Reachable) (hp : g.paths = #[])
    (hsize : g.size ≤ 2 ^ 62) (htotal : g.lengths.toList.sum ≤ (2 ^ 64 - 1) / 10)
    {t : LayoutThresholds} (hw : t.mergeEndWindow < 2 ^ 63) :
    ∃ r, t.findPaths g = .ok r ∧ r.2.edges = g.edges ∧
      (∀ p ∈ r.2.paths, t.minPathLength ≤ p.length ∧ ∀ q ∈ p.nodes, q.Simple g) ∧
      (treeSequences g r.2.paths.toList).Nodup ∧
      (∀ s ∈ treeSequences g r.2.paths.toList, g.isContained s = false) ∧
      ∃ handed, t.Handed g handed ∧
        r.2 = handed.foldl (fun g p => if p.length < t.minPathLength then g else g.addPath p) g ∧
        Conserves g ((List.range g.size).filter fun s => !g.isContained s) handed := by
  obtain ⟨r, hr⟩ := t.findPaths_ok h hp hsize htotal hw
  obtain ⟨handed, hh, hr2⟩ := LayoutThresholds.findPaths_handed hr
  obtain ⟨hedges, hstored, hnd, hout, hc⟩ := stored_valid h hp hh
  rw [← hr2] at hedges hstored hnd hout
  exact ⟨r, hr, hedges, hstored, hnd, hout, handed, hh, hr2, hc⟩

theorem paths_sample : sample.paths = #[] := by
  simp only [sample, paths_addRelationship]
  rfl

/-- The sample graph is within the words of the layout. -/
theorem sample_within_words :
    sample.size ≤ 2 ^ 62 ∧ sample.lengths.toList.sum ≤ (2 ^ 64 - 1) / 10 := by
  constructor
  · rw [size_sample]
    decide
  · rw [sample_fields.1]
    decide

theorem findPaths_paths_valid_sample :
    sample.Reachable ∧ sample.paths = #[] ∧ sample.size ≤ 2 ^ 62 ∧
      sample.lengths.toList.sum ≤ (2 ^ 64 - 1) / 10 ∧ LayoutThresholds.mergeEndWindow {} < 2 ^ 63 ∧
      ∃ r, LayoutThresholds.findPaths {} sample = .ok r ∧ r.2.edges = sample.edges ∧
        (∀ p ∈ r.2.paths,
          LayoutThresholds.minPathLength {} ≤ p.length ∧ ∀ q ∈ p.nodes, q.Simple sample) ∧
        (treeSequences sample r.2.paths.toList).Nodup ∧
        (∀ s ∈ treeSequences sample r.2.paths.toList, sample.isContained s = false) ∧
        ∃ handed, LayoutThresholds.Handed {} sample handed ∧
          r.2 = handed.foldl (fun g p => if p.length < LayoutThresholds.minPathLength {} then g
            else g.addPath p) sample ∧
          Conserves sample
            ((List.range sample.size).filter fun s => !sample.isContained s) handed := by
  obtain ⟨hsize, htotal⟩ := sample_within_words
  exact ⟨reachable_sample, paths_sample, hsize, htotal, by decide,
    findPaths_paths_valid reachable_sample paths_sample hsize htotal (by decide)⟩

/-- The layout of a reachable graph with no stored path, of at most `2 ^ 62` sequences whose
total length is at most a tenth of the largest word, with a window of closeness that is a signed
word, returns, and reports every sequence: one in a host as such; any other in the last stored
path that assigns it, that is whose walk or one of whose direct alternatives spells it; and
alone when no stored path assigns it. -/
theorem findPaths_status {g : AssemblyGraph} (h : g.Reachable) (hp : g.paths = #[])
    (hsize : g.size ≤ 2 ^ 62) (htotal : g.lengths.toList.sum ≤ (2 ^ 64 - 1) / 10)
    {t : LayoutThresholds} (hw : t.mergeEndWindow < 2 ^ 63) :
    ∃ r, t.findPaths g = .ok r ∧ ∀ s,
      (g.isContained s = true ∧ r.2.status s = .contained) ∨
        (g.isContained s = false ∧
          (∀ i, r.2.status s = .inPath i ↔ s < g.size ∧ ∃ p, r.2.paths[i]? = some p ∧
            s ∈ p.assigned g ∧ ∀ j q, i < j → r.2.paths[j]? = some q → s ∉ q.assigned g) ∧
          (r.2.status s = .alone ↔ g.size ≤ s ∨ ∀ p ∈ r.2.paths, s ∉ p.assigned g)) := by
  obtain ⟨r, hr⟩ := t.findPaths_ok h hp hsize htotal hw
  exact ⟨r, hr, status_of_findPaths h hp hr⟩

theorem findPaths_status_sample :
    sample.Reachable ∧ sample.paths = #[] ∧ sample.size ≤ 2 ^ 62 ∧
      sample.lengths.toList.sum ≤ (2 ^ 64 - 1) / 10 ∧ LayoutThresholds.mergeEndWindow {} < 2 ^ 63 ∧
      ∃ r, LayoutThresholds.findPaths {} sample = .ok r ∧ ∀ s,
        (sample.isContained s = true ∧ r.2.status s = .contained) ∨
          (sample.isContained s = false ∧
            (∀ i, r.2.status s = .inPath i ↔ s < sample.size ∧ ∃ p, r.2.paths[i]? = some p ∧
              s ∈ p.assigned sample ∧
                ∀ j q, i < j → r.2.paths[j]? = some q → s ∉ q.assigned sample) ∧
            (r.2.status s = .alone ↔
              sample.size ≤ s ∨ ∀ p ∈ r.2.paths, s ∉ p.assigned sample)) := by
  obtain ⟨hsize, htotal⟩ := sample_within_words
  exact ⟨reachable_sample, paths_sample, hsize, htotal, by decide,
    findPaths_status reachable_sample paths_sample hsize htotal (by decide)⟩

/-- The path over read `s` alone, with the paths `alternatives` hanging off it. -/
def readPath (s : Nat) (alternatives : Array Path := #[]) : Path :=
  { left := .startOf s, right := .endOf s, edges := #[s], alternatives }

/-- The path over read 0, with the path over read 1 hanging off it and the path over read 2
hanging off that one. -/
def nestedTree : Path := readPath 0 #[readPath 1 #[readPath 2]]

/-- Storing a path one of whose alternatives has an alternative of its own: the stored tree
spells read 2, and yet read 2 is reported alone, for only the direct alternatives are read. -/
theorem addPath_nested_alone :
    2 ∈ treeSequences (new #[100, 100, 100])
        ((new #[100, 100, 100]).addPath nestedTree).paths.toList ∧
      ((new #[100, 100, 100]).addPath nestedTree).status 2 = .alone := by
  refine ⟨?_, by decide⟩
  -- the stored copy of the tree, and the path over read 2 two levels below it
  have hstored :
      { nestedTree with id := 1 } ∈ ((new #[100, 100, 100]).addPath nestedTree).paths.toList := by
    simp [addPath, new]
  have hleaf : readPath 2 ∈ ({ nestedTree with id := 1 } : Path).nodes := by
    refine Path.mem_nodes_of_mem_alternatives
      (List.mem_flatMap.2 ⟨readPath 1 #[readPath 2], by simp [nestedTree, readPath], ?_⟩)
    exact Path.mem_nodes_of_mem_alternatives
      (List.mem_flatMap.2 ⟨readPath 2, by simp [readPath], Path.mem_nodes_self _⟩)
  exact List.mem_flatMap.2 ⟨_, List.mem_flatMap.2 ⟨_, hstored, hleaf⟩, by decide⟩

end AssemblyGraph

end OverlapLayout
