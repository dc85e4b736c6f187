import Mathlib
import OverlapLayout.Proofs.Graph.Arena
import OverlapLayout.Proofs.Graph.Records
import OverlapLayout.Layout.Find
import OverlapLayout.Graph.Cleanup
import OverlapLayout.Graph.Scores
/-!
  The representation invariant of the read graph, kept by every operation that
  changes a graph.

  * `AssemblyGraph.Inv`: the edge arena of `Arena` with the identity edges of
    all sequences, the mirrored containment maps of `Mirror`, flag and status
    arrays of the right sizes, and statuses that name stored paths.
  * One lemma per operation: `Inv.addRelationship`, `Inv.removeRelationship`,
    `Inv.filterAround`, `Inv.pruneContained`, `Inv.markChimeric`,
    `Inv.detectChimeric`, `Inv.rescore`, `Inv.addPath`, `Inv.findPaths`, and the setters
    of the expected length and the ploidy.
  * `GraphStep`, `Reachable`: the graphs obtained from `new` by any sequence of
    these operations, and `Reachable.inv`: each of them keeps the invariant.
  * `sample`: a reachable graph of three reads with an overlap and a containment.
-/

namespace OverlapLayout

/-- Rescoring an edge keeps its ends. -/
theorem ScoreModel.rescoreEdge_ends (m : ScoreModel) {dist : Distributions} {fits : FeatureFits}
    {e e' : Edge} (h : m.rescoreEdge dist fits e = .ok e') : e'.ends = e.ends := by
  unfold ScoreModel.rescoreEdge at h
  obtain ⟨c, -, h⟩ := bind_ok h
  cases h
  rfl

/-- Rescoring a containment record keeps its sequence and host. -/
theorem ScoreModel.rescoreContainment_keys (m : ScoreModel) {dist : Distributions}
    {fits : FeatureFits} {c c' : Containment} (h : m.rescoreContainment dist fits c = .ok c') :
    c'.sequence = c.sequence ∧ c'.host = c.host := by
  unfold ScoreModel.rescoreContainment at h
  obtain ⟨k, -, h⟩ := bind_ok h
  cases h
  exact ⟨rfl, rfl⟩

namespace AssemblyGraph

/-- The representation invariant of the read graph. -/
structure Inv (g : AssemblyGraph) : Prop where
  arena : g.Arena g.size
  records : Mirror g.bySequence g.byHost
  chimeric_size : g.chimeric.size = g.size
  pathOf_size : g.pathOf.size = g.size
  pathOf_lt : ∀ (s i : Nat), g.pathOf[s]? = some (some i) → i < g.paths.size

variable {g : AssemblyGraph}

@[simp] theorem size_removeEdge (id : Nat) : (g.removeEdge id).2.size = g.size := by
  cases h : g.edge? id with
  | none => rw [removeEdge_of_none h]
  | some e => simp [size, removeEdge_lengths h]

theorem edge?_of_mem_edgesOf {v : Vertex} {id : Nat} {e : Edge} (h : (id, e) ∈ g.edgesOf v) :
    g.edge? id = some e := by
  simp only [edgesOf, List.mem_filterMap, Option.map_eq_some_iff, Prod.mk.injEq] at h
  obtain ⟨j, -, f, hf, rfl, rfl⟩ := h
  exact hf

/-- The status array after assigning the sequences of `l` to the path at index `k`. -/
theorem getElem?_foldl_assign (k : Nat) (l : List Nat) :
    ∀ (a : Array (Option Nat)) (s : Nat),
      (l.foldl (fun pathOf s => if s < pathOf.size then pathOf.set! s (some k) else pathOf) a)[s]? =
        if s ∈ l ∧ s < a.size then some (some k) else a[s]? := by
  induction l with
  | nil => intro a s; simp
  | cons x l ih =>
    intro a s
    rw [List.foldl_cons, ih]
    by_cases hx : x < a.size
    · by_cases hs : s = x
      · subst hs; simp [hx]
      · simp [hx, hs, Ne.symm hs]
    · by_cases hs : s = x
      · subst hs; simp [hx]
      · simp [hx, hs]

theorem size_foldl_assign (k : Nat) (l : List Nat) (a : Array (Option Nat)) :
    (l.foldl (fun pathOf s => if s < pathOf.size then pathOf.set! s (some k) else pathOf) a).size =
      a.size := by
  induction l generalizing a with
  | nil => rfl
  | cons x l ih => rw [List.foldl_cons, ih]; split <;> simp

/-- The graph answered by the layout is the given one with some paths stored. -/
theorem findPaths_graph {t : LayoutThresholds} {r : Option NStats × AssemblyGraph}
    (h : t.findPaths g = .ok r) : ∃ paths : List Path,
      r.2 = paths.foldl (fun g p => if p.length < t.minPathLength then g else g.addPath p) g := by
  unfold LayoutThresholds.findPaths at h
  dsimp only at h
  split at h <;>
  · obtain ⟨paths, -, h⟩ := bind_ok h
    obtain ⟨c, -, h⟩ := bind_ok h
    cases h
    exact ⟨paths, rfl⟩

theorem inv_new (lengths : Array Nat) : (new lengths).Inv := by
  have hbs : (new lengths).bySequence = {} :=
    foldl_identities_frame (·.bySequence) (fun _ _ _ => rfl) _ 0 _
  have hbh : (new lengths).byHost = {} := foldl_identities_frame (·.byHost) (fun _ _ _ => rfl) _ 0 _
  have hch : (new lengths).chimeric = Array.replicate lengths.size false :=
    foldl_identities_frame (·.chimeric) (fun _ _ _ => rfl) _ 0 _
  have hpo : (new lengths).pathOf = Array.replicate lengths.size none :=
    foldl_identities_frame (·.pathOf) (fun _ _ _ => rfl) _ 0 _
  have hsize : (new lengths).size = lengths.size :=
    foldl_identities_frame (·.size) (fun _ _ _ => rfl) _ 0 _
  refine ⟨hsize ▸ arena_new lengths, hbs ▸ hbh ▸ mirror_empty, by simp [hch, hsize],
    by simp [hpo, hsize], ?_⟩
  intro s i h
  rw [hpo, Array.getElem?_replicate] at h
  split at h <;> simp at h

namespace Inv

variable (hi : g.Inv)
include hi

theorem size_le_id {id : Nat} {e : Edge} (h : g.edge? id = some e) (he : e.isIdentity = false) :
    g.size ≤ id := by
  have := hi.arena.isIdentity_iff h
  rw [he] at this
  simp only [Bool.false_eq_true, false_iff] at this
  omega

/-- Storing an overlap edge between two different known sequences whose ends no live edge
joins keeps the invariant. -/
theorem insertEdge {e : Edge} (h1 : e.v1.sequence < g.size) (h2 : e.v2.sequence < g.size)
    (hne : e.v1.sequence ≠ e.v2.sequence) (hfree : g.index[e.key]? = none) :
    (g.insertEdge e).Inv :=
  ⟨hi.arena.insertEdge_overlap h1 h2 hne hfree, hi.records, hi.chimeric_size, hi.pathOf_size,
    hi.pathOf_lt⟩

/-- Removing an overlap edge, or an empty slot, keeps the invariant. -/
theorem removeEdge {id : Nat} (hid : g.size ≤ id) : (g.removeEdge id).2.Inv := by
  cases h : g.edge? id with
  | none => rw [removeEdge_of_none h]; exact hi
  | some e =>
    have hsize : (g.removeEdge id).2.size = g.size := by simp [size, removeEdge_lengths h]
    refine ⟨hsize ▸ hi.arena.removeEdge hid, ?_, ?_, ?_, ?_⟩
    · rw [removeEdge_bySequence h, removeEdge_byHost h]; exact hi.records
    · rw [removeEdge_chimeric h, hsize]; exact hi.chimeric_size
    · rw [removeEdge_pathOf h, hsize]; exact hi.pathOf_size
    · rw [removeEdge_pathOf h, removeEdge_paths h]; exact hi.pathOf_lt

/-- Removing every record of a placement keeps the invariant. -/
theorem removeContainment (c : Containment) : (g.removeContainment c).2.Inv :=
  ⟨hi.arena.of_frame rfl rfl rfl rfl rfl rfl, hi.records.drop c, hi.chimeric_size, hi.pathOf_size,
    hi.pathOf_lt⟩

/-- Flagging a sequence chimeric keeps the invariant. -/
theorem markChimeric (s : Nat) : (g.markChimeric s).Inv := by
  unfold AssemblyGraph.markChimeric
  split
  · exact ⟨hi.arena.of_frame rfl rfl rfl rfl rfl rfl, hi.records,
      by simp [hi.chimeric_size, size], hi.pathOf_size, hi.pathOf_lt⟩
  · exact hi

/-- Steps that keep the invariant and the number of sequences keep them along a fold. -/
theorem foldl {α : Type} (l : List α) (op : AssemblyGraph → α → AssemblyGraph)
    (hop : ∀ g', g'.Inv → g'.size = g.size → ∀ x ∈ l, (op g' x).Inv ∧ (op g' x).size = g'.size) :
    (l.foldl op g).Inv ∧ (l.foldl op g).size = g.size :=
  List.foldlRecOn l op (motive := fun g' => g'.Inv ∧ g'.size = g.size) ⟨hi, rfl⟩
    fun g' hg' x hx => ⟨(hop g' hg'.1 hg'.2 x hx).1, (hop g' hg'.1 hg'.2 x hx).2.trans hg'.2⟩

/-- Adding a relationship keeps the invariant: an edge is stored only between two
different known sequences, replacing the edge it outscores between the same ends. -/
theorem addRelationship (r : Relationship) : (g.addRelationship r).2.Inv := by
  cases r with
  | edge e =>
    dsimp only [AssemblyGraph.addRelationship, Relationship.sequences]
    by_cases hok : (!g.contains e.v1.sequence || !g.contains e.v2.sequence ||
      e.v1.sequence == e.v2.sequence) = true
    · simp only [hok, ↓reduceIte]; exact hi
    simp only [hok, Bool.false_eq_true, ↓reduceIte]
    simp only [contains, Bool.or_eq_true, Bool.not_eq_true', decide_eq_false_iff_not, Nat.not_lt,
      beq_iff_eq, not_or, Nat.not_le] at hok
    obtain ⟨⟨h1, h2⟩, hne⟩ := hok
    have hk : ({ v1 := e.v1, v2 := e.v2 } : Edge).key = e.key := rfl
    split
    next old hfind =>
      rw [findEdge?_eq, hk] at hfind
      obtain ⟨o, ho, hkey⟩ := (hi.arena.index _ old).1 hfind
      -- the stored edge joins the same two vertices, so it is an overlap edge too
      have hold : g.size ≤ old :=
        hi.size_le_id ho ((Edge.isIdentity_eq_of_key_eq hkey).trans (by simp [Edge.isIdentity, hne]))
      have hfree : (g.removeEdge old).2.index[e.key]? = none := by
        rw [removeEdge_index ho, hkey]
        simp
      split_ifs
      · exact hi
      · exact (hi.removeEdge hold).insertEdge (by simpa using h1) (by simpa using h2) hne hfree
    next hfind =>
      rw [findEdge?_eq, hk] at hfind
      exact hi.insertEdge h1 h2 hne hfind
  | contained c =>
    dsimp only [AssemblyGraph.addRelationship, Relationship.sequences]
    by_cases hok : (!g.contains c.sequence || !g.contains c.host || c.sequence == c.host) = true
    · simp only [hok, ↓reduceIte]; exact hi
    simp only [hok, Bool.false_eq_true, ↓reduceIte]
    split
    · exact hi
    · exact ⟨hi.arena.of_frame rfl rfl rfl rfl rfl rfl, hi.records.push c, hi.chimeric_size,
        hi.pathOf_size, hi.pathOf_lt⟩

/-- Removing a relationship keeps the invariant: identity edges are never removed. -/
theorem removeRelationship (r : Relationship) : (g.removeRelationship r).2.Inv := by
  cases r with
  | edge e =>
    simp only [AssemblyGraph.removeRelationship]
    split_ifs with hid
    · exact hi
    split
    next id hfind =>
      rw [findEdge?_eq] at hfind
      obtain ⟨o, ho, hkey⟩ := (hi.arena.index _ id).1 hfind
      exact hi.removeEdge (hi.size_le_id ho ((Edge.isIdentity_eq_of_key_eq hkey).trans
        (by simpa [Edge.isIdentity] using hid)))
    next => exact hi
  | contained c => exact hi.removeContainment c

/-- Dropping the weak overlap edges at a vertex keeps the invariant. -/
theorem filterAt (ratio : Float) (v : Vertex) :
    (g.filterAt ratio v).Inv ∧ (g.filterAt ratio v).size = g.size := by
  unfold AssemblyGraph.filterAt
  dsimp only
  split
  · exact ⟨hi, rfl⟩
  refine hi.foldl _ _ fun g' hi' hs x hx => ?_
  -- each candidate is a live overlap edge of the graph the filter started from
  obtain ⟨⟨id, e⟩, he, rfl⟩ := List.mem_map.1 hx
  obtain ⟨hmem, hid⟩ := List.mem_filter.1 he
  have hle : g'.size ≤ id := hs ▸ hi.size_le_id (edge?_of_mem_edgesOf hmem) (by simpa using hid)
  dsimp only
  split
  · exact ⟨hi'.removeEdge hle, size_removeEdge _⟩
  · exact ⟨hi', rfl⟩

/-- Filtering around a sequence keeps the invariant. -/
theorem filterAround (s : Nat) (ratio : Float) : (g.filterAround s ratio).Inv := by
  have hends : ∀ g' : AssemblyGraph, g'.Inv →
      ((g'.filterAt ratio (.startOf s)).filterAt ratio (.endOf s)).Inv :=
    fun g' hi' => ((hi'.filterAt ratio _).1.filterAt ratio _).1
  unfold AssemblyGraph.filterAround
  split
  · exact hi
  dsimp only
  split
  · exact hends g hi
  · rw [← Array.foldl_toList]
    refine hends _ (hi.foldl _ _ fun g' hi' _ c _ => ?_).1
    split
    · exact ⟨hi'.removeContainment c, rfl⟩
    · exact ⟨hi', rfl⟩

/-- Removing every overlap edge at a vertex keeps the invariant. -/
theorem detachVertex (v : Vertex) : (g.detachVertex v).Inv ∧ (g.detachVertex v).size = g.size := by
  unfold AssemblyGraph.detachVertex
  refine hi.foldl _ _ fun g' hi' hs id hid => ?_
  obtain ⟨⟨id, e⟩, he, rfl⟩ := List.mem_map.1 hid
  obtain ⟨hmem, hnid⟩ := List.mem_filter.1 he
  exact ⟨hi'.removeEdge (hs ▸ hi.size_le_id (edge?_of_mem_edgesOf hmem) (by simpa using hnid)),
    size_removeEdge _⟩

/-- Removing the overlap edges of the contained sequences keeps the invariant. -/
theorem pruneContained : g.pruneContained.2.Inv := by
  refine (hi.foldl _ _ fun g' hi' _ s _ => ?_).1
  have h1 := hi'.detachVertex (.startOf s)
  have h2 := h1.1.detachVertex (.endOf s)
  exact ⟨h2.1, h2.2.trans h1.2⟩

/-- Flagging the chimeric hosts keeps the invariant. -/
theorem detectChimeric (depth : Nat) {r : List Nat × AssemblyGraph}
    (h : g.detectChimeric depth = .ok r) : r.2.Inv := by
  unfold AssemblyGraph.detectChimeric at h
  refine foldlM_ok_induction (fun s : List Nat × AssemblyGraph => s.2.Inv) _ ?_ ([], g) r hi h
  rintro ⟨flagged, g'⟩ host s' - hg' hs'
  -- every branch answers the graph it was given, or that graph with the host flagged
  simp only [pure, Except.pure, bind, Except.bind] at hg' hs' ⊢
  split at hs'
  · cases hs'; exact hg'
  split at hs'
  · cases hs'; exact hg'
  split at hs'
  · cases hs'
  · split at hs' <;> cases hs'
    · exact hg'.markChimeric host
    · exact hg'

/-- Rescoring keeps the invariant: edges and records keep their ends, sequences
and hosts. -/
theorem rescore (dist : Distributions) (m : ScoreModel) {g' : AssemblyGraph}
    (h : g.rescore dist m = .ok g') : g'.Inv := by
  unfold AssemblyGraph.rescore at h
  obtain ⟨es, hes, h⟩ := bind_ok h
  obtain ⟨bs, hbs, h⟩ := bind_ok h
  obtain ⟨bh, hbh, h⟩ := bind_ok h
  cases h
  refine ⟨Arena.of_ends ?_ hi.arena rfl rfl rfl rfl rfl, hi.records.mapM ?_ hbs hbh,
    hi.chimeric_size, hi.pathOf_size, hi.pathOf_lt⟩
  · refine Array.toList_inj.1 ?_
    simp only [Array.toList_map]
    refine mapM_ok_map _ _ (fun e? e?' hx => ?_) (mapM_ok_array hes)
    cases e? with
    | none => cases hx; rfl
    | some e =>
      dsimp only at hx
      split at hx
      · cases hx; rfl
      · simp only [Functor.map, Except.map] at hx
        split at hx
        · cases hx
        · rename_i e' he'
          cases hx
          simp [m.rescoreEdge_ends he']
  · intro c c' hc
    exact m.rescoreContainment_keys hc

/-- The expected length and the ploidy are no part of the structure. -/
theorem setExpectedLength (n : Nat) : (g.setExpectedLength n).Inv :=
  ⟨hi.arena.of_frame rfl rfl rfl rfl rfl rfl, hi.records, hi.chimeric_size, hi.pathOf_size,
    hi.pathOf_lt⟩

theorem setPloidy (p : Nat) : (g.setPloidy p).Inv :=
  ⟨hi.arena.of_frame rfl rfl rfl rfl rfl rfl, hi.records, hi.chimeric_size, hi.pathOf_size,
    hi.pathOf_lt⟩

/-- Storing a path keeps the invariant. -/
theorem addPath (p : Path) : (g.addPath p).Inv := by
  refine ⟨hi.arena.of_frame rfl rfl rfl rfl rfl rfl, hi.records, hi.chimeric_size, ?_, ?_⟩
  · simp only [AssemblyGraph.addPath, size_foldl_assign, hi.pathOf_size, size]
  · intro s i h
    simp only [AssemblyGraph.addPath, getElem?_foldl_assign, Array.size_push] at h ⊢
    split at h
    · cases h; omega
    · have := hi.pathOf_lt s i h; omega

/-- Laying out the paths keeps the invariant. -/
theorem findPaths (t : LayoutThresholds) {r : Option NStats × AssemblyGraph}
    (h : t.findPaths g = .ok r) : r.2.Inv := by
  obtain ⟨paths, hr⟩ := findPaths_graph h
  rw [hr]
  refine (hi.foldl _ _ fun g' hi' _ p _ => ?_).1
  split
  · exact ⟨hi', rfl⟩
  · exact ⟨hi'.addPath p, rfl⟩

end Inv

/-! ## Reachable graphs -/

/-- One call of an operation that changes a graph; the fallible ones when they succeed. -/
inductive GraphStep : AssemblyGraph → AssemblyGraph → Prop
  | addRelationship (g : AssemblyGraph) (r : Relationship) : GraphStep g (g.addRelationship r).2
  | removeRelationship (g : AssemblyGraph) (r : Relationship) :
      GraphStep g (g.removeRelationship r).2
  | filterAround (g : AssemblyGraph) (s : Nat) (ratio : Float) : GraphStep g (g.filterAround s ratio)
  | pruneContained (g : AssemblyGraph) : GraphStep g g.pruneContained.2
  | detectChimeric (g : AssemblyGraph) (depth : Nat) (r : List Nat × AssemblyGraph) :
      g.detectChimeric depth = .ok r → GraphStep g r.2
  | markChimeric (g : AssemblyGraph) (s : Nat) : GraphStep g (g.markChimeric s)
  | rescore (g : AssemblyGraph) (dist : Distributions) (m : ScoreModel) (g' : AssemblyGraph) :
      g.rescore dist m = .ok g' → GraphStep g g'
  | addPath (g : AssemblyGraph) (p : Path) : GraphStep g (g.addPath p)
  | findPaths (g : AssemblyGraph) (t : LayoutThresholds) (r : Option NStats × AssemblyGraph) :
      t.findPaths g = .ok r → GraphStep g r.2
  | setExpectedLength (g : AssemblyGraph) (n : Nat) : GraphStep g (g.setExpectedLength n)
  | setPloidy (g : AssemblyGraph) (p : Nat) : GraphStep g (g.setPloidy p)

/-- The graphs built from a new graph by any sequence of operations. -/
def Reachable (g : AssemblyGraph) : Prop :=
  ∃ lengths, Relation.ReflTransGen GraphStep (new lengths) g

theorem GraphStep.inv {g g' : AssemblyGraph} (h : GraphStep g g') (hi : g.Inv) : g'.Inv := by
  cases h with
  | addRelationship r => exact hi.addRelationship r
  | removeRelationship r => exact hi.removeRelationship r
  | filterAround s ratio => exact hi.filterAround s ratio
  | pruneContained => exact hi.pruneContained
  | detectChimeric depth r h => exact hi.detectChimeric depth h
  | markChimeric s => exact hi.markChimeric s
  | rescore dist m g' h => exact hi.rescore dist m h
  | addPath p => exact hi.addPath p
  | findPaths t r h => exact hi.findPaths t h
  | setExpectedLength n => exact hi.setExpectedLength n
  | setPloidy p => exact hi.setPloidy p

theorem Reachable.inv {g : AssemblyGraph} (h : g.Reachable) : g.Inv := by
  obtain ⟨lengths, h⟩ := h
  induction h with
  | refl => exact inv_new lengths
  | tail _ step ih => exact step.inv ih

/-- Every reachable graph keeps its representation invariant; with it, the index
answers alike for both orders of two vertices and names exactly the live edge
joining them, no two live edges join the same two vertices, and the overlap count
is positive while an overlap edge is live. -/
theorem reachable_representation {g : AssemblyGraph} (h : g.Reachable) :
    g.Inv ∧
      (∀ v1 v2, g.findEdge? v1 v2 = g.findEdge? v2 v1) ∧
      (∀ v1 v2 id, g.findEdge? v1 v2 = some id ↔
        ∃ e, g.edge? id = some e ∧ ((e.v1 = v1 ∧ e.v2 = v2) ∨ (e.v1 = v2 ∧ e.v2 = v1))) ∧
      (∀ i j e f, g.edge? i = some e → g.edge? j = some f →
        ((e.v1 = f.v1 ∧ e.v2 = f.v2) ∨ (e.v1 = f.v2 ∧ e.v2 = f.v1)) → i = j) ∧
      (∀ id e, g.edge? id = some e → e.isIdentity = false → 1 ≤ g.overlapCount) := by
  have hi := h.inv
  refine ⟨hi, findEdge?_comm, hi.arena.findEdge?_eq_some_iff, ?_, ?_⟩
  · intro i j e f he hf hends
    exact hi.arena.eq_of_key_eq he hf (Edge.key_eq_key.2 hends)
  · intro id e he hid
    exact hi.arena.one_le_overlapCount he hid

/-! ## A sample graph

Three reads of 100, 80 and 30 bases: the end of read 0 overlaps the start of read 1 by 40 bases,
and read 2 lies in read 1 from base 20 to base 50. It is reachable and holds a relationship of
each kind, so the theorems about reachable graphs are instantiated on it. -/

/-- The overlap of the sample graph. -/
def sampleEdge : Edge :=
  { v1 := .endOf 0, v2 := .startOf 1, evidence := { overlap := 40, sharedKmers := 12 },
    score := 40, cost := 10 }

/-- The containment of the sample graph. -/
def sampleRecord : Containment :=
  { sequence := 2, host := 1, hostStart := 20, hostEnd := 50, reverse := false, score := 30,
    cost := 5 }

/-- Three reads, an overlap and a containment. -/
def sample : AssemblyGraph :=
  (((new #[100, 80, 30]).addRelationship (.edge sampleEdge)).2.addRelationship
    (.contained sampleRecord)).2

theorem reachable_sample : sample.Reachable :=
  ⟨#[100, 80, 30], .tail (.tail .refl (.addRelationship _ _)) (.addRelationship _ _)⟩

/-- A containment between two known sequences, at a placement not held yet, joins both maps. -/
theorem addRelationship_contained {c : Containment} (hs : c.sequence < g.size) (hh : c.host < g.size)
    (hne : c.sequence ≠ c.host)
    (hfresh : (g.containmentsOf c.sequence).any (·.samePlacement c) = false) :
    (g.addRelationship (.contained c)).2 = { g with
      byHost := g.byHost.alter c.host fun l => some ((l.getD #[]).push c)
      bySequence := g.bySequence.alter c.sequence fun l => some ((l.getD #[]).push c) } := by
  simp [AssemblyGraph.addRelationship, Relationship.sequences, contains, hs, hh, hne, hfresh]

/-- The overlap of the sample graph is stored in a fresh slot: no edge of a new graph joins two
different reads. -/
theorem addRelationship_sampleEdge :
    ((new #[100, 80, 30]).addRelationship (.edge sampleEdge)).2 =
      (new #[100, 80, 30]).insertEdge sampleEdge := by
  have ha := (inv_new #[100, 80, 30]).arena
  have hsize : (new #[100, 80, 30]).size = 3 := foldl_identities_frame (·.size) (fun _ _ _ => rfl) _ 0 _
  have hnone : (new #[100, 80, 30]).findEdge? (.endOf 0) (.startOf 1) = none := by
    rw [Option.eq_none_iff_forall_ne_some]
    intro id hid
    obtain ⟨e, he, hj⟩ := (ha.findEdge?_eq_some_iff _ _ id).1 hid
    rcases ha.edge_cases he with ⟨-, h1, h2⟩ | ⟨hm, -⟩
    · -- an identity edge joins the two ends of one read
      rcases hj with ⟨h1', h2'⟩ | ⟨h1', h2'⟩
      · simp_all [Vertex.startOf, Vertex.endOf]
      · simp_all [Vertex.startOf, Vertex.endOf]
        omega
    · -- the new graph has a slot per read only
      have hslots : (new #[100, 80, 30]).edges.size = 3 := by decide
      have := lt_of_edge? he
      omega
  simp [AssemblyGraph.addRelationship, Relationship.sequences, contains, hsize, hnone, sampleEdge]

/-- The fields of the sample graph that its relationships decide. -/
theorem sample_fields :
    sample.lengths = #[100, 80, 30] ∧ sample.chimeric = Array.replicate 3 false ∧
      sample.byHost = (({} : RecordMap).alter 1 fun l => some ((l.getD #[]).push sampleRecord)) ∧
      sample.edges = (new #[100, 80, 30]).edges.push (some sampleEdge) := by
  -- the overlap is stored in the arena and leaves every other field as `new` made it
  have hl : (new #[100, 80, 30]).lengths = #[100, 80, 30] :=
    foldl_identities_frame (·.lengths) (fun _ _ _ => rfl) _ 0 _
  have hc : (new #[100, 80, 30]).chimeric = Array.replicate 3 false :=
    foldl_identities_frame (·.chimeric) (fun _ _ _ => rfl) _ 0 _
  have hh : (new #[100, 80, 30]).byHost = {} :=
    foldl_identities_frame (·.byHost) (fun _ _ _ => rfl) _ 0 _
  have hs : (new #[100, 80, 30]).bySequence = {} :=
    foldl_identities_frame (·.bySequence) (fun _ _ _ => rfl) _ 0 _
  -- the containment is new, between two known reads
  unfold sample
  rw [addRelationship_sampleEdge, addRelationship_contained (by simp [size, hl, sampleRecord])
    (by simp [size, hl, sampleRecord]) (by simp [sampleRecord]) (by simp [containmentsOf, hs])]
  exact ⟨hl, hc, by rw [insertEdge_byHost, hh]; rfl, rfl⟩

/-- The overlap of the sample graph sits in the slot after the identity edges. -/
theorem edge?_sample_overlap : sample.edge? 3 = some sampleEdge := by
  have hslots : (new #[100, 80, 30]).edges.size = 3 := by decide
  rw [edge?, sample_fields.2.2.2, ← hslots, Array.getElem?_push_size]
  rfl

theorem size_sample : sample.size = 3 := by
  simp [size, sample_fields.1]

/-- Read 1 holds the one record of the sample graph. -/
theorem containedIn_sample (h : Nat) :
    sample.containedIn h = if h = 1 then #[sampleRecord] else #[] := by
  rw [containedIn, sample_fields.2.2.1, Mirror.getD_alter_push]
  by_cases h1 : h = 1 <;> simp [h1, eq_comm]

/-- Every reachable graph, the sample graph among them, keeps its representation invariant. -/
theorem sample_representation :
    sample.Inv ∧
      (∀ v1 v2, sample.findEdge? v1 v2 = sample.findEdge? v2 v1) ∧
      (∀ v1 v2 id, sample.findEdge? v1 v2 = some id ↔
        ∃ e, sample.edge? id = some e ∧ ((e.v1 = v1 ∧ e.v2 = v2) ∨ (e.v1 = v2 ∧ e.v2 = v1))) ∧
      (∀ i j e f, sample.edge? i = some e → sample.edge? j = some f →
        ((e.v1 = f.v1 ∧ e.v2 = f.v2) ∨ (e.v1 = f.v2 ∧ e.v2 = f.v1)) → i = j) ∧
      (∀ id e, sample.edge? id = some e → e.isIdentity = false → 1 ≤ sample.overlapCount) :=
  reachable_representation reachable_sample

end AssemblyGraph

end OverlapLayout
