import Mathlib
import OverlapLayout.Proofs.Graph.Invariant
/-!
  The shape of the relationships a read graph holds.

  An overlap edge joins vertices of two different sequences and overlaps by at least one base
  and at most the shorter of them; a containment record places a sequence inside another,
  within the host's length (`Edge.Fits`, `Containment.Fits`). The graph operations either add
  one relationship, rewrite scores and costs, or only take edges and records away (`Shrinks`):
  so a graph whose live overlap edges and records all fit (`Fitted`) keeps fitting when a fitting
  relationship is added, when it is rescored, and under filtering, releasing, flagging and
  pruning. Rescoring leaves every score the model's (`Scored`), and pruning leaves no overlap
  edge at a contained sequence (`Pruned`).

  * `Shrinks`, `shrinks_removeEdge`, `shrinks_removeContainment`, `shrinks_filterAround`,
    `shrinks_pruneContained`, `shrinks_detectChimeric`: the operations that only remove.
  * `Fitted.addRelationship`, `Fitted.rescore`, `Fitted.shrink`: fitting is kept.
  * `scored_rescore`, `Scored.shrink`: the scores of a rescored graph.
  * `pruned_pruneContained`: no overlap edge at a contained sequence after pruning.
-/

namespace OverlapLayout

/-- The overlap edge joins vertices of two different sequences of `lengths` and overlaps by at
least one base and at most the shorter of them. -/
def Edge.Fits (lengths : Array Nat) (e : Edge) : Prop :=
  e.v1.sequence ≠ e.v2.sequence ∧ 0 < e.evidence.overlap ∧
    ∃ l₁ l₂, lengths[e.v1.sequence]? = some l₁ ∧ lengths[e.v2.sequence]? = some l₂ ∧
      e.evidence.overlap ≤ min l₁ l₂

/-- The record places a sequence inside another sequence of `lengths`, within the host. -/
def Containment.Fits (lengths : Array Nat) (x : Containment) : Prop :=
  x.sequence ≠ x.host ∧ x.hostStart < x.hostEnd ∧ ∃ l, lengths[x.host]? = some l ∧ x.hostEnd ≤ l

/-- The relationship fits the sequences of `lengths`. -/
def Relationship.Fits (lengths : Array Nat) : Relationship → Prop
  | .edge e => e.Fits lengths
  | .contained x => x.Fits lengths

/-- Scores and costs are no part of the shape. -/
theorem Relationship.fits_withScores {lengths : Array Nat} (r : Relationship) (score cost : Nat) :
    (r.withScores score cost).Fits lengths ↔ r.Fits lengths := by
  cases r <;> rfl

/-- A record read off the map of its host is the record of its sequence. -/
theorem Mirror.mem_of_mem_byHost {bs bh : RecordMap} (hm : Mirror bs bh) {h : Nat}
    {x : Containment} (hx : x ∈ bh.getD h #[]) : x ∈ bs.getD x.sequence #[] := by
  have hmem : x ∈ (bh.getD h #[]).toList.filter (·.sequence == x.sequence) :=
    List.mem_filter.mpr ⟨Array.mem_toList_iff.mpr hx, by simp⟩
  rw [← hm.same x.sequence h] at hmem
  exact Array.mem_toList_iff.mp (List.mem_filter.mp hmem).1

theorem ScoreModel.rescoreEdge_ok (m : ScoreModel) {dist : Distributions} {fits : FeatureFits}
    {e e' : Edge} (h : m.rescoreEdge dist fits e = .ok e') :
    ∃ cost, e' = { e with score := m.score (.edge e), cost } := by
  unfold ScoreModel.rescoreEdge at h
  obtain ⟨cost, -, h⟩ := bind_ok h
  cases h
  exact ⟨cost, rfl⟩

theorem ScoreModel.rescoreContainment_ok (m : ScoreModel) {dist : Distributions}
    {fits : FeatureFits} {x x' : Containment} (h : m.rescoreContainment dist fits x = .ok x') :
    ∃ cost, x' = { x with score := m.score (.contained x), cost } := by
  unfold ScoreModel.rescoreContainment at h
  obtain ⟨cost, -, h⟩ := bind_ok h
  cases h
  exact ⟨cost, rfl⟩

namespace AssemblyGraph

variable {g g' g'' : AssemblyGraph}

/-! ## Operations that only remove -/

/-- `g'` has the sequences of `g`, and its live edges and records are among those of `g`. -/
structure Shrinks (g' g : AssemblyGraph) : Prop where
  lengths : g'.lengths = g.lengths
  edge : ∀ id e, g'.edge? id = some e → g.edge? id = some e
  record : ∀ s x, x ∈ g'.containmentsOf s → x ∈ g.containmentsOf s

theorem Shrinks.refl (g : AssemblyGraph) : g.Shrinks g :=
  ⟨rfl, fun _ _ h => h, fun _ _ h => h⟩

theorem Shrinks.trans (h₂ : g''.Shrinks g') (h₁ : g'.Shrinks g) : g''.Shrinks g :=
  ⟨h₂.lengths.trans h₁.lengths, fun id e h => h₁.edge id e (h₂.edge id e h),
    fun s x h => h₁.record s x (h₂.record s x h)⟩

/-- A fold whose every step only removes only removes. -/
theorem shrinks_foldl {α : Type} (op : AssemblyGraph → α → AssemblyGraph)
    (hop : ∀ g x, (op g x).Shrinks g) : ∀ (l : List α) (g : AssemblyGraph), (l.foldl op g).Shrinks g
  | [], g => .refl g
  | x :: l, g => (shrinks_foldl op hop l (op g x)).trans (hop g x)

/-- Removing a slot empties it and touches no other slot, whether it held an edge or not. -/
theorem edge?_removeEdge_eq (id j : Nat) :
    (g.removeEdge id).2.edge? j = if j = id then none else g.edge? j := by
  cases h : g.edge? id with
  | none =>
    rw [removeEdge_of_none h]
    split
    · next hj => rw [hj, h]
    · rfl
  | some e => exact edge?_removeEdge h j

theorem bySequence_removeEdge (id : Nat) : (g.removeEdge id).2.bySequence = g.bySequence := by
  cases h : g.edge? id with
  | none => rw [removeEdge_of_none h]
  | some e => exact removeEdge_bySequence h

theorem shrinks_removeEdge (g : AssemblyGraph) (id : Nat) : (g.removeEdge id).2.Shrinks g := by
  refine ⟨?_, fun j e he => ?_, fun s x hx => ?_⟩
  · cases h : g.edge? id with
    | none => rw [removeEdge_of_none h]
    | some e => exact removeEdge_lengths h
  · rw [edge?_removeEdge_eq] at he
    split at he
    · cases he
    · exact he
  · rwa [containmentsOf, bySequence_removeEdge] at hx

theorem shrinks_removeContainment (g : AssemblyGraph) (c : Containment) :
    (g.removeContainment c).2.Shrinks g :=
  ⟨rfl, fun _ _ h => h, fun _ _ hx => Mirror.mem_of_mem_dropPlacement hx⟩

theorem shrinks_markChimeric (g : AssemblyGraph) (s : Nat) : (g.markChimeric s).Shrinks g := by
  unfold markChimeric
  split
  · exact ⟨rfl, fun _ _ h => h, fun _ _ h => h⟩
  · exact .refl g

theorem shrinks_removeRelationship (g : AssemblyGraph) (r : Relationship) :
    (g.removeRelationship r).2.Shrinks g := by
  cases r with
  | edge e =>
    simp only [removeRelationship]
    split_ifs
    · exact .refl g
    · split
      · exact shrinks_removeEdge g _
      · exact .refl g
  | contained c => exact shrinks_removeContainment g c

theorem shrinks_filterAt (g : AssemblyGraph) (ratio : Float) (v : Vertex) :
    (g.filterAt ratio v).Shrinks g := by
  unfold filterAt
  dsimp only
  split
  · exact .refl g
  · refine shrinks_foldl _ (fun g' p => ?_) _ g
    split
    · exact shrinks_removeEdge g' _
    · exact .refl g'

theorem shrinks_filterAround (g : AssemblyGraph) (s : Nat) (ratio : Float) :
    (g.filterAround s ratio).Shrinks g := by
  have hends : ∀ g' : AssemblyGraph,
      ((g'.filterAt ratio (.startOf s)).filterAt ratio (.endOf s)).Shrinks g' :=
    fun g' => (shrinks_filterAt _ ratio _).trans (shrinks_filterAt g' ratio _)
  unfold filterAround
  split
  · exact .refl g
  dsimp only
  split
  · exact hends g
  · rw [← Array.foldl_toList]
    refine (hends _).trans (shrinks_foldl _ (fun g' c => ?_) _ g)
    split
    · exact shrinks_removeContainment g' c
    · exact .refl g'

theorem shrinks_detachVertex (g : AssemblyGraph) (v : Vertex) : (g.detachVertex v).Shrinks g :=
  shrinks_foldl _ (fun g' id => shrinks_removeEdge g' id) _ g

theorem shrinks_pruneContained (g : AssemblyGraph) : g.pruneContained.2.Shrinks g :=
  shrinks_foldl _ (fun g' _ => (shrinks_detachVertex _ _).trans (shrinks_detachVertex g' _)) _ g

theorem shrinks_detectChimeric {depth : Nat} {r : List Nat × AssemblyGraph}
    (h : g.detectChimeric depth = .ok r) : r.2.Shrinks g := by
  unfold detectChimeric at h
  refine foldlM_ok_induction (fun s : List Nat × AssemblyGraph => s.2.Shrinks g) _ ?_ ([], g) r
    (.refl g) h
  rintro ⟨flagged, g'⟩ host s' - hg' hs'
  -- every branch answers the graph it was given, or that graph with the host flagged
  simp only [pure, Except.pure, bind, Except.bind] at hg' hs' ⊢
  split at hs'
  · cases hs'; exact hg'
  split at hs'
  · cases hs'; exact hg'
  split at hs'
  · cases hs'
  · split at hs' <;> cases hs'
    · exact (shrinks_markChimeric g' host).trans hg'
    · exact hg'

/-! ## Fields that removals keep

The operations that only remove are built from removing an edge, removing a record and flagging
a host, so a field that those three keep, such as the stored paths, is kept by all of them. -/

section frame

variable {α : Type} (F : AssemblyGraph → α)

/-- A fold whose every step keeps a field keeps it. -/
theorem frame_foldl {β : Type} (op : AssemblyGraph → β → AssemblyGraph) (hop : ∀ g x, F (op g x) = F g) :
    ∀ (l : List β) (g : AssemblyGraph), F (l.foldl op g) = F g
  | [], _ => rfl
  | x :: l, g => (frame_foldl op hop l (op g x)).trans (hop g x)

theorem frame_removeRelationship (hedge : ∀ g id, F (g.removeEdge id).2 = F g)
    (hrec : ∀ g c, F (g.removeContainment c).2 = F g) (g : AssemblyGraph) (r : Relationship) :
    F (g.removeRelationship r).2 = F g := by
  cases r with
  | edge e =>
    simp only [removeRelationship]
    split_ifs
    · rfl
    · split
      · exact hedge g _
      · rfl
  | contained c => exact hrec g c

theorem frame_filterAround (hedge : ∀ g id, F (g.removeEdge id).2 = F g)
    (hrec : ∀ g c, F (g.removeContainment c).2 = F g) (g : AssemblyGraph) (s : Nat)
    (ratio : Float) : F (g.filterAround s ratio) = F g := by
  have hat : ∀ g' v, F (g'.filterAt ratio v) = F g' := by
    intro g' v
    unfold filterAt
    dsimp only
    split
    · rfl
    · refine frame_foldl F _ (fun g'' p => ?_) _ g'
      split <;> simp only [hedge]
  unfold filterAround
  split
  · rfl
  dsimp only
  rw [hat, hat]
  split
  · rfl
  · rw [← Array.foldl_toList]
    refine frame_foldl F _ (fun g' c => ?_) _ g
    split <;> simp only [hrec]

theorem frame_pruneContained (hedge : ∀ g id, F (g.removeEdge id).2 = F g) (g : AssemblyGraph) :
    F g.pruneContained.2 = F g := by
  have hdetach : ∀ g' v, F (g'.detachVertex v) = F g' := fun g' _ => frame_foldl F _ hedge _ g'
  exact frame_foldl F _ (fun g' _ => (hdetach _ _).trans (hdetach g' _)) _ g

theorem frame_detectChimeric (hmark : ∀ g s, F (g.markChimeric s) = F g) {depth : Nat}
    {r : List Nat × AssemblyGraph} (h : g.detectChimeric depth = .ok r) : F r.2 = F g := by
  unfold detectChimeric at h
  refine foldlM_ok_induction (fun s : List Nat × AssemblyGraph => F s.2 = F g) _ ?_ ([], g) r rfl h
  rintro ⟨flagged, g'⟩ host s' - hg' hs'
  simp only [pure, Except.pure, bind, Except.bind] at hg' hs' ⊢
  split at hs'
  · cases hs'; exact hg'
  split at hs'
  · cases hs'; exact hg'
  split at hs'
  · cases hs'
  · split at hs' <;> cases hs'
    · exact (hmark g' host).trans hg'
    · exact hg'

end frame

theorem paths_removeEdge (g : AssemblyGraph) (id : Nat) : (g.removeEdge id).2.paths = g.paths := by
  cases h : g.edge? id with
  | none => rw [removeEdge_of_none h]
  | some e => exact removeEdge_paths h

theorem paths_markChimeric (g : AssemblyGraph) (s : Nat) : (g.markChimeric s).paths = g.paths := by
  unfold markChimeric
  split <;> rfl

theorem paths_addRelationship (g : AssemblyGraph) (r : Relationship) :
    (g.addRelationship r).2.paths = g.paths := by
  cases r with
  | edge e => exact addEdge_frame (·.paths) (fun _ _ => rfl) (fun _ _ _ h => removeEdge_paths h) g e
  | contained c =>
    unfold addRelationship
    dsimp only
    split
    · rfl
    · split <;> rfl

/-! ## Relationships that fit -/

/-- Every live overlap edge and every record of the graph fits its sequences. -/
structure Fitted (g : AssemblyGraph) : Prop where
  edge : ∀ id e, g.edge? id = some e → e.isIdentity = false → e.Fits g.lengths
  record : ∀ s x, x ∈ g.containmentsOf s → x.Fits g.lengths

theorem Fitted.shrink (hf : g.Fitted) (h : g'.Shrinks g) : g'.Fitted :=
  ⟨fun id e he hid => h.lengths ▸ hf.edge id e (h.edge id e he) hid,
    fun s x hx => h.lengths ▸ hf.record s x (h.record s x hx)⟩

/-- Identity edges are not counted among the overlap edges. -/
theorem overlapCount_new (lengths : Array Nat) : (new lengths).overlapCount = 0 :=
  foldl_identities_frame (·.overlapCount)
    (fun _ _ _ => by rw [insertEdge_overlapCount]; simp [Edge.identity, Edge.isIdentity]) _ 0 _

/-- A new graph holds identity edges only. -/
theorem isIdentity_of_edge?_new {lengths : Array Nat} {id : Nat} {e : Edge}
    (he : (new lengths).edge? id = some e) : e.isIdentity = true := by
  cases hid : e.isIdentity
  · have := (inv_new lengths).arena.one_le_overlapCount he hid
    rw [overlapCount_new] at this
    omega
  · rfl

/-- A new graph holds no record. -/
theorem containmentsOf_new (lengths : Array Nat) (s : Nat) : (new lengths).containmentsOf s = #[] := by
  have hbs : (new lengths).bySequence = {} :=
    foldl_identities_frame (·.bySequence) (fun _ _ _ => rfl) _ 0 _
  simp [containmentsOf, hbs]

theorem fitted_new (lengths : Array Nat) : (new lengths).Fitted := by
  refine ⟨fun id e he hid => ?_, fun s x hx => ?_⟩
  · rw [isIdentity_of_edge?_new he] at hid
    cases hid
  · rw [containmentsOf_new] at hx
    nomatch hx

theorem Fitted.insertEdge (hf : g.Fitted) {e : Edge} (he : e.Fits g.lengths) :
    (g.insertEdge e).Fitted := by
  refine ⟨fun id f hf' hid => ?_, hf.record⟩
  rw [edge?_insertEdge] at hf'
  split at hf'
  · cases hf'
    exact he
  · exact hf.edge id f hf' hid

/-- Adding a relationship that fits keeps the graph fitted: an edge takes the place of the one
it outscores, and a record joins both maps. -/
theorem Fitted.addRelationship (hf : g.Fitted) {r : Relationship} (hr : r.Fits g.lengths) :
    (g.addRelationship r).2.Fitted := by
  cases r with
  | edge e =>
    unfold AssemblyGraph.addRelationship
    dsimp only
    split
    · exact hf
    split
    · -- an edge already joins the two ends: the better of the two stays
      split_ifs
      · exact hf
      · refine (hf.shrink (shrinks_removeEdge g _)).insertEdge ?_
        rwa [(shrinks_removeEdge g _).lengths]
    · exact hf.insertEdge hr
  | contained x =>
    unfold AssemblyGraph.addRelationship
    dsimp only
    split
    · exact hf
    split
    · exact hf
    · refine ⟨hf.edge, fun s y hy => ?_⟩
      simp only [containmentsOf, Mirror.getD_alter_push] at hy
      split at hy
      · rcases Array.mem_push.mp hy with hy | rfl
        · exact hf.record s y hy
        · exact hr
      · exact hf.record s y hy

/-! ## Rescoring -/

variable {dist : Distributions} {m : ScoreModel}

/-- A live edge of a rescored graph is the edge in its slot before, an identity edge kept as
it was or an overlap edge with the model's score. -/
theorem rescore_edge? (h : g.rescore dist m = .ok g') {id : Nat} {e' : Edge}
    (he' : g'.edge? id = some e') :
    ∃ e, g.edge? id = some e ∧
      ((e.isIdentity = true ∧ e' = e) ∨
        (e.isIdentity = false ∧ ∃ cost, e' = { e with score := m.score (.edge e), cost })) := by
  unfold rescore at h
  obtain ⟨es, hes, h⟩ := bind_ok h
  obtain ⟨bs, -, h⟩ := bind_ok h
  obtain ⟨bh, -, h⟩ := bind_ok h
  cases h
  have hslot := mapM_ok_getElem? (mapM_ok_array hes) id
  simp only [Array.getElem?_toList] at hslot
  unfold edge? at he' ⊢
  -- the slot was traversed by the edge step
  cases ho : g.edges[id]? with
  | none =>
    rw [hslot.1.mpr ho] at he'
    cases he'
  | some o =>
    obtain ⟨y, hy, hstep⟩ := hslot.2 o ho
    rw [hy] at he'
    obtain rfl : y = some e' := by simpa using he'
    cases o with
    | none => cases hstep
    | some e =>
      refine ⟨e, rfl, ?_⟩
      dsimp only at hstep
      split at hstep
      · next hid => cases hstep; exact .inl ⟨hid, rfl⟩
      · next hid =>
        simp only [Functor.map, Except.map] at hstep
        split at hstep
        · cases hstep
        · next v hv =>
          cases hstep
          exact .inr ⟨by simpa using hid, m.rescoreEdge_ok hv⟩

/-- A record of a rescored graph is a record of its sequence before, with the model's score. -/
theorem rescore_record (h : g.rescore dist m = .ok g') {s : Nat} {x' : Containment}
    (hx : x' ∈ g'.containmentsOf s) :
    ∃ x ∈ g.containmentsOf s, ∃ cost, x' = { x with score := m.score (.contained x), cost } := by
  unfold rescore at h
  obtain ⟨es, -, h⟩ := bind_ok h
  obtain ⟨bs, hbs, h⟩ := bind_ok h
  obtain ⟨bh, -, h⟩ := bind_ok h
  cases h
  obtain ⟨x, hx, hfx⟩ := mapM_ok_mem (Mirror.getD_foldlM_mapM hbs s).1 (Array.mem_toList_iff.mpr hx)
  exact ⟨x, Array.mem_toList_iff.mp hx, m.rescoreContainment_ok hfx⟩

/-- Rescoring replaces the edges and the two record maps, and nothing else. -/
theorem rescore_eq (h : g.rescore dist m = .ok g') :
    ∃ es bs bh, g' = { g with edges := es, bySequence := bs, byHost := bh } := by
  unfold rescore at h
  obtain ⟨es, -, h⟩ := bind_ok h
  obtain ⟨bs, -, h⟩ := bind_ok h
  obtain ⟨bh, -, h⟩ := bind_ok h
  cases h
  exact ⟨_, _, _, rfl⟩

theorem rescore_lengths (h : g.rescore dist m = .ok g') : g'.lengths = g.lengths := by
  obtain ⟨es, bs, bh, rfl⟩ := rescore_eq h
  rfl

theorem paths_rescore (h : g.rescore dist m = .ok g') : g'.paths = g.paths := by
  obtain ⟨es, bs, bh, rfl⟩ := rescore_eq h
  rfl

/-- Rescoring keeps the graph fitted: ends, supports and placements stay. -/
theorem Fitted.rescore (hf : g.Fitted) (h : g.rescore dist m = .ok g') : g'.Fitted := by
  refine ⟨fun id e' he' hid => ?_, fun s x' hx => ?_⟩
  · rw [rescore_lengths h]
    obtain ⟨e, he, ⟨-, rfl⟩ | ⟨hid', cost, rfl⟩⟩ := rescore_edge? h he'
    · exact hf.edge id e' he hid
    · exact hf.edge id e he hid'
  · rw [rescore_lengths h]
    obtain ⟨x, hxg, cost, rfl⟩ := rescore_record h hx
    exact hf.record s x hxg

/-- Every live overlap edge and every record carries the score the model gives it. -/
structure Scored (m : ScoreModel) (g : AssemblyGraph) : Prop where
  edge : ∀ id e, g.edge? id = some e → e.isIdentity = false → e.score = m.score (.edge e)
  record : ∀ s x, x ∈ g.containmentsOf s → x.score = m.score (.contained x)

/-- Rescoring gives every overlap edge and record the model's score, which reads the support
alone and so is the score of the rescored relationship too. -/
theorem scored_rescore (h : g.rescore dist m = .ok g') : g'.Scored m := by
  refine ⟨fun id e' he' hid => ?_, fun s x' hx => ?_⟩
  · obtain ⟨e, -, ⟨hid', rfl⟩ | ⟨-, cost, rfl⟩⟩ := rescore_edge? h he'
    · rw [hid'] at hid
      cases hid
    · rfl
  · obtain ⟨x, -, cost, rfl⟩ := rescore_record h hx
    rfl

theorem Scored.shrink (hs : g.Scored m) (h : g'.Shrinks g) : g'.Scored m :=
  ⟨fun id e he hid => hs.edge id e (h.edge id e he) hid, fun s x hx => hs.record s x (h.record s x hx)⟩

/-! ## Pruning -/

/-- No live overlap edge touches a vertex of a contained sequence. -/
def Pruned (g : AssemblyGraph) : Prop :=
  ∀ id e, g.edge? id = some e → e.isIdentity = false →
    g.isContained e.v1.sequence = false ∧ g.isContained e.v2.sequence = false

/-- Removing the slots of a list empties exactly those slots. -/
theorem edge?_foldl_removeEdge (ids : List Nat) (j : Nat) :
    ∀ g : AssemblyGraph,
      (ids.foldl (fun g id => (g.removeEdge id).2) g).edge? j = if j ∈ ids then none else g.edge? j := by
  induction ids with
  | nil => intro g; simp
  | cons id ids ih =>
    intro g
    rw [List.foldl_cons, ih, edge?_removeEdge_eq]
    by_cases hj : j = id <;> simp [hj]

theorem bySequence_detachVertex (g : AssemblyGraph) (v : Vertex) :
    (g.detachVertex v).bySequence = g.bySequence := by
  unfold detachVertex
  generalize ((g.edgesOf v).filter fun p => !p.2.isIdentity).map (·.1) = ids
  induction ids generalizing g with
  | nil => rfl
  | cons id ids ih => rw [List.foldl_cons, ih, bySequence_removeEdge]

theorem bySequence_pruneContained (g : AssemblyGraph) :
    g.pruneContained.2.bySequence = g.bySequence := by
  unfold pruneContained
  dsimp only
  generalize g.bySequence.keys = l
  induction l generalizing g with
  | nil => rfl
  | cons s l ih => rw [List.foldl_cons, ih, bySequence_detachVertex, bySequence_detachVertex]

/-- After detaching a vertex no live overlap edge touches it: every live edge touching it is
listed at it, so it was among the edges removed. -/
theorem detachVertex_clear (hi : g.Inv) (v : Vertex) {id : Nat} {e : Edge}
    (he : (g.detachVertex v).edge? id = some e) (hid : e.isIdentity = false) : ¬e.Touches v := by
  intro ht
  have hlive := (shrinks_detachVertex g v).edge id e he
  have hmem : (id, e) ∈ g.edgesOf v := by
    simp only [edgesOf, List.mem_filterMap, Option.map_eq_some_iff, Prod.mk.injEq]
    exact ⟨id, Array.mem_toList_iff.mpr ((hi.arena.adjacent v id).mpr ⟨e, hlive, ht⟩), e, hlive,
      rfl, rfl⟩
  unfold detachVertex at he
  rw [edge?_foldl_removeEdge, if_pos (List.mem_map.mpr ⟨(id, e), List.mem_filter.mpr
    ⟨hmem, by simp [hid]⟩, rfl⟩)] at he
  cases he

/-- Detaching both vertices of each sequence of a list leaves no live overlap edge at them. -/
theorem foldl_detach_clear (l : List Nat) :
    ∀ g : AssemblyGraph, g.Inv → ∀ s ∈ l, ∀ id e,
      (l.foldl (fun g s => (g.detachVertex (.startOf s)).detachVertex (.endOf s)) g).edge? id =
        some e → e.isIdentity = false → ¬e.Touches (.startOf s) ∧ ¬e.Touches (.endOf s) := by
  induction l with
  | nil => intro g _ s hs; nomatch hs
  | cons s' l ih =>
    intro g hi s hs id e he hid
    rw [List.foldl_cons] at he
    have h₁ := hi.detachVertex (.startOf s')
    rcases List.mem_cons.mp hs with rfl | hs
    · -- the edge is live in the graph the rest of the list started from
      have hlive := (shrinks_foldl _ (fun g' s => (shrinks_detachVertex _ _).trans
        (shrinks_detachVertex g' _)) l _).edge id e he
      exact ⟨detachVertex_clear hi _ ((shrinks_detachVertex _ _).edge id e hlive) hid,
        detachVertex_clear h₁.1 _ hlive hid⟩
    · exact ih _ (h₁.1.detachVertex _).1 s hs id e he hid

/-- Pruning leaves no live overlap edge at a contained sequence. -/
theorem pruned_pruneContained (hi : g.Inv) : g.pruneContained.2.Pruned := by
  intro id e he hid
  have hclear : ∀ s, g.isContained s = true → ¬e.Touches (.startOf s) ∧ ¬e.Touches (.endOf s) :=
    fun s hs => foldl_detach_clear _ g hi s (Std.TreeMap.mem_keys.mpr (by simpa [isContained]
      using hs)) id e he hid
  -- each end of the edge is the start or the end of its sequence
  have hend : ∀ w : Vertex, e.Touches w → g.isContained w.sequence = false := by
    intro w hw
    refine Bool.eq_false_iff.mpr fun hs => ?_
    rcases Vertex.eq_startOf_or_endOf w with hw' | hw'
    · exact (hclear _ hs).1 (hw' ▸ hw)
    · exact (hclear _ hs).2 (hw' ▸ hw)
  simp only [isContained, bySequence_pruneContained]
  exact ⟨hend e.v1 (.inl rfl), hend e.v2 (.inr rfl)⟩

end AssemblyGraph

end OverlapLayout
