import Mathlib
import OverlapLayout.Proofs.Graph.Shape
/-!
  Removing overlap edges at a vertex.

  Filtering and pruning remove, one after another, overlap edges listed at a vertex, and
  filtering also removes containment records. This module says once what such removals do.

  * `Inv.mem_edgesOf`: a vertex lists exactly the live edges touching it.
  * `foldl_removeIf`, `Inv.edge?_removeListed`: removing the listed edges that a test picks
    empties exactly their slots.
  * `removeEdge_flag_mono`, `removeEdge_flag_at`, `removeEdge_flag_lost`: a removal keeps every
    vertex flag, raises one only at an end of the removed edge, and raises it at an end left
    without overlap edges.
  * `Detached`: a graph obtained by removals: its edges and records are among the old ones,
    the chimeric flags are kept, and a vertex flag only rises, at an end of a removed edge.
  * `Inv.detachVertex_keeps`, `Inv.filterAt_keeps`, `Inv.filterAround_keeps`,
    `Inv.pruneContained_keeps`: a property kept by each removal of an overlap edge (and of a
    record) is kept by detaching, filtering and pruning.
-/

namespace OverlapLayout

namespace AssemblyGraph

variable {g : AssemblyGraph} {e : Edge} {id : Nat} {u w : Vertex}

/-! ## Edges listed at a vertex -/

/-- A vertex lists exactly the live edges touching it. -/
theorem Inv.mem_edgesOf (hi : g.Inv) {v : Vertex} {j : Nat} {f : Edge} :
    (j, f) ∈ g.edgesOf v ↔ g.edge? j = some f ∧ f.Touches v := by
  simp only [edgesOf, List.mem_filterMap, Option.map_eq_some_iff, Prod.mk.injEq,
    Array.mem_toList_iff]
  constructor
  · rintro ⟨j', hj', f', hf', rfl, rfl⟩
    obtain ⟨f'', hf'', ht⟩ := (hi.arena.adjacent v j').1 hj'
    rw [hf'] at hf''
    cases hf''
    exact ⟨hf', ht⟩
  · rintro ⟨hf, ht⟩
    exact ⟨j, (hi.arena.adjacent v j).2 ⟨f, hf, ht⟩, f, hf, rfl, rfl⟩

/-- Whether a vertex has an overlap edge reads only its list and the arena. -/
theorem hasOverlapEdges_congr {g' : AssemblyGraph} {v : Vertex} (hadj : g'.adjacent v = g.adjacent v)
    (hedges : g'.edges = g.edges) : g'.hasOverlapEdges v = g.hasOverlapEdges v := by
  simp only [hasOverlapEdges, edgesOf, edge?, hadj, hedges]

/-- Removing, of a list, the elements a test picks is removing the ids of the picked ones. -/
theorem foldl_removeIf {α : Type} (step : AssemblyGraph → α → AssemblyGraph) (p : α → Bool)
    (f : α → Nat) (hstep : ∀ g x, step g x = if p x then (g.removeEdge (f x)).2 else g)
    (l : List α) (g : AssemblyGraph) :
    l.foldl step g = ((l.filter p).map f).foldl (fun g id => (g.removeEdge id).2) g := by
  induction l generalizing g with
  | nil => rfl
  | cons x l ih =>
    rw [List.foldl_cons, hstep, List.filter_cons]
    by_cases hx : p x = true
    · simp only [hx, if_true, List.map_cons, List.foldl_cons, ih]
    · simp only [hx, Bool.false_eq_true, if_false, ih]

/-- Removing the edges listed at `v` that a test picks empties exactly the slots of the live
edges touching `v` that it picks. -/
theorem Inv.edge?_removeListed (hi : g.Inv) (v : Vertex) (q : Nat × Edge → Bool) (j : Nat) :
    ((((g.edgesOf v).filter q).map (·.1)).foldl (fun g id => (g.removeEdge id).2) g).edge? j =
      (g.edge? j).filter fun f => !(decide (f.Touches v) && q (j, f)) := by
  rw [edge?_foldl_removeEdge]
  cases hj : g.edge? j with
  | none => simp
  | some f =>
    -- the only listed pair with id `j` is `(j, f)`
    have hmem : j ∈ ((g.edgesOf v).filter q).map (·.1) ↔ f.Touches v ∧ q (j, f) = true := by
      simp only [List.mem_map, List.mem_filter]
      constructor
      · rintro ⟨⟨j', f'⟩, ⟨hl, hq⟩, rfl⟩
        obtain ⟨hf', ht⟩ := hi.mem_edgesOf.1 hl
        rw [hj, Option.some.injEq] at hf'
        subst hf'
        exact ⟨ht, hq⟩
      · rintro ⟨ht, hq⟩
        exact ⟨(j, f), ⟨hi.mem_edgesOf.2 ⟨hj, ht⟩, hq⟩, rfl⟩
    by_cases hr : f.Touches v ∧ q (j, f) = true
    · rw [if_pos (hmem.2 hr), Option.filter_some, if_neg]
      simp [hr.1, hr.2]
    · rw [if_neg (fun h => hr (hmem.1 h)), Option.filter_some, if_pos]
      cases hq : q (j, f)
      · simp
      · have ht : ¬f.Touches v := fun ht => hr ⟨ht, hq⟩
        simp [ht]

/-! ## Vertex flags under a removal -/

section flags

theorem detachEnd_flag_mono (h : g.isVertexIsolated u = true) :
    (detachEnd e id g w).isVertexIsolated u = true := by
  simp only [detachEnd]
  split
  · simp only [isVertexIsolated, Array.getD_eq_getD_getElem?, Array.set!_eq_setIfInBounds,
      Array.getElem?_setIfInBounds] at h ⊢
    split_ifs <;> simp_all
  · exact h

theorem detachEnd_flag_at (h : (detachEnd e id g w).isVertexIsolated u = true) :
    g.isVertexIsolated u = true ∨ u = w := by
  simp only [detachEnd] at h
  split at h
  · by_cases hu : u = w
    · exact .inr hu
    · left
      simpa [isVertexIsolated, Array.getD_eq_getD_getElem?, Array.set!_eq_setIfInBounds,
        Array.getElem?_setIfInBounds, Vertex.id_ne_of_ne (Ne.symm hu)] using h
  · exact .inl h

theorem detachEnd_hasOverlapEdges_ne (hu : u ≠ w) :
    (detachEnd e id g w).hasOverlapEdges u = g.hasOverlapEdges u :=
  hasOverlapEdges_congr (by rw [detachEnd_adjacent, if_neg hu]) detachEnd_edges

/-- Letting go of an overlap edge at a vertex left with no overlap edge flags the vertex. -/
theorem detachEnd_flag_set (hid : e.isIdentity = false) (hlt : w.id < g.isolated.size)
    (h : (detachEnd e id g w).hasOverlapEdges w = false) :
    (detachEnd e id g w).isVertexIsolated w = true := by
  simp only [detachEnd] at h ⊢
  split
  · simp [isVertexIsolated, Array.getD_eq_getD_getElem?, hlt]
  · rename_i hc
    split at h
    · contradiction
    · rw [hid, h] at hc
      exact absurd rfl hc

/-- The removal of a live edge through its two ends; the overlap count plays no part in flags
and in the edges a vertex has. -/
theorem removeEdge_flags (h : g.edge? id = some e) (u : Vertex) :
    (g.removeEdge id).2.isVertexIsolated u = (detachEnd e id (detachEnd e id
        { g with edges := g.edges.set! id none, index := g.index.erase e.key } e.v1) e.v2).isVertexIsolated u ∧
      (g.removeEdge id).2.hasOverlapEdges u = (detachEnd e id (detachEnd e id
        { g with edges := g.edges.set! id none, index := g.index.erase e.key } e.v1) e.v2).hasOverlapEdges u := by
  rw [removeEdge_of_edge? h]
  split <;> exact ⟨rfl, rfl⟩

/-- A removal keeps every vertex flag. -/
theorem removeEdge_flag_mono (hu : g.isVertexIsolated u = true) :
    (g.removeEdge id).2.isVertexIsolated u = true := by
  cases h : g.edge? id with
  | none => rwa [removeEdge_of_none h]
  | some e =>
    rw [(removeEdge_flags h u).1]
    exact detachEnd_flag_mono (detachEnd_flag_mono hu)

/-- A removal raises a vertex flag only at an end of the removed edge. -/
theorem removeEdge_flag_at (hu : (g.removeEdge id).2.isVertexIsolated u = true) :
    g.isVertexIsolated u = true ∨ ∃ e, g.edge? id = some e ∧ e.Touches u := by
  cases h : g.edge? id with
  | none => rw [removeEdge_of_none h] at hu; exact .inl hu
  | some e =>
    rw [(removeEdge_flags h u).1] at hu
    rcases detachEnd_flag_at hu with hu | rfl
    · rcases detachEnd_flag_at hu with hu | rfl
      · exact .inl hu
      · exact .inr ⟨e, rfl, .inl rfl⟩
    · exact .inr ⟨e, rfl, .inr rfl⟩

/-- Removing an overlap edge flags each of its ends that is left with no overlap edge. -/
theorem removeEdge_flag_lost {m : Nat} (ha : g.Arena m) (h : g.edge? id = some e)
    (hid : e.isIdentity = false) (ht : e.Touches u)
    (hno : (g.removeEdge id).2.hasOverlapEdges u = false) :
    (g.removeEdge id).2.isVertexIsolated u = true := by
  obtain ⟨hflag, hover⟩ := removeEdge_flags h u
  rw [hflag]
  rw [hover] at hno
  have hne := ha.ends_ne h
  have hlt : ∀ x : Vertex, e.Touches x → x.id < g.isolated.size := fun x hx => by
    rw [ha.isolated_size, ← ha.adjacency_size]
    exact ha.touches_lt (ha.ends_lt h).1 (ha.ends_lt h).2 hx
  rcases ht with rfl | rfl
  · -- the first end is flagged when it is let go of, and letting go of the second keeps it
    rw [detachEnd_hasOverlapEdges_ne hne] at hno
    exact detachEnd_flag_mono (detachEnd_flag_set hid (by simpa using hlt _ (.inl rfl)) hno)
  · exact detachEnd_flag_set hid (by simpa using hlt _ (.inr rfl)) hno

end flags

/-! ## Graphs obtained by removals -/

/-- `g'` is `g` with some edges and records removed: its edges and records are among those of
`g`, the chimeric flags are the same, and a vertex flag only rises, and only at an end of an
edge that is gone. -/
structure Detached (g' g : AssemblyGraph) : Prop where
  shrinks : g'.Shrinks g
  chimeric : g'.chimeric = g.chimeric
  flag_mono : ∀ v, g.isVertexIsolated v = true → g'.isVertexIsolated v = true
  flag_new : ∀ v, g'.isVertexIsolated v = true → g.isVertexIsolated v = false →
    ∃ id e, g.edge? id = some e ∧ g'.edge? id = none ∧ e.Touches v

theorem Detached.refl (g : AssemblyGraph) : Detached g g :=
  ⟨.refl g, rfl, fun _ h => h, fun _ h h' => absurd h (by simp [h'])⟩

theorem Detached.trans {g'' g' : AssemblyGraph} (h₂ : Detached g'' g') (h₁ : Detached g' g) :
    Detached g'' g := by
  refine ⟨h₂.shrinks.trans h₁.shrinks, h₂.chimeric.trans h₁.chimeric,
    fun v hv => h₂.flag_mono v (h₁.flag_mono v hv), fun v hv hv' => ?_⟩
  cases hmid : g'.isVertexIsolated v with
  | true =>
    -- raised between `g` and `g'`: the edge gone then stays gone
    obtain ⟨id, e, he, he', ht⟩ := h₁.flag_new v hmid hv'
    refine ⟨id, e, he, ?_, ht⟩
    cases h'' : g''.edge? id with
    | none => rfl
    | some f => rw [h₂.shrinks.edge id f h''] at he'; cases he'
  | false =>
    obtain ⟨id, e, he, he'', ht⟩ := h₂.flag_new v hv hmid
    exact ⟨id, e, h₁.shrinks.edge id e he, he'', ht⟩

theorem detached_removeEdge (g : AssemblyGraph) (id : Nat) : Detached (g.removeEdge id).2 g := by
  refine ⟨shrinks_removeEdge g id, ?_, fun v hv => removeEdge_flag_mono hv, fun v hv hv' => ?_⟩
  · cases h : g.edge? id with
    | none => rw [removeEdge_of_none h]
    | some e => exact removeEdge_chimeric h
  · rcases removeEdge_flag_at hv with hv'' | ⟨e, he, ht⟩
    · rw [hv'] at hv''; cases hv''
    · exact ⟨id, e, he, by rw [edge?_removeEdge_eq, if_pos rfl], ht⟩

theorem detached_removeContainment (g : AssemblyGraph) (c : Containment) :
    Detached (g.removeContainment c).2 g :=
  ⟨shrinks_removeContainment g c, rfl, fun _ h => h, fun _ h h' => absurd (h.symm.trans h') (by simp)⟩

/-! ## Properties kept by removals -/

/-- The listed edges a test picks among the overlap edges are overlap edges. -/
theorem Inv.size_le_listed (hi : g.Inv) (v : Vertex) (q : Nat × Edge → Bool)
    (hq : ∀ x, q x = true → x.2.isIdentity = false) :
    ∀ id ∈ ((g.edgesOf v).filter q).map (·.1), g.size ≤ id := by
  intro id hid
  obtain ⟨⟨j, f⟩, hf, rfl⟩ := List.mem_map.1 hid
  obtain ⟨hf, hqf⟩ := List.mem_filter.1 hf
  exact hi.size_le_id (hi.mem_edgesOf.1 hf).1 (hq _ hqf)

section Removals

variable (P : AssemblyGraph → Prop)
  (hE : ∀ g id, g.Inv → g.size ≤ id → P g → P (g.removeEdge id).2)
include hE

/-- A property kept by every removal of an overlap edge is kept by removing a list of them. -/
theorem Inv.foldl_removeEdge_keeps (ids : List Nat) :
    ∀ g : AssemblyGraph, g.Inv → (∀ id ∈ ids, g.size ≤ id) → P g →
      P (ids.foldl (fun g id => (g.removeEdge id).2) g) := by
  induction ids with
  | nil => intro g _ _ hg; exact hg
  | cons id ids ih =>
    intro g hi hids hg
    exact ih _ (hi.removeEdge (hids id List.mem_cons_self))
      (fun j hj => by rw [size_removeEdge]; exact hids j (List.mem_cons_of_mem id hj))
      (hE g id hi (hids id List.mem_cons_self) hg)

theorem Inv.detachVertex_keeps (hi : g.Inv) (hg : P g) (v : Vertex) : P (g.detachVertex v) :=
  Inv.foldl_removeEdge_keeps P hE _ g hi (hi.size_le_listed v _ fun x hx => by simpa using hx) hg

theorem Inv.filterAt_keeps (hi : g.Inv) (hg : P g) (ratio : Float) (v : Vertex) :
    P (g.filterAt ratio v) := by
  unfold AssemblyGraph.filterAt
  dsimp only
  split
  · exact hg
  · next best _ =>
    rw [@foldl_removeIf (Nat × Nat) _ (fun x => belowRatio ratio best x.2) (fun x => x.1)
        (fun _ _ => rfl),
      List.filter_map, List.map_map, List.filter_filter]
    exact Inv.foldl_removeEdge_keeps P hE _ g hi
      (hi.size_le_listed v _ fun x hx => by simp_all) hg

theorem Inv.pruneContained_keeps (hi : g.Inv) (hg : P g) : P g.pruneContained.2 := by
  unfold AssemblyGraph.pruneContained
  dsimp only
  -- each step detaches both vertices of a sequence, keeping the invariant and the property
  refine (List.foldlRecOn _ _ (motive := fun g' : AssemblyGraph => g'.Inv ∧ P g') ⟨hi, hg⟩
    fun g' h s _ => ?_).2
  obtain ⟨hi', hg'⟩ := h
  have h₁ := hi'.detachVertex (.startOf s)
  exact ⟨(h₁.1.detachVertex _).1, h₁.1.detachVertex_keeps P hE (hi'.detachVertex_keeps P hE hg' _) _⟩

theorem Inv.filterAround_keeps (hC : ∀ g c, g.Inv → P g → P (g.removeContainment c).2)
    (hi : g.Inv) (hg : P g) (s : Nat) (ratio : Float) : P (g.filterAround s ratio) := by
  have hends : ∀ g' : AssemblyGraph, g'.Inv ∧ P g' →
      P ((g'.filterAt ratio (.startOf s)).filterAt ratio (.endOf s)) :=
    fun g' ⟨hi', hg'⟩ =>
      (hi'.filterAt ratio _).1.filterAt_keeps P hE (hi'.filterAt_keeps P hE hg' _ _) _ _
  unfold AssemblyGraph.filterAround
  split
  · exact hg
  dsimp only
  split
  · exact hends g ⟨hi, hg⟩
  · rw [← Array.foldl_toList]
    -- each step removes a record or nothing, and keeps the invariant and the property
    refine hends _ (List.foldlRecOn _ _ (motive := fun g' : AssemblyGraph => g'.Inv ∧ P g')
      ⟨hi, hg⟩ fun g' h c _ => ?_)
    obtain ⟨hi', hg'⟩ := h
    split
    · exact ⟨hi'.removeContainment c, hC g' c hi' hg'⟩
    · exact ⟨hi', hg'⟩

end Removals

/-- Filtering around a sequence only removes. -/
theorem Inv.detached_filterAround (hi : g.Inv) (s : Nat) (ratio : Float) :
    Detached (g.filterAround s ratio) g :=
  hi.filterAround_keeps (Detached · g) (fun g' id _ _ h => (detached_removeEdge g' id).trans h)
    (fun g' c _ h => (detached_removeContainment g' c).trans h) (.refl g) s ratio

end AssemblyGraph

end OverlapLayout
