import Mathlib
import OverlapLayout.Graph.Basic
/-!
  The edge arena of the read graph, and what storing and removing an edge do
  to it.

  * `Vertex.id_inj`: vertex numbers name vertices.
  * `Edge.Touches`, `Edge.across_eq_some`: the two ends of an edge.
  * The field lemmas of `AssemblyGraph.insertEdge` and
    `AssemblyGraph.removeEdge`: what each one changes, and that it changes
    nothing else. Later proofs read the two operations through these lemmas
    only.
  * `AssemblyGraph.hasOverlapEdges_iff`: a vertex has an overlap edge exactly
    when one of the ids listed at it names a live overlap edge.
-/

namespace OverlapLayout

namespace Vertex

theorem id_inj {v w : Vertex} : v.id = w.id ↔ v = w := by
  constructor
  · intro h
    obtain ⟨s, a⟩ := v
    obtain ⟨t, b⟩ := w
    simp only [id] at h
    cases a <;> cases b <;> simp at h ⊢ <;> omega
  · rintro rfl; rfl

theorem id_ne_of_ne {v w : Vertex} (h : v ≠ w) : v.id ≠ w.id := fun h' => h (id_inj.1 h')

@[simp] theorem startOf_sequence (s : Nat) : (startOf s).sequence = s := rfl
@[simp] theorem endOf_sequence (s : Nat) : (endOf s).sequence = s := rfl
@[simp] theorem opposite_sequence (v : Vertex) : v.opposite.sequence = v.sequence := rfl
@[simp] theorem opposite_opposite (v : Vertex) : v.opposite.opposite = v := by
  simp [opposite]

theorem opposite_ne (v : Vertex) : v.opposite ≠ v := by
  obtain ⟨s, a⟩ := v
  cases a <;> simp [opposite]

@[simp] theorem startOf_opposite (s : Nat) : (startOf s).opposite = endOf s := rfl
@[simp] theorem endOf_opposite (s : Nat) : (endOf s).opposite = startOf s := rfl

/-- A vertex of a sequence below `n` has a number below `2 n`. -/
theorem id_lt {v : Vertex} {n : Nat} (h : v.sequence < n) : v.id < 2 * n := by
  obtain ⟨s, a⟩ := v
  simp only at h
  cases a <;> simp [id] <;> omega

theorem eq_startOf_or_endOf (v : Vertex) : v = startOf v.sequence ∨ v = endOf v.sequence := by
  obtain ⟨s, a⟩ := v
  cases a <;> simp [startOf, endOf]

end Vertex

namespace Edge

/-- `v` is one of the two ends of the edge. -/
def Touches (e : Edge) (v : Vertex) : Prop := e.v1 = v ∨ e.v2 = v

instance (e : Edge) (v : Vertex) : Decidable (e.Touches v) := inferInstanceAs (Decidable (_ ∨ _))

theorem across_eq_some {e : Edge} {v w : Vertex} :
    e.across v = some w ↔ (e.v1 = v ∧ e.v2 = w) ∨ (e.v1 ≠ v ∧ e.v2 = v ∧ e.v1 = w) := by
  unfold across
  by_cases h1 : e.v1 = v <;> by_cases h2 : e.v2 = v <;> simp [h1, h2]

theorem across_isSome {e : Edge} {v : Vertex} : (e.across v).isSome ↔ e.Touches v := by
  unfold across Touches
  by_cases h1 : e.v1 = v <;> by_cases h2 : e.v2 = v <;> simp [h1, h2]

/-- Crossing an edge and crossing back returns to the start. -/
theorem across_across {e : Edge} {v w : Vertex} (hne : e.v1 ≠ e.v2) (h : e.across v = some w) :
    e.across w = some v := by
  rcases across_eq_some.1 h with ⟨rfl, rfl⟩ | ⟨-, rfl, rfl⟩
  · exact across_eq_some.2 (.inr ⟨hne, rfl, rfl⟩)
  · exact across_eq_some.2 (.inl ⟨rfl, rfl⟩)

theorem key_eq_key {e f : Edge} :
    e.key = f.key ↔ (e.v1 = f.v1 ∧ e.v2 = f.v2) ∨ (e.v1 = f.v2 ∧ e.v2 = f.v1) := by
  simp only [key]
  constructor
  · intro h
    split_ifs at h with h1 h2 h2 <;> simp only [Prod.mk.injEq] at h <;>
      simp only [← Vertex.id_inj] <;> omega
  · rintro (⟨h1, h2⟩ | ⟨h1, h2⟩) <;> simp only [h1, h2]
    -- equal ends give equal keys at once; swapped ends are put back in order by the key
    split_ifs <;> simp <;> omega

/-- Whether an edge is an identity edge reads only its ends. -/
theorem isIdentity_eq_of_key_eq {e f : Edge} (h : e.key = f.key) : e.isIdentity = f.isIdentity := by
  rcases key_eq_key.1 h with ⟨h1, h2⟩ | ⟨h1, h2⟩ <;> simp [isIdentity, h1, h2, BEq.comm]

/-- The two ends of an edge. -/
def ends (e : Edge) : Vertex × Vertex := (e.v1, e.v2)

end Edge

namespace AssemblyGraph

variable {g : AssemblyGraph} {e : Edge} {id : Nat} {v : Vertex}

theorem findEdge?_eq (v1 v2 : Vertex) : g.findEdge? v1 v2 = g.index[({ v1, v2 } : Edge).key]? := by
  simp [findEdge?]

/-- The index is asked the same question for both orders of two vertices. -/
theorem findEdge?_comm (v1 v2 : Vertex) : g.findEdge? v1 v2 = g.findEdge? v2 v1 := by
  have hswap : ({ v1, v2 } : Edge).key = ({ v1 := v2, v2 := v1 } : Edge).key :=
    Edge.key_eq_key.2 (.inr ⟨rfl, rfl⟩)
  rw [findEdge?_eq, findEdge?_eq, hswap]

theorem lt_of_edge? (h : g.edge? id = some e) : id < g.edges.size := by
  unfold edge? at h
  cases hx : g.edges[id]? with
  | none => simp [hx] at h
  | some x => exact (Array.getElem?_eq_some_iff.1 hx).1

theorem hasOverlapEdges_iff :
    g.hasOverlapEdges v = true ↔ ∃ j ∈ g.adjacent v, ∃ f, g.edge? j = some f ∧ f.isIdentity = false := by
  simp only [hasOverlapEdges, edgesOf, List.any_eq_true, List.mem_filterMap, Option.map_eq_some_iff,
    Array.mem_toList_iff]
  constructor
  · rintro ⟨_, ⟨j, hj, f, hf, rfl⟩, hid⟩
    exact ⟨j, hj, f, hf, by simpa using hid⟩
  · rintro ⟨j, hj, f, hf, hid⟩
    exact ⟨(j, f), ⟨j, hj, f, hf, rfl⟩, by simp [hid]⟩

/-- Fewer listed ids and fewer live edges leave no more overlap edges at a vertex. -/
theorem hasOverlapEdges_mono {g' : AssemblyGraph} (hadj : ∀ j ∈ g'.adjacent v, j ∈ g.adjacent v)
    (hedge : ∀ j f, g'.edge? j = some f → g.edge? j = some f) (h : g'.hasOverlapEdges v = true) :
    g.hasOverlapEdges v = true := by
  obtain ⟨j, hj, f, hf, hid⟩ := hasOverlapEdges_iff.1 h
  exact hasOverlapEdges_iff.2 ⟨j, hadj j hj, f, hedge j f hf, hid⟩

/-! ## Storing an edge -/

@[simp] theorem insertEdge_edges : (g.insertEdge e).edges = g.edges.push (some e) := rfl
@[simp] theorem insertEdge_index : (g.insertEdge e).index = g.index.insert e.key g.edges.size := rfl
@[simp] theorem insertEdge_lengths : (g.insertEdge e).lengths = g.lengths := rfl
@[simp] theorem insertEdge_size : (g.insertEdge e).size = g.size := rfl
@[simp] theorem insertEdge_byHost : (g.insertEdge e).byHost = g.byHost := rfl
@[simp] theorem insertEdge_bySequence : (g.insertEdge e).bySequence = g.bySequence := rfl
@[simp] theorem insertEdge_chimeric : (g.insertEdge e).chimeric = g.chimeric := rfl
@[simp] theorem insertEdge_paths : (g.insertEdge e).paths = g.paths := rfl
@[simp] theorem insertEdge_pathOf : (g.insertEdge e).pathOf = g.pathOf := rfl

theorem insertEdge_adjacency : (g.insertEdge e).adjacency =
    (g.adjacency.modify e.v1.id (·.push g.edges.size)).modify e.v2.id (·.push g.edges.size) := rfl

theorem insertEdge_overlapCount :
    (g.insertEdge e).overlapCount = if e.isIdentity then g.overlapCount else g.overlapCount + 1 := by
  simp only [insertEdge]
  cases e.isIdentity <;> rfl

theorem insertEdge_isolated : (g.insertEdge e).isolated =
    if e.isIdentity then g.isolated else (g.isolated.set! e.v1.id false).set! e.v2.id false := by
  simp only [insertEdge]
  cases e.isIdentity <;> rfl

@[simp] theorem edge?_insertEdge (j : Nat) :
    (g.insertEdge e).edge? j = if j = g.edges.size then some e else g.edge? j := by
  simp only [edge?, insertEdge_edges, Array.getElem?_push]
  split <;> rfl

theorem adjacent_insertEdge (hne : e.v1 ≠ e.v2) (v : Vertex) :
    (g.insertEdge e).adjacent v =
      if e.Touches v ∧ v.id < g.adjacency.size then (g.adjacent v).push g.edges.size
      else g.adjacent v := by
  simp only [adjacent, insertEdge_adjacency, Array.getD_eq_getD_getElem?, Array.getElem?_modify,
    Edge.Touches]
  by_cases h1 : e.v1 = v
  · subst h1
    have h2 : e.v2.id ≠ e.v1.id := Vertex.id_ne_of_ne (Ne.symm hne)
    by_cases hlt : e.v1.id < g.adjacency.size <;> simp [h2, hlt]
  · by_cases h2 : e.v2 = v
    · subst h2
      have h1' : e.v1.id ≠ e.v2.id := Vertex.id_ne_of_ne hne
      by_cases hlt : e.v2.id < g.adjacency.size <;> simp [h1', hlt]
    · simp [Vertex.id_ne_of_ne h1, Vertex.id_ne_of_ne h2, h1, h2]

/-! ## Removing an edge

`removeEdge` lets go of the edge at each of its ends in turn; `detachEnd` names
that local step, so that its effect is stated once. -/

/-- One end of a removed edge let go: the id leaves the vertex's list, and the
vertex is flagged isolated when the edge was an overlap and no overlap edge is
left there. -/
def detachEnd (e : Edge) (id : Nat) (g : AssemblyGraph) (v : Vertex) : AssemblyGraph :=
  let g := { g with adjacency := g.adjacency.modify v.id (·.filter (· ≠ id)) }
  if !e.isIdentity && !g.hasOverlapEdges v then { g with isolated := g.isolated.set! v.id true }
  else g

theorem removeEdge_of_edge? (h : g.edge? id = some e) :
    g.removeEdge id = (true,
      let g' := detachEnd e id (detachEnd e id
        { g with edges := g.edges.set! id none, index := g.index.erase e.key } e.v1) e.v2
      if e.isIdentity then g' else { g' with overlapCount := g'.overlapCount - 1 }) := by
  simp only [removeEdge, h]
  rfl

theorem removeEdge_of_none (h : g.edge? id = none) : g.removeEdge id = (false, g) := by
  simp only [removeEdge, h]

section detach

variable {u w : Vertex}

@[simp] theorem detachEnd_edges : (detachEnd e id g w).edges = g.edges := by
  simp only [detachEnd]; split <;> rfl
@[simp] theorem detachEnd_index : (detachEnd e id g w).index = g.index := by
  simp only [detachEnd]; split <;> rfl
@[simp] theorem detachEnd_lengths : (detachEnd e id g w).lengths = g.lengths := by
  simp only [detachEnd]; split <;> rfl
@[simp] theorem detachEnd_byHost : (detachEnd e id g w).byHost = g.byHost := by
  simp only [detachEnd]; split <;> rfl
@[simp] theorem detachEnd_bySequence : (detachEnd e id g w).bySequence = g.bySequence := by
  simp only [detachEnd]; split <;> rfl
@[simp] theorem detachEnd_chimeric : (detachEnd e id g w).chimeric = g.chimeric := by
  simp only [detachEnd]; split <;> rfl
@[simp] theorem detachEnd_paths : (detachEnd e id g w).paths = g.paths := by
  simp only [detachEnd]; split <;> rfl
@[simp] theorem detachEnd_pathOf : (detachEnd e id g w).pathOf = g.pathOf := by
  simp only [detachEnd]; split <;> rfl
@[simp] theorem detachEnd_overlapCount : (detachEnd e id g w).overlapCount = g.overlapCount := by
  simp only [detachEnd]; split <;> rfl
@[simp] theorem detachEnd_isolated_size : (detachEnd e id g w).isolated.size = g.isolated.size := by
  simp only [detachEnd]; split <;> simp
@[simp] theorem detachEnd_adjacency :
    (detachEnd e id g w).adjacency = g.adjacency.modify w.id (·.filter (· ≠ id)) := by
  simp only [detachEnd]; split <;> rfl

theorem detachEnd_adjacent (u : Vertex) :
    (detachEnd e id g w).adjacent u = if u = w then (g.adjacent u).filter (· ≠ id) else g.adjacent u := by
  simp only [adjacent, detachEnd_adjacency, Array.getD_eq_getD_getElem?, Array.getElem?_modify]
  by_cases h : u = w
  · subst h
    cases g.adjacency[u.id]? <;> simp
  · simp [Vertex.id_ne_of_ne (Ne.symm h), h]

/-- A flag raised by letting go of an end stands at a vertex with no overlap edge left. -/
theorem detachEnd_flag (h : (detachEnd e id g w).isVertexIsolated u = true) :
    g.isVertexIsolated u = true ∨ (detachEnd e id g w).hasOverlapEdges u = false := by
  simp only [detachEnd] at h ⊢
  split at h
  · rename_i hc
    simp only [isVertexIsolated, Array.getD_eq_getD_getElem?, Array.set!_eq_setIfInBounds,
      Array.getElem?_setIfInBounds] at h
    by_cases hu : u = w
    · subst hu
      right
      simp only [Bool.and_eq_true, Bool.not_eq_eq_eq_not, Bool.not_true] at hc
      rw [if_pos (by simpa using hc)]
      exact hc.2
    · left
      simpa [isVertexIsolated, Vertex.id_ne_of_ne (Ne.symm hu)] using h
  · exact .inl h

end detach

section remove

variable (h : g.edge? id = some e)
include h

theorem removeEdge_edges : (g.removeEdge id).2.edges = g.edges.set! id none := by
  rw [removeEdge_of_edge? h]; split <;> simp
theorem removeEdge_index : (g.removeEdge id).2.index = g.index.erase e.key := by
  rw [removeEdge_of_edge? h]; split <;> simp
theorem removeEdge_lengths : (g.removeEdge id).2.lengths = g.lengths := by
  rw [removeEdge_of_edge? h]; split <;> simp
theorem removeEdge_isolated_size : (g.removeEdge id).2.isolated.size = g.isolated.size := by
  rw [removeEdge_of_edge? h]; split <;> simp
theorem removeEdge_byHost : (g.removeEdge id).2.byHost = g.byHost := by
  rw [removeEdge_of_edge? h]; split <;> simp
theorem removeEdge_bySequence : (g.removeEdge id).2.bySequence = g.bySequence := by
  rw [removeEdge_of_edge? h]; split <;> simp
theorem removeEdge_chimeric : (g.removeEdge id).2.chimeric = g.chimeric := by
  rw [removeEdge_of_edge? h]; split <;> simp
theorem removeEdge_paths : (g.removeEdge id).2.paths = g.paths := by
  rw [removeEdge_of_edge? h]; split <;> simp
theorem removeEdge_pathOf : (g.removeEdge id).2.pathOf = g.pathOf := by
  rw [removeEdge_of_edge? h]; split <;> simp
theorem removeEdge_adjacency : (g.removeEdge id).2.adjacency =
    (g.adjacency.modify e.v1.id (·.filter (· ≠ id))).modify e.v2.id (·.filter (· ≠ id)) := by
  rw [removeEdge_of_edge? h]; split <;> simp
theorem removeEdge_overlapCount : (g.removeEdge id).2.overlapCount =
    if e.isIdentity then g.overlapCount else g.overlapCount - 1 := by
  rw [removeEdge_of_edge? h]; split <;> simp [*]

theorem edge?_removeEdge (j : Nat) :
    (g.removeEdge id).2.edge? j = if j = id then none else g.edge? j := by
  have hlt := lt_of_edge? h
  simp only [edge?, removeEdge_edges h, Array.set!_eq_setIfInBounds, Array.getElem?_setIfInBounds]
  by_cases hj : j = id
  · subst hj; simp [hlt]
  · simp [hj, Ne.symm hj]

theorem adjacent_removeEdge (u : Vertex) :
    (g.removeEdge id).2.adjacent u = if e.Touches u then (g.adjacent u).filter (· ≠ id) else g.adjacent u := by
  have hR : (g.removeEdge id).2.adjacent u =
      (detachEnd e id (detachEnd e id
        { g with edges := g.edges.set! id none, index := g.index.erase e.key } e.v1) e.v2).adjacent u := by
    rw [removeEdge_of_edge? h]; split <;> rfl
  rw [hR, detachEnd_adjacent, detachEnd_adjacent]
  simp only [Edge.Touches, adjacent]
  by_cases h1 : u = e.v1
  · subst h1
    by_cases h2 : e.v1 = e.v2 <;> simp [h2, Array.filter_filter]
  · by_cases h2 : u = e.v2
    · have h12 : e.v1 ≠ e.v2 := fun h => h1 (h2.trans h.symm)
      subst h2
      simp [h12, Ne.symm h12]
    · simp [h1, h2, Ne.symm h1, Ne.symm h2]

/-- A flag standing after the removal stood before, or stands at a vertex with no
overlap edge left. -/
theorem removeEdge_flag {u : Vertex} (hu : (g.removeEdge id).2.isVertexIsolated u = true) :
    g.isVertexIsolated u = true ∨ (g.removeEdge id).2.hasOverlapEdges u = false := by
  -- the overlap count plays no part in flags and overlap edges
  have key : ∀ {g0 : AssemblyGraph},
      (detachEnd e id (detachEnd e id g0 e.v1) e.v2).isVertexIsolated u = true →
      g0.isVertexIsolated u = true ∨
        (detachEnd e id (detachEnd e id g0 e.v1) e.v2).hasOverlapEdges u = false := by
    intro g0 h2
    rcases detachEnd_flag h2 with h1 | h1
    · rcases detachEnd_flag h1 with h0 | h0
      · exact .inl h0
      · refine .inr (Bool.eq_false_iff.2 fun hc => ?_)
        have hsub : ∀ j ∈ (detachEnd e id (detachEnd e id g0 e.v1) e.v2).adjacent u,
            j ∈ (detachEnd e id g0 e.v1).adjacent u := by
          intro j hj
          rw [detachEnd_adjacent] at hj
          split at hj
          · exact (Array.mem_filter.1 hj).1
          · exact hj
        have := hasOverlapEdges_mono hsub (fun j f hf => by simpa [edge?] using hf) hc
        rw [h0] at this
        exact Bool.false_ne_true this
    · exact .inr h1
  rw [removeEdge_of_edge? h] at hu ⊢
  cases hi : e.isIdentity <;> simp only [hi, ↓reduceIte, Bool.false_eq_true] at hu ⊢ <;> exact key hu

end remove

/-! ## The arena invariant -/

/-- The edge arena of a graph whose first `m` slots hold the identity edges of
the first `m` sequences: every later live edge joins two different known
sequences, each vertex lists the live edges touching it, each once, the index
maps exactly the keys of the live edges to their ids, the overlap count is the
number of live overlap edges, and a flagged vertex has no overlap edge. -/
structure Arena (g : AssemblyGraph) (m : Nat) : Prop where
  adjacency_size : g.adjacency.size = 2 * g.size
  isolated_size : g.isolated.size = 2 * g.size
  le_size : m ≤ g.size
  le_slots : m ≤ g.edges.size
  identity : ∀ s < m, ∃ e, g.edge? s = some e ∧ e.v1 = .startOf s ∧ e.v2 = .endOf s
  overlap : ∀ id e, g.edge? id = some e → m ≤ id →
    e.v1.sequence ≠ e.v2.sequence ∧ e.v1.sequence < g.size ∧ e.v2.sequence < g.size
  nodup : ∀ v, (g.adjacent v).toList.Nodup
  adjacent : ∀ v id, id ∈ g.adjacent v ↔ ∃ e, g.edge? id = some e ∧ e.Touches v
  index : ∀ k id, g.index[k]? = some id ↔ ∃ e, g.edge? id = some e ∧ e.key = k
  count : g.overlapCount = g.edges.countP fun e? => e?.any fun e => !e.isIdentity
  isolated : ∀ v, g.isVertexIsolated v = true → g.hasOverlapEdges v = false

namespace Arena

variable {m : Nat} (ha : g.Arena m)
include ha

/-- A live edge is the identity edge of a sequence below `m` at its own id, or an
overlap edge between two different known sequences. -/
theorem edge_cases (h : g.edge? id = some e) :
    (id < m ∧ e.v1 = .startOf id ∧ e.v2 = .endOf id) ∨
      (m ≤ id ∧ e.v1.sequence ≠ e.v2.sequence ∧ e.v1.sequence < g.size ∧ e.v2.sequence < g.size) := by
  by_cases hm : id < m
  · obtain ⟨f, hf, h1, h2⟩ := ha.identity id hm
    rw [hf] at h
    cases h
    exact .inl ⟨hm, h1, h2⟩
  · exact .inr ⟨Nat.le_of_not_lt hm, ha.overlap id e h (Nat.le_of_not_lt hm)⟩

theorem ends_lt (h : g.edge? id = some e) : e.v1.sequence < g.size ∧ e.v2.sequence < g.size := by
  rcases ha.edge_cases h with ⟨hm, h1, h2⟩ | ⟨-, -, h1, h2⟩
  · have := ha.le_size
    simp only [h1, h2, Vertex.startOf_sequence, Vertex.endOf_sequence]
    omega
  · exact ⟨h1, h2⟩

theorem ends_ne (h : g.edge? id = some e) : e.v1 ≠ e.v2 := by
  rcases ha.edge_cases h with ⟨-, h1, h2⟩ | ⟨-, hne, -⟩
  · rw [h1, h2]; simp [Vertex.startOf, Vertex.endOf]
  · exact fun h' => hne (congrArg Vertex.sequence h')

theorem isIdentity_iff (h : g.edge? id = some e) : e.isIdentity = true ↔ id < m := by
  rcases ha.edge_cases h with ⟨hm, h1, h2⟩ | ⟨hm, hne, -⟩
  · simp [Edge.isIdentity, h1, h2, hm]
  · simp [Edge.isIdentity, hne]; omega

theorem index_key (h : g.edge? id = some e) : g.index[e.key]? = some id :=
  (ha.index e.key id).2 ⟨e, h, rfl⟩

/-- No two live edges join the same two vertices. -/
theorem eq_of_key_eq {i j : Nat} {f : Edge} (hi : g.edge? i = some e) (hj : g.edge? j = some f)
    (hk : e.key = f.key) : i = j := by
  have h1 := ha.index_key hi
  rw [hk, ha.index_key hj] at h1
  exact (Option.some.inj h1).symm

theorem hasOverlapEdges_iff' :
    g.hasOverlapEdges v = true ↔ ∃ id e, g.edge? id = some e ∧ e.Touches v ∧ e.isIdentity = false := by
  rw [hasOverlapEdges_iff]
  constructor
  · rintro ⟨j, hj, f, hf, hid⟩
    obtain ⟨f', hf', ht⟩ := (ha.adjacent v j).1 hj
    rw [hf] at hf'
    cases hf'
    exact ⟨j, f, hf, ht, hid⟩
  · rintro ⟨j, f, hf, ht, hid⟩
    exact ⟨j, (ha.adjacent v j).2 ⟨f, hf, ht⟩, f, hf, hid⟩

theorem not_mem_adjacent_slots (v : Vertex) : g.edges.size ∉ g.adjacent v := fun h => by
  obtain ⟨_, hf, -⟩ := (ha.adjacent v _).1 h
  exact Nat.lt_irrefl _ (lt_of_edge? hf)

/-- The edge between two vertices is the live edge joining them, in either order. -/
theorem findEdge?_eq_some_iff (v1 v2 : Vertex) (id : Nat) :
    g.findEdge? v1 v2 = some id ↔
      ∃ e, g.edge? id = some e ∧ ((e.v1 = v1 ∧ e.v2 = v2) ∨ (e.v1 = v2 ∧ e.v2 = v1)) := by
  rw [findEdge?_eq, ha.index]
  exact exists_congr fun e => and_congr_right fun _ => Edge.key_eq_key

/-- A live overlap edge is counted. -/
theorem one_le_overlapCount (h : g.edge? id = some e) (hid : e.isIdentity = false) :
    1 ≤ g.overlapCount := by
  have hmem : some e ∈ g.edges := by
    have := h
    simp only [edge?, Array.getElem?_eq_getElem (lt_of_edge? h), Option.join_some] at this
    exact this ▸ Array.getElem_mem (lt_of_edge? h)
  rw [ha.count]
  exact Array.countP_pos_iff.2 ⟨some e, hmem, by simp [hid]⟩

end Arena

/-! ## Storing an edge keeps the arena -/

section insert

theorem Arena.touches_lt {m : Nat} (ha : g.Arena m) (h1 : e.v1.sequence < g.size)
    (h2 : e.v2.sequence < g.size) (ht : e.Touches v) : v.id < g.adjacency.size := by
  rw [ha.adjacency_size]
  rcases ht with rfl | rfl
  · exact Vertex.id_lt h1
  · exact Vertex.id_lt h2

namespace Arena

variable {m : Nat} (ha : g.Arena m) (h1 : e.v1.sequence < g.size) (h2 : e.v2.sequence < g.size)
  (hne : e.v1 ≠ e.v2)
include ha h1 h2 hne

omit h1 h2 in
theorem insert_nodup (v : Vertex) : ((g.insertEdge e).adjacent v).toList.Nodup := by
  rw [adjacent_insertEdge hne]
  split
  · rw [Array.toList_push, List.nodup_append]
    refine ⟨ha.nodup v, by simp, ?_⟩
    intro a ha' b hb
    simp only [List.mem_singleton] at hb
    subst hb
    rintro rfl
    exact ha.not_mem_adjacent_slots v (Array.mem_toList_iff.1 ha')
  · exact ha.nodup v

theorem insert_adjacent (v : Vertex) (id : Nat) :
    id ∈ (g.insertEdge e).adjacent v ↔ ∃ f, (g.insertEdge e).edge? id = some f ∧ f.Touches v := by
  rw [adjacent_insertEdge hne, edge?_insertEdge]
  by_cases hid : id = g.edges.size
  · subst hid
    simp only [if_true, Option.some.injEq, exists_eq_left']
    constructor
    · intro hmem
      split at hmem
      · rename_i ht
        exact ht.1
      · exact absurd hmem (ha.not_mem_adjacent_slots v)
    · intro ht
      rw [if_pos ⟨ht, ha.touches_lt h1 h2 ht⟩]
      exact Array.mem_push_self
  · simp only [if_neg hid]
    rw [← ha.adjacent v id]
    split <;> simp [Array.mem_push, hid]

omit h1 h2 hne in
theorem insert_index (hfree : g.index[e.key]? = none) (k : Nat × Nat) (id : Nat) :
    (g.insertEdge e).index[k]? = some id ↔ ∃ f, (g.insertEdge e).edge? id = some f ∧ f.key = k := by
  rw [insertEdge_index, Std.HashMap.getElem?_insert, edge?_insertEdge]
  by_cases hk : e.key = k
  · subst hk
    simp only [beq_self_eq_true, if_true, Option.some.injEq]
    constructor
    · rintro rfl
      exact ⟨e, by simp, rfl⟩
    · rintro ⟨f, hf, hfk⟩
      split at hf
      · rename_i h; exact h.symm
      · rw [← hfk, ha.index_key hf] at hfree
        exact absurd hfree (by simp)
  · have hk' : (e.key == k) = false := by simpa using hk
    simp only [hk', Bool.false_eq_true, if_false]
    rw [ha.index k id]
    constructor
    · rintro ⟨f, hf, hfk⟩
      refine ⟨f, ?_, hfk⟩
      rw [if_neg (Nat.ne_of_lt (lt_of_edge? hf))]
      exact hf
    · rintro ⟨f, hf, hfk⟩
      split at hf
      · cases hf; exact absurd hfk hk
      · exact ⟨f, hf, hfk⟩

omit h1 h2 hne in
theorem insert_count :
    (g.insertEdge e).overlapCount =
      (g.insertEdge e).edges.countP fun e? => e?.any fun e => !e.isIdentity := by
  rw [insertEdge_overlapCount, insertEdge_edges, Array.countP_push, ← ha.count]
  cases hi : e.isIdentity <;> simp [hi]

theorem insert_isolated (v : Vertex) (hv : (g.insertEdge e).isVertexIsolated v = true) :
    (g.insertEdge e).hasOverlapEdges v = false := by
  refine Bool.eq_false_iff.2 fun hov => ?_
  obtain ⟨j, hj, f, hf, hid⟩ := hasOverlapEdges_iff.1 hov
  obtain ⟨f', hf', ht⟩ := (ha.insert_adjacent h1 h2 hne v j).1 hj
  rw [hf] at hf'
  cases hf'
  rw [edge?_insertEdge] at hf
  split at hf
  · -- the new overlap edge touches `v`, whose flag was cleared
    cases hf
    have hlt := ha.touches_lt h1 h2 ht
    rw [ha.adjacency_size, ← ha.isolated_size] at hlt
    simp only [isVertexIsolated, insertEdge_isolated, hid, Bool.false_eq_true, if_false,
      Array.getD_eq_getD_getElem?, Array.set!_eq_setIfInBounds, Array.getElem?_setIfInBounds,
      Array.size_setIfInBounds] at hv
    rcases ht with rfl | rfl
    · by_cases h12 : e.v2.id = e.v1.id <;> simp [h12, hlt] at hv
    · simp [hlt] at hv
  · -- an older overlap edge at `v`: then the flag was already down
    have hold : g.isVertexIsolated v = true := by
      simp only [isVertexIsolated, insertEdge_isolated, Array.getD_eq_getD_getElem?] at hv ⊢
      split at hv
      · exact hv
      · simp only [Array.set!_eq_setIfInBounds, Array.getElem?_setIfInBounds] at hv
        split_ifs at hv <;> simp_all
    have := ha.isolated v hold
    rw [(ha.hasOverlapEdges_iff' (v := v)).2 ⟨j, f, hf, ht, hid⟩] at this
    exact absurd this (by simp)

omit hne in
/-- Storing an overlap edge between two different known sequences, whose ends no
live edge joins yet, keeps the arena. -/
theorem insertEdge_overlap (hseq : e.v1.sequence ≠ e.v2.sequence)
    (hfree : g.index[e.key]? = none) : (g.insertEdge e).Arena m := by
  have hne' : e.v1 ≠ e.v2 := fun h => hseq (congrArg Vertex.sequence h)
  refine ⟨by simp [insertEdge_adjacency, ha.adjacency_size], ?_, ha.le_size, ?_, ?_, ?_,
    ha.insert_nodup hne', ha.insert_adjacent h1 h2 hne', ha.insert_index hfree, ha.insert_count,
    ha.insert_isolated h1 h2 hne'⟩
  · rw [insertEdge_isolated]
    split <;> simp [ha.isolated_size]
  · simp only [insertEdge_edges, Array.size_push]
    exact Nat.le_succ_of_le ha.le_slots
  · intro s hs
    obtain ⟨f, hf, hf1, hf2⟩ := ha.identity s hs
    refine ⟨f, ?_, hf1, hf2⟩
    rw [edge?_insertEdge, if_neg (Nat.ne_of_lt (Nat.lt_of_lt_of_le hs ha.le_slots)), hf]
  · intro id f hf hm
    rw [edge?_insertEdge] at hf
    split at hf
    · cases hf
      exact ⟨hseq, h1, h2⟩
    · exact ha.overlap id f hf hm

end Arena

end insert

/-- Storing the identity edge of sequence `m` in slot `m` extends the arena by one
identity edge. -/
theorem Arena.insertEdge_identity {m : Nat} (ha : g.Arena m) (hm : m < g.size)
    (hs : g.edges.size = m) (len : Nat) : (g.insertEdge (Edge.identity m len)).Arena (m + 1) := by
  have h1 : (Edge.identity m len).v1.sequence < g.size := hm
  have h2 : (Edge.identity m len).v2.sequence < g.size := hm
  have hne : (Edge.identity m len).v1 ≠ (Edge.identity m len).v2 := by
    simp [Edge.identity, Vertex.startOf, Vertex.endOf]
  have hfree : g.index[(Edge.identity m len).key]? = none := by
    cases hk : g.index[(Edge.identity m len).key]? with
    | none => rfl
    | some id =>
      obtain ⟨f, hf, hfk⟩ := (ha.index _ id).1 hk
      have hid : id < m := hs ▸ lt_of_edge? hf
      obtain ⟨f', hf', h1', h2'⟩ := ha.identity id hid
      rw [hf] at hf'
      cases hf'
      rw [Edge.key_eq_key] at hfk
      simp [Edge.identity, h1', h2', Vertex.startOf, Vertex.endOf] at hfk
      omega
  refine ⟨by simp [insertEdge_adjacency, ha.adjacency_size], ?_, hm, by simp [hs], ?_, ?_,
    ha.insert_nodup hne, ha.insert_adjacent h1 h2 hne, ha.insert_index hfree, ha.insert_count,
    ha.insert_isolated h1 h2 hne⟩
  · rw [insertEdge_isolated]
    split <;> simp [ha.isolated_size]
  · intro s hs'
    rw [edge?_insertEdge]
    by_cases hsm : s = m
    · subst hsm
      exact ⟨_, if_pos hs.symm, rfl, rfl⟩
    · rw [if_neg (by omega)]
      exact ha.identity s (by omega)
  · intro id f hf hm'
    rw [edge?_insertEdge] at hf
    split at hf
    · omega
    · have := lt_of_edge? hf
      omega

/-! ## Edges rewritten in place -/

section ends

variable {g' : AssemblyGraph}
  (he : g'.edges.map (Option.map Edge.ends) = g.edges.map (Option.map Edge.ends))
include he

theorem edge?_map_ends (id : Nat) : (g'.edge? id).map Edge.ends = (g.edge? id).map Edge.ends := by
  have := congrArg (·[id]?) he
  simp only [Array.getElem?_map] at this
  simp only [edge?, ← Option.join_map_eq_map_join, this]

/-- A property of edges that reads only their ends holds of the live edge at an
id in one arena exactly when it holds in the other. -/
theorem exists_edge?_congr {P : Edge → Prop} (hP : ∀ e f : Edge, e.v1 = f.v1 → e.v2 = f.v2 → (P e ↔ P f))
    (id : Nat) : (∃ e, g'.edge? id = some e ∧ P e) ↔ ∃ e, g.edge? id = some e ∧ P e := by
  have h := edge?_map_ends he id
  constructor
  · rintro ⟨f, hf, hp⟩
    rw [hf] at h
    obtain ⟨e, he, hfe⟩ := Option.map_eq_some_iff.1 h.symm
    simp only [Edge.ends, Prod.mk.injEq] at hfe
    exact ⟨e, he, (hP e f hfe.1 hfe.2).2 hp⟩
  · rintro ⟨e, he, hp⟩
    rw [he] at h
    obtain ⟨f, hf, hfe⟩ := Option.map_eq_some_iff.1 h
    simp only [Edge.ends, Prod.mk.injEq] at hfe
    exact ⟨f, hf, (hP f e hfe.1 hfe.2).2 hp⟩

theorem hasOverlapEdges_of_ends (hadj : g'.adjacency = g.adjacency) (v : Vertex) :
    g'.hasOverlapEdges v = g.hasOverlapEdges v := by
  have hadj' : g'.adjacent v = g.adjacent v := by unfold adjacent; rw [hadj]
  rw [Bool.eq_iff_iff, hasOverlapEdges_iff, hasOverlapEdges_iff, hadj']
  refine exists_congr fun j => and_congr_right fun _ => ?_
  exact exists_edge?_congr he (fun e f h1 h2 => by simp [Edge.isIdentity, h1, h2]) j

theorem countP_overlap_of_ends :
    g'.edges.countP (fun e? => e?.any fun e => !e.isIdentity) =
      g.edges.countP (fun e? => e?.any fun e => !e.isIdentity) := by
  -- whether a slot holds an overlap edge reads only the ends of its edge
  have hp : (fun e? : Option Edge => e?.any fun e => !e.isIdentity) =
      (fun o => o.any fun p => p.1.sequence != p.2.sequence) ∘ Option.map Edge.ends := by
    funext e?
    cases e? <;> rfl
  rw [hp, ← Array.countP_map, ← Array.countP_map, he]

/-- The arena reads the edges only through their ends. -/
theorem Arena.of_ends {m : Nat} (ha : g.Arena m) (hl : g'.lengths = g.lengths)
    (hadj : g'.adjacency = g.adjacency) (hix : g'.index = g.index) (his : g'.isolated = g.isolated)
    (hc : g'.overlapCount = g.overlapCount) : g'.Arena m := by
  have hsize : g'.size = g.size := by simp [size, hl]
  have hslots : g'.edges.size = g.edges.size := by simpa using congrArg Array.size he
  have hadj' : g'.adjacent = g.adjacent := by funext v; unfold AssemblyGraph.adjacent; rw [hadj]
  refine ⟨hadj ▸ hsize ▸ ha.adjacency_size, his ▸ hsize ▸ ha.isolated_size, hsize ▸ ha.le_size,
    hslots ▸ ha.le_slots, fun s hs => ?_, fun id f hf hm => ?_, hadj' ▸ ha.nodup,
    fun v id => ?_, fun k id => ?_, ?_, fun v hv => ?_⟩
  · obtain ⟨e, hes, h1, h2⟩ := ha.identity s hs
    exact (exists_edge?_congr he (P := fun e => e.v1 = .startOf s ∧ e.v2 = .endOf s)
      (fun e f h1 h2 => by rw [h1, h2]) s).2 ⟨e, hes, h1, h2⟩
  · obtain ⟨e, hes, h1, h2⟩ := (exists_edge?_congr he (P := fun e => e.v1 = f.v1 ∧ e.v2 = f.v2)
      (fun e f h1 h2 => by rw [h1, h2]) id).1 ⟨f, hf, rfl, rfl⟩
    rw [← h1, ← h2, hsize]
    exact ha.overlap id e hes hm
  · rw [hadj', ha.adjacent v id]
    exact (exists_edge?_congr he (fun e f h1 h2 => by simp [Edge.Touches, h1, h2]) id).symm
  · rw [hix, ha.index k id]
    exact (exists_edge?_congr he (fun e f h1 h2 => by simp [Edge.key, h1, h2]) id).symm
  · rw [hc, ha.count, countP_overlap_of_ends he]
  · rw [hasOverlapEdges_of_ends he hadj]
    exact ha.isolated v (by simpa [isVertexIsolated, his] using hv)

end ends

/-- The arena reads only the lengths, the edges, the lists, the index, the flags
and the overlap count. -/
theorem Arena.of_frame {g' : AssemblyGraph} {m : Nat} (ha : g.Arena m)
    (hl : g'.lengths = g.lengths) (he : g'.edges = g.edges) (hadj : g'.adjacency = g.adjacency)
    (hix : g'.index = g.index) (his : g'.isolated = g.isolated)
    (hc : g'.overlapCount = g.overlapCount) : g'.Arena m :=
  Arena.of_ends (by rw [he]) ha hl hadj hix his hc

/-! ## The arena of a new graph -/

/-- Storing the identity edges of sequences `k, k + 1, …` after the first `k`
ones leaves every identity edge in place. -/
theorem Arena.foldl_identities (l : List Nat) :
    ∀ (k : Nat) (g : AssemblyGraph), g.Arena k → g.edges.size = k → k + l.length = g.size →
      ((l.zipIdx k).foldl (fun g (len, s) => g.insertEdge (Edge.identity s len)) g).Arena g.size := by
  induction l with
  | nil => intro k g ha _ hk; simpa [← hk] using ha
  | cons len l ih =>
    intro k g ha hs hk
    simp only [List.zipIdx_cons, List.foldl_cons]
    have hlt : k < g.size := by simp at hk; omega
    exact ih (k + 1) _ (ha.insertEdge_identity hlt hs len) (by simp [hs])
      (by simp at hk ⊢; omega)

/-- The arena of a new graph holds exactly its identity edges. -/
theorem arena_new (lengths : Array Nat) : (new lengths).Arena lengths.size := by
  refine Arena.foldl_identities lengths.toList 0 _ ?_ rfl (by simp [size])
  -- the graph before any identity edge: empty lists, no flags, an empty index
  refine ⟨by simp [size], by simp [size], Nat.zero_le _, Nat.zero_le _,
    fun _ h => absurd h (Nat.not_lt_zero _), fun _ _ h => by simp [edge?] at h, ?_, ?_,
    fun k id => by simp [edge?], by simp, ?_⟩
  · intro v
    simp only [adjacent, Array.getD_eq_getD_getElem?, Array.getElem?_replicate]
    split <;> simp
  · intro v id
    simp only [adjacent, Array.getD_eq_getD_getElem?, Array.getElem?_replicate, edge?]
    split <;> simp
  · intro v h
    simp only [isVertexIsolated, Array.getD_eq_getD_getElem?, Array.getElem?_replicate] at h
    split at h <;> simp at h

/-- Storing identity edges changes no field that storing an identity edge leaves alone. -/
theorem foldl_identities_frame {α : Type} (F : AssemblyGraph → α)
    (hF : ∀ g s len, F (g.insertEdge (Edge.identity s len)) = F g) (l : List Nat) :
    ∀ (k : Nat) (g : AssemblyGraph),
      F ((l.zipIdx k).foldl (fun g (len, s) => g.insertEdge (Edge.identity s len)) g) = F g := by
  induction l with
  | nil => intro k g; rfl
  | cons len l ih =>
    intro k g
    simp only [List.zipIdx_cons, List.foldl_cons]
    rw [ih (k + 1), hF]

/-- An edge call changes no field that storing and removing edges leave alone. -/
theorem addEdge_frame {α : Type} (F : AssemblyGraph → α) (hins : ∀ g e, F (g.insertEdge e) = F g)
    (hrem : ∀ g id e, g.edge? id = some e → F (g.removeEdge id).2 = F g) (g : AssemblyGraph)
    (e : Edge) : F (g.addRelationship (.edge e)).2 = F g := by
  unfold addRelationship
  dsimp only [Relationship.sequences]
  split
  · rfl
  split
  · -- an edge already joins the two ends: it stays, or gives way to the new one
    next old _ =>
    split_ifs
    · rfl
    · rw [hins]
      cases h : g.edge? old with
      | none => rw [removeEdge_of_none h]
      | some o => exact hrem g old o h
  · exact hins g e

/-! ## Removing an edge keeps the arena -/

/-- Removing any slot at or past the identity edges keeps the arena. -/
theorem Arena.removeEdge {m : Nat} (ha : g.Arena m) (hid : m ≤ id) : (g.removeEdge id).2.Arena m := by
  cases h : g.edge? id with
  | none => rw [removeEdge_of_none h]; exact ha
  | some e =>
    have hne := ha.ends_ne h
    have hedge : ∀ j f, (g.removeEdge id).2.edge? j = some f → j ≠ id ∧ g.edge? j = some f := by
      intro j f hf
      rw [edge?_removeEdge h] at hf
      split at hf
      · cases hf
      · exact ⟨‹_›, hf⟩
    refine ⟨by simp [removeEdge_adjacency h, size, removeEdge_lengths h, ha.adjacency_size],
      by simp [removeEdge_isolated_size h, size, removeEdge_lengths h, ha.isolated_size],
      by simpa [size, removeEdge_lengths h] using ha.le_size,
      by simpa [removeEdge_edges h] using ha.le_slots, ?_, ?_, ?_, ?_, ?_, ?_, ?_⟩
    · intro s hs
      rw [edge?_removeEdge h, if_neg (by omega)]
      exact ha.identity s hs
    · intro j f hf hm
      obtain ⟨-, hf⟩ := hedge j f hf
      simpa [size, removeEdge_lengths h] using ha.overlap j f hf hm
    · intro v
      rw [adjacent_removeEdge h]
      split
      · rw [Array.toList_filter]
        exact (ha.nodup v).filter _
      · exact ha.nodup v
    · intro v j
      rw [adjacent_removeEdge h, edge?_removeEdge h]
      split
      · rw [Array.mem_filter, ha.adjacent v j]
        by_cases hj : j = id <;> simp [hj]
      · rename_i ht
        rw [ha.adjacent v j]
        by_cases hj : j = id
        · subst hj
          simp only [if_true, reduceCtorEq, false_and, exists_false, iff_false]
          rintro ⟨f, hf, hft⟩
          rw [h] at hf
          cases hf
          exact ht hft
        · simp [hj]
    · intro k j
      rw [removeEdge_index h, Std.HashMap.getElem?_erase, edge?_removeEdge h]
      by_cases hk : e.key = k
      · subst hk
        simp only [beq_self_eq_true, if_true, reduceCtorEq, false_iff]
        rintro ⟨f, hf, hfk⟩
        split at hf
        · cases hf
        · exact ‹j ≠ id› (ha.eq_of_key_eq hf h hfk)
      · have hk' : (e.key == k) = false := by simpa using hk
        simp only [hk', Bool.false_eq_true, if_false]
        rw [ha.index k j]
        by_cases hj : j = id
        · subst hj
          simp only [h, Option.some.injEq, exists_eq_left', if_true, reduceCtorEq, false_and,
            exists_false, iff_false]
          exact hk
        · simp [hj]
    · rw [removeEdge_overlapCount h, removeEdge_edges h, Array.set!_eq_setIfInBounds,
        Array.setIfInBounds_def, dif_pos (lt_of_edge? h), Array.countP_set, ha.count]
      have hlt := lt_of_edge? h
      have hget : g.edges[id] = some e := by
        have := h
        simp only [edge?, Array.getElem?_eq_getElem hlt, Option.join_some] at this
        exact this
      rw [hget]
      cases hi : e.isIdentity <;> simp [hi]
    · intro u hu
      rcases removeEdge_flag h hu with hold | hnew
      · have hold' := ha.isolated u hold
        refine Bool.eq_false_iff.2 fun hc => ?_
        have hsub : ∀ j ∈ (g.removeEdge id).2.adjacent u, j ∈ g.adjacent u := by
          intro j hj
          rw [adjacent_removeEdge h] at hj
          split at hj
          · exact (Array.mem_filter.1 hj).1
          · exact hj
        rw [hasOverlapEdges_mono hsub (fun j f hf => (hedge j f hf).2) hc] at hold'
        exact absurd hold' (by simp)
      · exact hnew

end AssemblyGraph

end OverlapLayout
