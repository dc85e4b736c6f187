import Mathlib
import OverlapLayout.Proofs.Paths.Cover
/-!
  Paths with the paths hanging off them, and walks joined end to end.

  * `Path.nodes`: a path and, in preorder, every path reachable from it
    through alternatives; `treeSequences` the sequences of all of them.
  * `Path.Simple`: a walk that enters no sequence twice.
  * `Spells.append`, `Spells.flip`: two spelt runs joined by an overlap edge,
    and a spelt run read backwards; hence `Path.Walks.reverse` and
    `Path.Walks.connectPath`, and the same for `Simple` paths whose
    sequences are apart.
-/

namespace OverlapLayout

/-- A path and, in preorder, every path reachable from it through alternatives. -/
def Path.nodes (p : Path) : List Path :=
  p :: p.alternatives.toList.flatMap fun q => q.nodes
termination_by p
decreasing_by
  have := Array.sizeOf_lt_of_mem (Array.mem_toList_iff.1 ‹q ∈ p.alternatives.toList›)
  cases p
  simp_all
  omega

/-- The sequences of some paths and of all paths hanging off them. -/
def treeSequences (g : AssemblyGraph) (ps : List Path) : List Nat :=
  (ps.flatMap Path.nodes).flatMap (·.sequenceIds g)

/-- A walk through the graph that enters no sequence twice. -/
def Path.Simple (p : Path) (g : AssemblyGraph) : Prop :=
  ∃ us, p.Walks g us ∧ (us.map Vertex.sequence).Nodup

/-- The paths `ps`, with all paths hanging off them, are simple walks and spell
the sequences `S`, each as often as `S` holds it. -/
structure Conserves (g : AssemblyGraph) (S : List Nat) (ps : List Path) : Prop where
  perm : (treeSequences g ps).Perm S
  simple : ∀ p ∈ ps, ∀ q ∈ p.nodes, q.Simple g

namespace Path

theorem nodes_eq (p : Path) : p.nodes = p :: p.alternatives.toList.flatMap Path.nodes := by
  rw [Path.nodes.eq_1]

theorem mem_nodes_self (p : Path) : p ∈ p.nodes := by
  rw [nodes_eq]
  exact List.mem_cons_self

theorem mem_nodes_of_mem_alternatives {p q : Path} (h : q ∈ p.alternatives.toList.flatMap Path.nodes) :
    q ∈ p.nodes := by
  rw [nodes_eq]
  exact List.mem_cons_of_mem _ h

theorem nodes_addAlternative (p q : Path) :
    (p.addAlternative q).nodes = p.addAlternative q :: (p.alternatives.toList.flatMap Path.nodes ++ q.nodes) := by
  rw [nodes_eq]
  simp [addAlternative]

theorem nodes_reverse (p : Path) : p.reverse.nodes = p.reverse :: p.alternatives.toList.flatMap Path.nodes := by
  rw [nodes_eq]
  rfl

end Path

namespace treeSequences

variable {g : AssemblyGraph}

@[simp] theorem nil : treeSequences g [] = [] := rfl

theorem cons (p : Path) (ps : List Path) :
    treeSequences g (p :: ps) = treeSequences g [p] ++ treeSequences g ps := by
  simp [treeSequences]

theorem append (ps qs : List Path) :
    treeSequences g (ps ++ qs) = treeSequences g ps ++ treeSequences g qs := by
  simp [treeSequences]

theorem singleton (p : Path) :
    treeSequences g [p] = p.sequenceIds g ++ treeSequences g p.alternatives.toList := by
  rw [treeSequences, List.flatMap_singleton, Path.nodes_eq]
  simp [treeSequences]

theorem perm {ps qs : List Path} (h : ps.Perm qs) : (treeSequences g ps).Perm (treeSequences g qs) :=
  (h.flatMap_right _).flatMap_right _

end treeSequences

theorem Conserves.of_perm {g : AssemblyGraph} {S : List Nat} {ps qs : List Path} (h : Conserves g S ps)
    (hpq : ps.Perm qs) : Conserves g S qs :=
  ⟨(treeSequences.perm hpq.symm).trans h.perm, fun p hp => h.simple p (hpq.symm.subset hp)⟩

theorem treeSequences_renumber {g : AssemblyGraph} (p : Path) (n : Nat) :
    treeSequences g [{ p with id := n }] = treeSequences g [p] := by
  rw [treeSequences.singleton, treeSequences.singleton]
  rfl

theorem treeSequences_forall₂_renumber {g : AssemblyGraph} {ps qs : List Path}
    (hf : List.Forall₂ (fun p q => q = { p with id := q.id }) ps qs) : treeSequences g qs = treeSequences g ps := by
  induction hf with
  | nil => rfl
  | @cons p q ps qs hq _ ih => rw [treeSequences.cons, treeSequences.cons p, ih, hq, treeSequences_renumber]

theorem simple_forall₂_renumber {g : AssemblyGraph} {ps qs : List Path}
    (hs : ∀ p ∈ ps, ∀ q ∈ p.nodes, q.Simple g) (hf : List.Forall₂ (fun p q => q = { p with id := q.id }) ps qs) :
    ∀ q ∈ qs, ∀ r ∈ q.nodes, r.Simple g := by
  intro q hq r hr
  obtain ⟨p, hp, hpq⟩ := AssemblyGraph.exists_of_forall₂_right hf hq
  rw [hpq, Path.nodes_eq] at hr
  rcases List.mem_cons.1 hr with rfl | hr
  · exact hs p hp p (Path.mem_nodes_self p)
  · exact hs p hp r (Path.mem_nodes_of_mem_alternatives hr)

/-- Renumbered paths spell what they spelt: no walk reads a path's number. -/
theorem Conserves.renumber {g : AssemblyGraph} {S : List Nat} {ps qs : List Path} (h : Conserves g S ps)
    (hf : List.Forall₂ (fun p q => q = { p with id := q.id }) ps qs) : Conserves g S qs :=
  ⟨(treeSequences_forall₂_renumber hf).symm ▸ h.perm, simple_forall₂_renumber h.simple hf⟩

namespace AssemblyGraph

variable {g : AssemblyGraph}

/-! ## Spelt runs joined and read backwards -/

theorem IdentityAt.opposite {i : Nat} {u : Vertex} (h : g.IdentityAt i u) : g.IdentityAt i u.opposite := by
  obtain ⟨e, he, hid, hx⟩ := h
  have hne : e.v1 ≠ e.v2 := by
    rcases Edge.across_eq_some.1 hx with ⟨h1, h2⟩ | ⟨-, h2, h1⟩
    · rw [h1, h2]; exact (Vertex.opposite_ne u).symm
    · rw [h1, h2]; exact Vertex.opposite_ne u
  refine ⟨e, he, hid, ?_⟩
  rw [Vertex.opposite_opposite]
  exact Edge.across_across hne hx

theorem OverlapAt.symm {j : Nat} {x w : Vertex} (h : g.OverlapAt j x w) : g.OverlapAt j w x := by
  obtain ⟨e, he, hid, hx⟩ := h
  have hne : e.v1 ≠ e.v2 := by
    simp only [Edge.isIdentity, beq_eq_false_iff_ne] at hid
    exact fun h => hid (congrArg Vertex.sequence h)
  exact ⟨e, he, hid, Edge.across_across hne hx⟩

namespace Spells

/-- Two spelt runs joined by an overlap edge from the last exit of the first to
the first entry of the second. -/
theorem append {us vs : List Vertex} {ids ids' : List Nat} (h : g.Spells us ids) (h' : g.Spells vs ids')
    {u w : Vertex} {j : Nat} (hu : us.getLast? = some u) (hw : vs.head? = some w)
    (hj : g.OverlapAt j u.opposite w) : g.Spells (us ++ vs) (ids ++ j :: ids') := by
  induction h with
  | @one u' i hi =>
    simp only [List.getLast?_singleton, Option.some.injEq] at hu
    subst hu
    obtain ⟨vs', rfl⟩ := List.head?_eq_some_iff.1 hw
    exact .cons hi hj h'
  | @cons u' w' us' i j' ids'' hi hj' _ ih =>
    have hu' : (w' :: us').getLast? = some u := by
      simpa [List.getLast?_cons_cons] using hu
    exact .cons hi hj' (ih hu')

/-- A spelt run read backwards, each sequence entered at its other end. -/
theorem flip {us : List Vertex} {ids : List Nat} (h : g.Spells us ids) : g.Spells (flipRun us) ids.reverse := by
  induction h with
  | one hi => exact .one hi.opposite
  | @cons u w us i j ids hi hj _ ih =>
    have hlast : (flipRun (w :: us)).getLast? = some w.opposite := by simp
    have := ih.snoc hlast (by rw [Vertex.opposite_opposite]; exact hj.symm) hi.opposite
    simpa [flipRun] using this

end Spells

end AssemblyGraph

namespace Path

open AssemblyGraph

variable {g : AssemblyGraph}

theorem Walks.reverse {p : Path} {us : List Vertex} (h : p.Walks g us) : p.reverse.Walks g (flipRun us) := by
  obtain ⟨hs, hl, hr⟩ := h
  refine ⟨by simpa [Path.reverse] using hs.flip, ?_, ?_⟩
  · simp [Path.reverse, hr]
  · simp only [getLast?_flipRun, Option.map_map]
    simp [Path.reverse, hl]

theorem Simple.reverse {p : Path} (h : p.Simple g) : p.reverse.Simple g := by
  obtain ⟨us, hw, hn⟩ := h
  refine ⟨flipRun us, hw.reverse, ?_⟩
  rw [map_sequence_flipRun]
  exact List.nodup_reverse.2 hn

theorem sequenceIds_reverse {p : Path} {us : List Vertex} (h : p.Walks g us) :
    p.reverse.sequenceIds g = (p.sequenceIds g).reverse := by
  rw [h.reverse.sequenceIds, h.sequenceIds, map_sequence_flipRun]

theorem connectPath_true (p other : Path) :
    p.connectPath g other true = p.connectPath g other.reverse false := rfl

/-- Joining a path to another through the overlap edge between their facing ends
walks the first path's run and then the other's. -/
theorem Walks.connectPath (hi : g.Inv) {p other q : Path} {us vs : List Vertex} (hp : p.Walks g us)
    (ho : other.Walks g vs) (h : p.connectPath g other false = some q) :
    q.Walks g (us ++ vs) ∧ q.alternatives = p.alternatives ++ other.alternatives := by
  unfold Path.connectPath at h
  simp only [Bool.false_eq_true, ↓reduceIte] at h
  split at h
  · cases h
  next j hj =>
    split at h
    next e he =>
      split at h
      · cases h
      next hid =>
        cases h
        obtain ⟨hs, hl, hr⟩ := hp
        obtain ⟨hs', hl', hr'⟩ := ho
        obtain ⟨u, hu, hright⟩ := Option.map_eq_some_iff.1 hr
        replace hright := hright.symm
        -- the joining edge leads from the last exit to the other's first entry
        have hov : g.OverlapAt j u.opposite other.left := by
          obtain ⟨e', he', hends⟩ := (hi.arena.findEdge?_eq_some_iff _ _ _).1 hj
          rw [he, Option.some.injEq] at he'
          subst he'
          refine ⟨e, he, by simpa using hid, ?_⟩
          rw [← hright]
          rcases hends with ⟨h1, h2⟩ | ⟨h1, h2⟩
          · rw [← h1, ← h2]; simp [Edge.across]
          · rw [← h1, ← h2]
            have hne := hi.arena.ends_ne he
            simp [Edge.across, hne]
        refine ⟨⟨?_, ?_, ?_⟩, rfl⟩
        · simpa using hs.append hs' hu hl' hov
        · simp [List.head?_append, hl]
        · rw [List.getLast?_append_of_ne_nil _ hs'.ne_nil]
          exact hr'
    · cases h

theorem sequenceIds_connectPath (hi : g.Inv) {p other q : Path} {us vs : List Vertex} (hp : p.Walks g us)
    (ho : other.Walks g vs) (h : p.connectPath g other false = some q) :
    q.sequenceIds g = p.sequenceIds g ++ other.sequenceIds g := by
  rw [(hp.connectPath hi ho h).1.sequenceIds, hp.sequenceIds, ho.sequenceIds, List.map_append]

/-- Joining two simple paths whose sequences are apart gives a simple path. -/
theorem Simple.connectPath (hi : g.Inv) {p other q : Path} (hp : p.Simple g) (ho : other.Simple g)
    (hd : (p.sequenceIds g ++ other.sequenceIds g).Nodup) (h : p.connectPath g other false = some q) :
    q.Simple g := by
  obtain ⟨us, hw, -⟩ := hp
  obtain ⟨vs, hw', -⟩ := ho
  refine ⟨us ++ vs, (hw.connectPath hi hw' h).1, ?_⟩
  rw [List.map_append, ← hw.sequenceIds, ← hw'.sequenceIds]
  exact hd

end Path

end OverlapLayout
