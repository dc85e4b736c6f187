import Mathlib
import OverlapLayout.Proofs.Graph.Invariant
/-!
  Paths that spell a run of sequences.

  * `AssemblyGraph.Spells g us ids`: the edge ids cross the sequences entered
    at the vertices `us`, in order: a live identity edge through each, from
    its entry to the opposite end, and a live overlap edge from each exit to
    the next entry.
  * `Path.Walks p g us`: the path's edges spell `us`, from the first entry to
    the last exit.
  * `Path.Walks.vertices`, `Path.Walks.sequenceIds`, `Path.Walks.length`:
    such a path passes the entries and exits in turn, names each sequence
    once, and has one edge fewer than twice its sequences.
-/

namespace OverlapLayout

namespace AssemblyGraph

/-- The live identity edge `i` crosses the sequence of `u` from `u` to its other end. -/
def IdentityAt (g : AssemblyGraph) (i : Nat) (u : Vertex) : Prop :=
  ∃ e, g.edge? i = some e ∧ e.isIdentity = true ∧ e.across u = some u.opposite

/-- The live overlap edge `j` leads from `x` to `w`. -/
def OverlapAt (g : AssemblyGraph) (j : Nat) (x w : Vertex) : Prop :=
  ∃ e, g.edge? j = some e ∧ e.isIdentity = false ∧ e.across x = some w

/-- The edge ids cross the sequences entered at `us`, in order. -/
inductive Spells (g : AssemblyGraph) : List Vertex → List Nat → Prop
  | one {u : Vertex} {i : Nat} : g.IdentityAt i u → Spells g [u] [i]
  | cons {u w : Vertex} {us : List Vertex} {i j : Nat} {ids : List Nat} :
      g.IdentityAt i u → g.OverlapAt j u.opposite w → Spells g (w :: us) ids →
      Spells g (u :: w :: us) (i :: j :: ids)

variable {g : AssemblyGraph}

/-- An overlap edge joins two different sequences. -/
theorem OverlapAt.sequence_ne {j : Nat} {x w : Vertex} (h : g.OverlapAt j x w) :
    x.sequence ≠ w.sequence := by
  obtain ⟨e, -, hid, hx⟩ := h
  simp only [Edge.isIdentity, beq_eq_false_iff_ne] at hid
  rcases Edge.across_eq_some.1 hx with ⟨rfl, rfl⟩ | ⟨-, rfl, rfl⟩
  · exact hid
  · exact Ne.symm hid

namespace Inv

variable (hi : g.Inv)
include hi

theorem identityEdge? {s : Nat} (hs : s < g.size) : g.identityEdge? s = some s := by
  obtain ⟨e, he, -⟩ := hi.arena.identity s hs
  simp [AssemblyGraph.identityEdge?, he]

/-- Every known sequence is crossed by its identity edge, at its own id, from either end. -/
theorem identityAt {w : Vertex} (hw : w.sequence < g.size) : g.IdentityAt w.sequence w := by
  obtain ⟨e, he, h1, h2⟩ := hi.arena.identity w.sequence hw
  refine ⟨e, he, by simp [Edge.isIdentity, h1, h2], ?_⟩
  rcases Vertex.eq_startOf_or_endOf w with hw' | hw' <;> rw [hw'] <;>
    simp [Edge.across, h1, h2, Vertex.startOf, Vertex.endOf, Vertex.opposite]

end Inv

namespace Spells

theorem ne_nil {us : List Vertex} {ids : List Nat} (h : Spells g us ids) : us ≠ [] := by
  cases h <;> simp

theorem length_eq {us : List Vertex} {ids : List Nat} (h : Spells g us ids) :
    ids.length = 2 * us.length - 1 := by
  induction h with
  | one _ => rfl
  | cons _ _ _ ih => simp only [List.length_cons] at ih ⊢; omega

/-- Consecutive sequences of a spelt run differ. -/
theorem isChain_sequence {us : List Vertex} {ids : List Nat} (h : Spells g us ids) :
    us.IsChain fun u w => u.sequence ≠ w.sequence := by
  induction h with
  | one _ => exact List.isChain_singleton _
  | cons _ hj _ ih =>
    refine List.IsChain.cons_cons ?_ ih
    simpa using hj.sequence_ne

/-- A spelt run extends by an overlap edge from its last exit and an identity
edge through the sequence reached. -/
theorem snoc {us : List Vertex} {ids : List Nat} (h : Spells g us ids) {u w : Vertex} {i j : Nat}
    (hu : us.getLast? = some u) (hj : g.OverlapAt j u.opposite w) (hi : g.IdentityAt i w) :
    Spells g (us ++ [w]) (ids ++ [j, i]) := by
  induction h with
  | one hi' =>
    simp only [List.getLast?_singleton, Option.some.injEq] at hu
    subst hu
    exact .cons hi' hj (.one hi)
  | @cons u' w' us' i' j' ids' hi' hj' _ ih =>
    have hu' : (w' :: us').getLast? = some u := by
      simpa [List.getLast?_cons_cons] using hu
    exact .cons hi' hj' (ih hu')

end Spells

end AssemblyGraph

namespace Path

open AssemblyGraph

variable {g : AssemblyGraph}

/-- The path's edges spell the sequences entered at `us`, from the first entry to the last exit. -/
def Walks (p : Path) (g : AssemblyGraph) (us : List Vertex) : Prop :=
  g.Spells us p.edges.toList ∧ us.head? = some p.left ∧ us.getLast?.map Vertex.opposite = some p.right

/-- The vertices passed: each entry, then its exit. -/
def passes (us : List Vertex) : List Vertex := us.flatMap fun u => [u, u.opposite]

theorem length_passes (us : List Vertex) : (passes us).length = 2 * us.length := by
  induction us with
  | nil => rfl
  | cons u us ih => simp only [passes, List.flatMap_cons] at ih ⊢; simp [ih]; omega

theorem vertices_go {us : List Vertex} {ids : List Nat} (h : g.Spells us ids) :
    ∀ (u : Vertex) (acc : List Vertex), us.head? = some u →
      vertices.go g ids u (u :: acc) = acc.reverse ++ passes us := by
  induction h with
  | one hi =>
    intro u acc hu
    simp only [List.head?_cons, Option.some.injEq] at hu
    subst hu
    obtain ⟨e, he, -, hx⟩ := hi
    simp [vertices.go, he, hx, passes]
  | @cons u' w us i j ids hi hj _ ih =>
    intro u acc hu
    simp only [List.head?_cons, Option.some.injEq] at hu
    subst hu
    obtain ⟨e, he, -, hx⟩ := hi
    obtain ⟨f, hf, -, hy⟩ := hj
    simp only [vertices.go, he, Option.bind_some, hx, hf, hy]
    rw [ih w (u'.opposite :: u' :: acc) rfl]
    simp [passes]

/-- Dropping repeats of a sequence from a run whose consecutive sequences differ. -/
theorem foldl_sequences (F : List Nat → Vertex → List Nat)
    (hF : ∀ acc v, F acc v = if acc.head? = some v.sequence then acc else v.sequence :: acc)
    (us : List Vertex) (hc : us.IsChain fun u w => u.sequence ≠ w.sequence) :
    ∀ (acc : List Nat), (∀ u ∈ us.head?, acc.head? ≠ some u.sequence) →
      (passes us).foldl F acc = (us.map Vertex.sequence).reverse ++ acc := by
  induction us with
  | nil => intro acc _; rfl
  | cons u us ih =>
    intro acc hacc
    have hrest : ∀ w ∈ us.head?, (u.sequence :: acc).head? ≠ some w.sequence := by
      intro w hw
      have := (List.isChain_cons.1 hc).1 w hw
      simpa [eq_comm] using this
    -- the entry adds its sequence, the exit repeats it
    have hstep : F (F acc u) u.opposite = u.sequence :: acc := by
      rw [hF acc u, if_neg (hacc u rfl), hF]
      simp
    simp only [passes, List.flatMap_cons, List.cons_append, List.nil_append, List.foldl_cons] at ih ⊢
    rw [hstep, ih (List.isChain_cons.1 hc).2 _ hrest]
    simp

namespace Walks

variable {p : Path} {us : List Vertex} (hw : p.Walks g us)
include hw

theorem vertices : p.vertices g = passes us := by
  obtain ⟨hs, hl, -⟩ := hw
  unfold Path.vertices
  simpa using vertices_go hs p.left [] hl

theorem sequenceIds : p.sequenceIds g = us.map Vertex.sequence := by
  unfold Path.sequenceIds
  rw [hw.vertices, foldl_sequences _ (fun acc v => by cases acc <;> simp) us
    hw.1.isChain_sequence [] (by simp)]
  simp

theorem length : p.length = 2 * us.length - 1 := by
  unfold Path.length
  rw [← Array.length_toList, hw.1.length_eq]

theorem length_vertices : (p.vertices g).length = p.length + 1 := by
  have hne := hw.1.ne_nil
  have hpos : 0 < us.length := List.length_pos_iff.2 hne
  rw [hw.vertices, hw.length, length_passes]
  omega

end Walks

end Path

end OverlapLayout
