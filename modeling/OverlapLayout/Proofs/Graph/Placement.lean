import Mathlib
import OverlapLayout.Proofs.Graph.History
/-!
  No two records of a sequence share a placement.

  Adding a containment is refused when its sequence already has a record of that placement, and
  every other operation keeps, drops or rescores records, so in every reachable graph the records
  of one sequence have pairwise different placements. Dropping a placement, as the filter does,
  therefore drops one record of the sequence.

  * `PlacementsUnique`: records of one sequence that share a placement are equal.
  * `shrinks_addPath`, `shrinks_findPaths`: laying out paths keeps every edge and record.
  * `PlacementsUnique.addRelationship`, `PlacementsUnique.rescore`: the two operations that
    write records keep it; the others only remove.
  * `Reachable.placementsUnique`: every reachable graph has it.
-/

namespace OverlapLayout

theorem Containment.samePlacement_comm (a b : Containment) :
    a.samePlacement b = b.samePlacement a := by
  rw [Bool.eq_iff_iff, Containment.samePlacement_iff, Containment.samePlacement_iff, eq_comm]

namespace AssemblyGraph

variable {g g' : AssemblyGraph}

/-- Records of one sequence that share a placement are equal. -/
def PlacementsUnique (g : AssemblyGraph) : Prop :=
  ∀ s x y, x ∈ g.containmentsOf s → y ∈ g.containmentsOf s → x.samePlacement y = true → x = y

theorem PlacementsUnique.shrink (hu : g.PlacementsUnique) (h : g'.Shrinks g) :
    g'.PlacementsUnique :=
  fun s x y hx hy hxy => hu s x y (h.record s x hx) (h.record s y hy) hxy

theorem placementsUnique_new (lengths : Array Nat) : (new lengths).PlacementsUnique := by
  intro s x y hx
  simp [containmentsOf_new] at hx

theorem shrinks_addPath (g : AssemblyGraph) (p : Path) : (g.addPath p).Shrinks g :=
  ⟨rfl, fun _ _ h => h, fun _ _ h => h⟩

theorem shrinks_findPaths {t : LayoutThresholds} {r : Option NStats × AssemblyGraph}
    (h : t.findPaths g = .ok r) : r.2.Shrinks g := by
  obtain ⟨paths, hr⟩ := findPaths_graph h
  rw [hr]
  refine shrinks_foldl _ (fun g p => ?_) paths g
  split
  · exact .refl g
  · exact shrinks_addPath g p

/-- Adding a relationship keeps the placements apart: a containment is recorded only when its
sequence has no record of its placement. -/
theorem PlacementsUnique.addRelationship (hu : g.PlacementsUnique) (r : Relationship) :
    (g.addRelationship r).2.PlacementsUnique := by
  cases r with
  | edge e =>
    intro s x y
    simp only [containmentsOf, bySequence_addEdge]
    exact hu s x y
  | contained c =>
    dsimp only [AssemblyGraph.addRelationship, Relationship.sequences]
    by_cases hok : (!g.contains c.sequence || !g.contains c.host || c.sequence == c.host) = true
    · simp only [hok, ↓reduceIte]; exact hu
    simp only [hok, Bool.false_eq_true, ↓reduceIte]
    by_cases hany : ((g.containmentsOf c.sequence).any fun x => x.samePlacement c) = true
    · simp only [hany, ↓reduceIte]; exact hu
    simp only [hany, Bool.false_eq_true, ↓reduceIte]
    -- the new record shares its placement with no record already listed under its sequence
    have hfree : ∀ y ∈ g.containmentsOf c.sequence, c.samePlacement y = false := fun y hy => by
      rw [Containment.samePlacement_comm]
      exact Bool.eq_false_iff.2 fun hyc => hany (Array.any_eq_true'.2 ⟨y, hy, hyc⟩)
    intro s x y hx hy hxy
    simp only [containmentsOf, Mirror.getD_alter_push] at hx hy
    split at hx
    · next hcs =>
      subst hcs
      rw [if_pos rfl] at hy
      rcases Array.mem_push.1 hx with hx | rfl <;> rcases Array.mem_push.1 hy with hy | rfl
      · exact hu _ x y hx hy hxy
      · rw [Containment.samePlacement_comm, hfree x hx] at hxy; cases hxy
      · rw [hfree y hy] at hxy; cases hxy
      · rfl
    · next hcs =>
      rw [if_neg hcs] at hy
      exact hu s x y hx hy hxy

/-- Rescoring keeps the placements apart: it rewrites each record by one function that keeps its
placement. -/
theorem PlacementsUnique.rescore (hu : g.PlacementsUnique) {dist : Distributions} {m : ScoreModel}
    (h : g.rescore dist m = .ok g') : g'.PlacementsUnique := by
  unfold AssemblyGraph.rescore at h
  obtain ⟨es, -, h⟩ := bind_ok h
  obtain ⟨bs, hbs, h⟩ := bind_ok h
  obtain ⟨bh, -, h⟩ := bind_ok h
  cases h
  intro s x' y' hx' hy' hxy
  have hs := (Mirror.getD_foldlM_mapM hbs s).1
  obtain ⟨x, hx, hfx⟩ := mapM_ok_mem hs (Array.mem_toList_iff.2 hx')
  obtain ⟨y, hy, hfy⟩ := mapM_ok_mem hs (Array.mem_toList_iff.2 hy')
  -- the rescored records share the placements of the records they came from
  obtain ⟨cx, rfl⟩ := m.rescoreContainment_ok hfx
  obtain ⟨cy, rfl⟩ := m.rescoreContainment_ok hfy
  have hxy' : x.samePlacement y = true := by simpa [Containment.samePlacement] using hxy
  obtain rfl := hu s x y (Array.mem_toList_iff.1 hx) (Array.mem_toList_iff.1 hy) hxy'
  rw [hfx] at hfy
  exact Except.ok.inj hfy

theorem GraphStep.placementsUnique {g g' : AssemblyGraph} (h : GraphStep g g')
    (hu : g.PlacementsUnique) : g'.PlacementsUnique := by
  cases h with
  | addRelationship r => exact hu.addRelationship r
  | removeRelationship r => exact hu.shrink (shrinks_removeRelationship g r)
  | filterAround s ratio => exact hu.shrink (shrinks_filterAround g s ratio)
  | pruneContained => exact hu.shrink (shrinks_pruneContained g)
  | detectChimeric depth r h => exact hu.shrink (shrinks_detectChimeric h)
  | markChimeric s => exact hu.shrink (shrinks_markChimeric g s)
  | rescore dist m g' h => exact hu.rescore h
  | addPath p => exact hu.shrink (shrinks_addPath g p)
  | findPaths t r h => exact hu.shrink (shrinks_findPaths h)
  | setExpectedLength n => exact hu.shrink ⟨rfl, fun _ _ h => h, fun _ _ h => h⟩
  | setPloidy p => exact hu.shrink ⟨rfl, fun _ _ h => h, fun _ _ h => h⟩

/-- In every reachable graph, records of one sequence that share a placement are equal. -/
theorem Reachable.placementsUnique {g : AssemblyGraph} (h : g.Reachable) : g.PlacementsUnique := by
  obtain ⟨lengths, h⟩ := h
  induction h with
  | refl => exact placementsUnique_new lengths
  | tail _ step ih => exact step.placementsUnique ih

end AssemblyGraph

end OverlapLayout
