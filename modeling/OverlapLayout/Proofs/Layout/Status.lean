import Mathlib
import OverlapLayout.Proofs.Graph.Invariant
/-!
  What `status` reports after the layout.

  `addPath` assigns to a stored path the sequences of its own walk and of its
  direct alternatives (`Path.assigned`), over any earlier assignment; the
  alternatives of those alternatives are not read. `status_of_findPaths` gives
  the status of every sequence after `findPaths` on a reachable graph with no
  stored paths: a sequence in a host is reported so; any other is reported in
  the last stored path that assigns it, and alone when no stored path does.
  A sequence spelt only by an alternative of an alternative is reported alone.
-/

namespace OverlapLayout

/-- The sequences `addPath` assigns to a stored path: those of its walk and of
its direct alternatives. -/
def Path.assigned (p : Path) (g : AssemblyGraph) : List Nat :=
  p.sequenceIds g ++ p.alternatives.toList.flatMap (·.sequenceIds g)

namespace Path

variable {g g' : AssemblyGraph}

/-- The walk of a path reads only the edges of the graph. -/
theorem vertices_go_congr (h : g'.edges = g.edges) :
    ∀ (ids : List Nat) (v : Vertex) (acc : List Vertex), vertices.go g' ids v acc = vertices.go g ids v acc := by
  intro ids
  induction ids with
  | nil => intro v acc; rfl
  | cons id rest ih =>
    intro v acc
    have he : g'.edge? id = g.edge? id := by simp [AssemblyGraph.edge?, h]
    simp only [vertices.go, he, ih]

theorem assigned_congr (h : g'.edges = g.edges) (p : Path) : p.assigned g' = p.assigned g := by
  have hseq : ∀ q : Path, q.sequenceIds g' = q.sequenceIds g := by
    intro q
    unfold sequenceIds vertices
    rw [vertices_go_congr h]
  simp only [assigned, hseq]

end Path

namespace AssemblyGraph

/-- The assignment left by storing paths, one after another, into `g0` with none:
each sequence names the last stored path that assigns it, if any. -/
structure Assigns (g0 g : AssemblyGraph) : Prop where
  edges : g.edges = g0.edges
  bySequence : g.bySequence = g0.bySequence
  size : g.pathOf.size = g0.size
  last : ∀ s < g0.size, ∀ i, (g.pathOf[s]?).join = some i ↔
    ∃ p, g.paths[i]? = some p ∧ s ∈ p.assigned g0 ∧
      ∀ j q, i < j → g.paths[j]? = some q → s ∉ q.assigned g0
  none : ∀ s < g0.size, (g.pathOf[s]?).join = none ↔ ∀ p ∈ g.paths, s ∉ p.assigned g0

variable {g0 g : AssemblyGraph}

theorem assigns_init (hi : g0.Inv) (hp : g0.paths = #[]) : Assigns g0 g0 := by
  -- with no stored path, no slot names one
  have hjoin : ∀ s : Nat, (g0.pathOf[s]?).join = none := by
    intro s
    cases hs : g0.pathOf[s]? with
    | none => rfl
    | some o =>
      cases o with
      | none => rfl
      | some i =>
        have := hi.pathOf_lt s i hs
        simp [hp] at this
  refine ⟨rfl, rfl, hi.pathOf_size, fun s _ i => ?_, fun s _ => ?_⟩
  · simp [hjoin, hp]
  · simp [hjoin, hp]

theorem lt_of_getElem?_eq_some {ps : Array Path} {j : Nat} {q : Path} (h : ps[j]? = some q) :
    j < ps.size :=
  (Array.getElem?_eq_some_iff.1 h).1

/-- Storing one more path: the sequences it assigns now name it, the others keep
their path. -/
theorem Assigns.addPath (ha : Assigns g0 g) (p : Path) : Assigns g0 (g.addPath p) := by
  have hp : p.assigned g = p.assigned g0 := Path.assigned_congr ha.edges p
  have hseqs : ({ p with id := g.paths.size + 1 } : Path).sequenceIds g ++
      ({ p with id := g.paths.size + 1 } : Path).alternatives.toList.flatMap (·.sequenceIds g) =
        p.assigned g0 := by
    rw [← hp]; rfl
  have hpathOf : ∀ s : Nat, (g.addPath p).pathOf[s]? =
      if s ∈ p.assigned g0 ∧ s < g.pathOf.size then some (some g.paths.size) else g.pathOf[s]? := by
    intro s
    unfold AssemblyGraph.addPath
    dsimp only
    rw [getElem?_foldl_assign, hseqs]
  have hpaths : (g.addPath p).paths = g.paths.push { p with id := g.paths.size + 1 } := rfl
  -- the stored copy carries a new id, which the assignment does not read
  have hq : ({ p with id := g.paths.size + 1 } : Path).assigned g0 = p.assigned g0 := rfl
  refine ⟨ha.edges, ha.bySequence, ?_, fun s hs i => ?_, fun s hs => ?_⟩
  · simp only [AssemblyGraph.addPath, size_foldl_assign, ha.size]
  · have hs' : s < g.pathOf.size := ha.size ▸ hs
    simp only [hpathOf, hpaths, Array.getElem?_push, hs', and_true]
    by_cases hsp : s ∈ p.assigned g0
    · -- the new path is the last to assign `s`
      rw [if_pos hsp, Option.join_some]
      constructor
      · intro h
        cases h
        refine ⟨_, if_pos rfl, hq ▸ hsp, fun j q hj hq' => ?_⟩
        rw [if_neg (by omega), Array.getElem?_eq_none (by omega)] at hq'
        cases hq'
      · rintro ⟨q, hqi, hsq, hlast⟩
        rcases Nat.lt_trichotomy i g.paths.size with hi | rfl | hi
        · exact absurd (hq ▸ hsp) (hlast g.paths.size _ hi (if_pos rfl))
        · rfl
        · rw [if_neg (by omega), Array.getElem?_eq_none (by omega)] at hqi
          cases hqi
    · -- the new path does not assign `s`, so the last one to do so is unchanged
      rw [if_neg hsp, ha.last s hs i]
      constructor
      · rintro ⟨q, hqi, hsq, hlast⟩
        refine ⟨q, by rw [if_neg (Nat.ne_of_lt (lt_of_getElem?_eq_some hqi))]; exact hqi, hsq,
          fun j q' hj hq' => ?_⟩
        split at hq'
        · cases hq'
          exact hq ▸ hsp
        · exact hlast j q' hj hq'
      · rintro ⟨q, hqi, hsq, hlast⟩
        split at hqi
        · cases hqi
          exact absurd (hq ▸ hsq) hsp
        · refine ⟨q, hqi, hsq, fun j q' hj hq' => hlast j q' hj ?_⟩
          rw [if_neg (Nat.ne_of_lt (lt_of_getElem?_eq_some hq'))]
          exact hq'
  · have hs' : s < g.pathOf.size := ha.size ▸ hs
    simp only [hpathOf, hpaths, Array.mem_push, hs', and_true]
    by_cases hsp : s ∈ p.assigned g0
    · rw [if_pos hsp, Option.join_some]
      constructor
      · intro h
        cases h
      · intro h
        exact absurd (hq ▸ hsp) (h _ (.inr rfl))
    · rw [if_neg hsp, ha.none s hs]
      constructor
      · rintro h q (hq' | rfl)
        · exact h q hq'
        · exact hq ▸ hsp
      · exact fun h q hq' => h q (.inl hq')

theorem Assigns.foldl (ha : Assigns g0 g) (t : LayoutThresholds) (paths : List Path) :
    Assigns g0 (paths.foldl (fun g p => if p.length < t.minPathLength then g else g.addPath p) g) := by
  induction paths generalizing g with
  | nil => exact ha
  | cons p paths ih =>
    rw [List.foldl_cons]
    apply ih
    split
    · exact ha
    · exact ha.addPath p

/-! ## The status read off the assignment -/

theorem status_of_contained {s : Nat} (h : g.isContained s = true) : g.status s = .contained := by
  simp [status, h]

theorem status_eq_inPath {s i : Nat} (h : g.isContained s = false) :
    g.status s = .inPath i ↔ (g.pathOf[s]?).join = some i := by
  unfold status
  rw [h]
  cases (g.pathOf[s]?).join <;> simp

theorem status_eq_alone {s : Nat} (h : g.isContained s = false) :
    g.status s = .alone ↔ (g.pathOf[s]?).join = none := by
  unfold status
  rw [h]
  cases (g.pathOf[s]?).join <;> simp

/-- After the layout of a reachable graph with no stored paths, a sequence in a host is reported
so; any other is reported in the last stored path that assigns it, and alone when none does. -/
theorem status_of_findPaths {g : AssemblyGraph} (h : g.Reachable) (hp : g.paths = #[]) {t : LayoutThresholds}
    {r : Option NStats × AssemblyGraph} (hr : t.findPaths g = .ok r) (s : Nat) :
    (g.isContained s = true ∧ r.2.status s = .contained) ∨
      (g.isContained s = false ∧
        (∀ i, r.2.status s = .inPath i ↔ s < g.size ∧ ∃ p, r.2.paths[i]? = some p ∧ s ∈ p.assigned g ∧
          ∀ j q, i < j → r.2.paths[j]? = some q → s ∉ q.assigned g) ∧
        (r.2.status s = .alone ↔ g.size ≤ s ∨ ∀ p ∈ r.2.paths, s ∉ p.assigned g)) := by
  obtain ⟨paths, hr2⟩ := findPaths_graph hr
  have ha : Assigns g r.2 := by
    rw [hr2]
    exact (assigns_init h.inv hp).foldl t paths
  have hc : r.2.isContained s = g.isContained s := by
    unfold isContained
    rw [ha.bySequence]
  -- past the known sequences no slot exists
  have hout : ¬ s < g.size → r.2.pathOf[s]? = none := fun hs =>
    Array.getElem?_eq_none (by rw [ha.size]; omega)
  cases hcs : g.isContained s with
  | true => exact .inl ⟨rfl, status_of_contained (hc.trans hcs)⟩
  | false =>
    refine .inr ⟨rfl, fun i => ?_, ?_⟩
    · rw [status_eq_inPath (hc.trans hcs)]
      by_cases hs : s < g.size
      · rw [ha.last s hs i]
        simp [hs]
      · simp [hout hs, hs]
    · rw [status_eq_alone (hc.trans hcs)]
      by_cases hs : s < g.size
      · rw [ha.none s hs]
        simp [Nat.not_le.2 hs]
      · simp only [hout hs, Option.join_none, true_iff]
        exact .inl (Nat.le_of_not_lt hs)

end AssemblyGraph

end OverlapLayout
