import Mathlib
import OverlapLayout.Proofs.Layout.Merging
import OverlapLayout.Proofs.Layout.Status
/-!
  The paths the layout stores.

  `buildPaths` gives paths with no alternatives, so its cover of the sequences
  in no host is a cover by trees of simple walks (`conserves_buildPaths`).
  Absorbing and merging keep such a cover, and the final filter stores,
  renumbered, the paths of it with enough edges. Hence `stored_valid`:
  every stored path and every path hanging off it is a simple walk of the
  graph, whose edges the layout leaves as they were; stored paths are long
  enough; no sequence is spelt twice among them and none in a host at all;
  and the paths handed to the filter spell every sequence in no host exactly
  once.
-/

namespace OverlapLayout

namespace AssemblyGraph

variable {g : AssemblyGraph} {partner : Array (Option Nat)}

/-! ## Built paths carry no alternatives -/

theorem alternatives_of_connectRight {p q : Path} {id : Nat} (h : p.connectRight g id = some q) :
    q.alternatives = p.alternatives := by
  obtain ⟨next, -, rfl⟩ := Option.map_eq_some_iff.1 h
  rfl

theorem alternatives_extendRight :
    ∀ (fuel : Nat) (p : Path) (visited : Array Bool),
      (g.extendRight partner fuel p visited).1.alternatives = p.alternatives
  | 0, _, _ => rfl
  | fuel + 1, p, visited => by
    unfold extendRight
    split
    · rfl
    split
    · rfl
    next q hq =>
      dsimp only
      split
      · exact alternatives_of_connectRight hq
      split
      · exact alternatives_of_connectRight hq
      next self _ =>
        rw [alternatives_extendRight fuel]
        cases hs : q.connectRight g self with
        | none => exact alternatives_of_connectRight hq
        | some q' => exact (alternatives_of_connectRight hs).trans (alternatives_of_connectRight hq)

theorem alternatives_buildStep (st : Array Path × Array Bool) (hst : ∀ p ∈ st.1, p.alternatives = #[])
    (s : Nat) : ∀ p ∈ (buildStep g partner st s).1, p.alternatives = #[] := by
  unfold buildStep
  split
  · exact hst
  dsimp only
  split
  · exact hst
  next p hp =>
    intro q hq
    rcases Array.mem_push.1 hq with hq | rfl
    · exact hst q hq
    rw [alternatives_extendRight]
    obtain ⟨id, -, hid⟩ := Option.bind_eq_some_iff.1 hp
    obtain ⟨e, -, rfl⟩ := Option.map_eq_some_iff.1 hid
    split <;> rfl

theorem alternatives_buildPaths (ids : List Nat) : ∀ p ∈ g.buildPaths ids, p.alternatives = #[] := by
  rw [buildPaths_eq]
  -- the loop over the sequences keeps every path pushed free of alternatives
  suffices ∀ (l : List Nat) (st : Array Path × Array Bool), (∀ p ∈ st.1, p.alternatives = #[]) →
      ∀ p ∈ (l.foldl (buildStep g (g.choosePartners (g.pathCandidates ids))) st).1, p.alternatives = #[] by
    intro p hp
    exact this _ _ (by simp) p (Array.mem_toList_iff.1 hp)
  intro l
  induction l with
  | nil => exact fun st hst => hst
  | cons s l ih => exact fun st hst => ih _ (alternatives_buildStep st hst s)

/-! ## Built paths as trees -/

theorem treeSequences_of_alternatives {ps : List Path} (h : ∀ p ∈ ps, p.alternatives = #[]) :
    treeSequences g ps = ps.flatMap (·.sequenceIds g) := by
  induction ps with
  | nil => rfl
  | cons p ps ih =>
    rw [treeSequences.cons, treeSequences.singleton, h p List.mem_cons_self,
      ih fun q hq => h q (List.mem_cons_of_mem _ hq)]
    simp

theorem conserves_buildPaths (h : g.Reachable) (ids : List Nat) :
    Conserves g ((List.range g.size).filter fun s => !g.isContained s) (g.buildPaths ids) := by
  have hc := buildPaths_cover h ids
  have halt := alternatives_buildPaths (g := g) ids
  have hnd : ((g.buildPaths ids).flatMap fun p => p.sequenceIds g).Nodup :=
    hc.perm.nodup_iff.2 (List.nodup_range.filter _)
  refine ⟨by rw [treeSequences_of_alternatives halt]; exact hc.perm, fun p hp q hq => ?_⟩
  -- a built path is the only node of its tree
  rw [Path.nodes_eq, halt p hp] at hq
  simp only [List.flatMap_nil, List.mem_singleton] at hq
  subst hq
  obtain ⟨us, hw⟩ := hc.walks q hp
  refine ⟨us, hw, ?_⟩
  rw [← hw.sequenceIds]
  exact (List.nodup_flatMap.1 hnd).1 q hp

end AssemblyGraph

namespace LayoutThresholds

/-- The edges the layout builds its paths from: the safe edges and those joining
the ends of their paths. -/
def pathEdges (t : LayoutThresholds) (g : AssemblyGraph) : List Nat :=
  g.safeEdges ++ t.connectingEdges g (g.buildPaths g.safeEdges) g.safeEdges

/-- The paths `findPaths` hands to its final filter: those built from the path
edges, absorbed and merged when the improvement passes run. -/
def Handed (t : LayoutThresholds) (g : AssemblyGraph) (handed : List Path) : Prop :=
  if t.runImprovement then
    ∃ costs, t.mergeClosePaths g (t.absorbShortPaths g (g.buildPaths (t.pathEdges g))) costs = .ok handed
  else handed = g.buildPaths (t.pathEdges g)

variable {t : LayoutThresholds}

theorem findPaths_handed {g : AssemblyGraph} {r : Option NStats × AssemblyGraph} (h : t.findPaths g = .ok r) :
    ∃ handed, t.Handed g handed ∧
      r.2 = handed.foldl (fun g p => if p.length < t.minPathLength then g else g.addPath p) g := by
  unfold findPaths at h
  dsimp only at h
  split at h
  next hrun =>
    obtain ⟨paths, hm, h⟩ := bind_ok h
    obtain ⟨c, -, h⟩ := bind_ok h
    cases h
    exact ⟨paths, by rw [Handed, if_pos hrun]; exact ⟨_, hm⟩, rfl⟩
  next hrun =>
    obtain ⟨paths, hm, h⟩ := bind_ok h
    obtain ⟨c, -, h⟩ := bind_ok h
    cases h
    cases hm
    exact ⟨_, by rw [Handed, if_neg hrun]; rfl, rfl⟩

/-- The final filter stores, renumbered, the handed paths with enough edges. -/
theorem forall₂_stored (t : LayoutThresholds) : ∀ (handed : List Path) (g0 : AssemblyGraph) (pre : List Path),
    List.Forall₂ (fun p q => q = { p with id := q.id }) pre g0.paths.toList →
    List.Forall₂ (fun p q => q = { p with id := q.id })
      (pre ++ handed.filter fun p => !(p.length < t.minPathLength))
      (handed.foldl (fun g p => if p.length < t.minPathLength then g else g.addPath p) g0).paths.toList
  | [], _, _, h => by simpa using h
  | p :: handed, g0, pre, h => by
    by_cases hs : p.length < t.minPathLength
    · simp only [List.foldl_cons, hs, if_true, List.filter_cons, decide_true, Bool.not_true]
      exact forall₂_stored t handed g0 pre h
    · have h' : List.Forall₂ (fun p q => q = { p with id := q.id }) (pre ++ [p]) (g0.addPath p).paths.toList := by
        rw [show (g0.addPath p).paths = g0.paths.push { p with id := g0.paths.size + 1 } from rfl,
          Array.toList_push]
        exact List.rel_append h (.cons rfl .nil)
      simp only [List.foldl_cons, hs, if_false]
      rw [List.filter_cons_of_pos (by simpa using hs), List.append_cons]
      exact forall₂_stored t handed (g0.addPath p) (pre ++ [p]) h'

end LayoutThresholds

namespace AssemblyGraph

/-! ## The stored paths -/

/-- What the final filter stores from the paths the layout hands it: it keeps the edges; every
stored path is long enough, and it and every path hanging off it is a simple walk; no sequence
is spelt twice among them and none in a host at all; and the handed paths spell every
sequence in no host exactly once. -/
theorem stored_valid {g : AssemblyGraph} (h : g.Reachable) (hp : g.paths = #[]) {t : LayoutThresholds}
    {handed : List Path} (hh : t.Handed g handed) :
    let stored := handed.foldl (fun g p => if p.length < t.minPathLength then g else g.addPath p) g
    stored.edges = g.edges ∧
      (∀ p ∈ stored.paths, t.minPathLength ≤ p.length ∧ ∀ q ∈ p.nodes, q.Simple g) ∧
      (treeSequences g stored.paths.toList).Nodup ∧
      (∀ s ∈ treeSequences g stored.paths.toList, g.isContained s = false) ∧
      Conserves g ((List.range g.size).filter fun s => !g.isContained s) handed := by
  intro stored
  have hS : ((List.range g.size).filter fun s => !g.isContained s).Nodup := List.nodup_range.filter _
  -- the handed paths cover the sequences in no host
  have hc : Conserves g ((List.range g.size).filter fun s => !g.isContained s) handed := by
    unfold LayoutThresholds.Handed at hh
    split at hh
    · obtain ⟨costs, hm⟩ := hh
      exact mergeClosePaths_conserves h.inv hS (t.absorbShortPaths_conserves (conserves_buildPaths h _)) hm
    · rw [hh]
      exact conserves_buildPaths h _
  -- the stored paths are the long ones among them, renumbered
  have hst : List.Forall₂ (fun p q => q = { p with id := q.id })
      (handed.filter fun p => !(p.length < t.minPathLength)) stored.paths.toList := by
    have := LayoutThresholds.forall₂_stored t handed g [] (by rw [hp]; exact .nil)
    rwa [List.nil_append] at this
  have hts : treeSequences g stored.paths.toList =
      treeSequences g (handed.filter fun p => !(p.length < t.minPathLength)) :=
    treeSequences_forall₂_renumber hst
  have hsub : (treeSequences g (handed.filter fun p => !(p.length < t.minPathLength))).Sublist
      (treeSequences g handed) :=
    ((List.filter_sublist).flatMap _).flatMap _
  refine ⟨((assigns_init h.inv hp).foldl t handed).edges, fun p hp' => ⟨?_, ?_⟩, ?_, fun s hs => ?_, hc⟩
  · obtain ⟨p0, hp0, hpq⟩ := exists_of_forall₂_right hst (Array.mem_toList_iff.2 hp')
    have hlong : t.minPathLength ≤ p0.length := by simpa using (List.mem_filter.1 hp0).2
    rw [hpq]
    exact hlong
  · exact simple_forall₂_renumber (fun p hp q hq => hc.simple p (List.mem_of_mem_filter hp) q hq) hst p
      (Array.mem_toList_iff.2 hp')
  · rw [hts]
    exact (hc.perm.nodup_iff.2 hS).sublist hsub
  · rw [hts] at hs
    simpa using (List.mem_filter.1 (hc.perm.subset (hsub.subset hs))).2

end AssemblyGraph

end OverlapLayout
