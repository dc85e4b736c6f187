import Mathlib
import OverlapLayout.Proofs.Layout.Trees
/-!
  Absorbing short paths loses and duplicates nothing.

  `absorbShortPaths` keeps the paths in slots and, for each pair `(host,
  small)`, empties the slot of the small path and hangs it off the host, or
  puts it back when the host's slot is empty. Each step only moves a path
  from one place to another, so the paths in the slots, with everything
  hanging off them, keep spelling the same sequences as simple walks
  (`absorbShortPaths_conserves`).
-/

namespace OverlapLayout

/-- The paths held by some slots. -/
def livePaths (slots : Array (Option Path)) : List Path := slots.toList.filterMap id

theorem filterMap_set_perm {α : Type*} :
    ∀ (l : List (Option α)) (i : Nat) (a o : Option α), l[i]? = some a →
      ((l.set i o).filterMap id ++ a.toList).Perm (l.filterMap id ++ o.toList)
  | [], i, a, o, h => by simp at h
  | b :: l, 0, a, o, h => by
    simp only [List.getElem?_cons_zero, Option.some.injEq] at h
    subst h
    cases b with
    | none => cases o <;> simp [(List.perm_append_singleton _ _).symm]
    | some x =>
      cases o with
      | none => simp [List.perm_append_singleton]
      | some y =>
        simp only [id, Option.toList_some]
        exact (List.perm_append_singleton x (y :: _)).trans
          (List.Perm.cons x (List.perm_append_singleton y _).symm)
  | b :: l, i + 1, a, o, h => by
    simp only [List.getElem?_cons_succ] at h
    have ih := filterMap_set_perm l i a o h
    cases b
    · simpa using ih
    · simpa using ih

/-- Overwriting a slot: the path it held leaves, the one written enters. -/
theorem livePaths_set {slots : Array (Option Path)} {i : Nat} {a : Option Path} (h : slots[i]? = some a)
    (o : Option Path) : (livePaths (slots.set! i o) ++ a.toList).Perm (livePaths slots ++ o.toList) := by
  unfold livePaths
  rw [Array.set!_eq_setIfInBounds, Array.toList_setIfInBounds]
  exact filterMap_set_perm _ _ _ _ (by rw [Array.getElem?_toList]; exact h)

theorem mem_livePaths {slots : Array (Option Path)} {i : Nat} {x : Path} (h : slots[i]? = some (some x)) :
    x ∈ livePaths slots :=
  List.mem_filterMap.2 ⟨some x, List.mem_of_getElem? (by rw [Array.getElem?_toList]; exact h), rfl⟩

theorem livePaths_eq_nil {slots : Array (Option Path)} (h : ∀ (i : Nat) (p : Path), (slots[i]?).join ≠ some p) :
    livePaths slots = [] := by
  unfold livePaths
  rw [List.filterMap_eq_nil_iff]
  intro o ho
  obtain ⟨i, hi⟩ := List.mem_iff_getElem?.1 ho
  cases o with
  | none => rfl
  | some p => exact absurd (by rw [← Array.getElem?_toList, hi]; rfl) (h i p)

theorem livePaths_map_some (ps : List Path) : livePaths (ps.toArray.map some) = ps := by
  simp [livePaths, List.filterMap_map]

namespace LayoutThresholds

/-- One pair `(host, small)` considered by `absorbShortPaths`. -/
def absorbStep (slots : Array (Option Path)) (hs : Nat × Nat) : Array (Option Path) :=
  match (slots[hs.2]?).join with
  | none => slots
  | some p =>
    match ((slots.set! hs.2 none)[hs.1]?).join with
    | some h => (slots.set! hs.2 none).set! hs.1 (some (h.addAlternative p))
    | none => (slots.set! hs.2 none).set! hs.2 (some p)

theorem absorbShortPaths_eq (t : LayoutThresholds) (g : AssemblyGraph) (paths : List Path) :
    t.absorbShortPaths g paths =
      livePaths ((t.absorptions g paths.toArray).foldl absorbStep (paths.toArray.map some)) := rfl

end LayoutThresholds

open LayoutThresholds

variable {g : AssemblyGraph} {S : List Nat}

theorem treeSequences_addAlternative (h p : Path) :
    treeSequences g [h.addAlternative p] = treeSequences g [h] ++ treeSequences g [p] := by
  rw [treeSequences.singleton, treeSequences.singleton]
  simp only [Path.addAlternative, Array.toList_push, treeSequences.append, List.append_assoc]
  rfl

/-- Hanging the path of one slot off the path of another. -/
theorem Conserves.absorb {slots : Array (Option Path)} (hc : Conserves g S (livePaths slots))
    (hs : Nat × Nat) : Conserves g S (livePaths (absorbStep slots hs)) := by
  unfold absorbStep
  split
  · exact hc
  next p hp =>
    have hsmall : slots[hs.2]? = some (some p) := Option.join_eq_some_iff.1 hp
    have h1 := livePaths_set hsmall none
    simp only [Option.toList_some, Option.toList_none, List.append_nil] at h1
    split
    next h hh =>
      -- the small path now hangs off the host
      have hhost := Option.join_eq_some_iff.1 hh
      have h2 := livePaths_set hhost (some (h.addAlternative p))
      simp only [Option.toList_some] at h2
      have hmem : h ∈ livePaths slots := h1.subset (List.mem_append_left _ (mem_livePaths hhost))
      have hpmem : p ∈ livePaths slots := mem_livePaths hsmall
      have hA : (livePaths ((slots.set! hs.2 none).set! hs.1 (some (h.addAlternative p))) ++ [h, p]).Perm
          (livePaths slots ++ [h.addAlternative p]) := by
        have e1 : livePaths ((slots.set! hs.2 none).set! hs.1 (some (h.addAlternative p))) ++ [h, p] =
            (livePaths ((slots.set! hs.2 none).set! hs.1 (some (h.addAlternative p))) ++ [h]) ++ [p] := by
          simp
        have e2 : ((livePaths (slots.set! hs.2 none) ++ [h.addAlternative p]) ++ [p]).Perm
            ((livePaths (slots.set! hs.2 none) ++ [p]) ++ [h.addAlternative p]) := by
          simp only [List.append_assoc, List.singleton_append]
          exact (List.Perm.swap p (h.addAlternative p) []).append_left _
        rw [e1]
        exact ((h2.append_right _).trans e2).trans (h1.append_right _)
      refine ⟨?_, fun p' hp' q hq => ?_⟩
      · have hts := treeSequences.perm (g := g) hA
        rw [treeSequences.append, treeSequences.append, treeSequences.cons, treeSequences_addAlternative] at hts
        exact ((List.perm_append_right_iff _).1 hts).trans hc.perm
      · rcases List.mem_append.1 (hA.subset (List.mem_append_left _ hp')) with hp' | hp'
        · exact hc.simple p' hp' q hq
        rw [List.mem_singleton] at hp'
        subst hp'
        rw [Path.nodes_addAlternative] at hq
        rcases List.mem_cons.1 hq with rfl | hq
        · exact hc.simple h hmem h (Path.mem_nodes_self h)
        rcases List.mem_append.1 hq with hq | hq
        · exact hc.simple h hmem q (Path.mem_nodes_of_mem_alternatives hq)
        · exact hc.simple p hpmem q hq
    next hh =>
      -- the host is gone: the small path goes back to its slot
      have hnone : (slots.set! hs.2 none)[hs.2]? = some none := by
        have hlt : hs.2 < slots.size := (Array.getElem?_eq_some_iff.1 hsmall).1
        simp [Array.set!_eq_setIfInBounds, hlt]
      have h2 := livePaths_set hnone (some p)
      simp only [Option.toList_some, Option.toList_none, List.append_nil] at h2
      exact hc.of_perm (h2.trans h1).symm

theorem Conserves.absorbAll {slots : Array (Option Path)} (hc : Conserves g S (livePaths slots)) :
    ∀ pairs : List (Nat × Nat), Conserves g S (livePaths (pairs.foldl absorbStep slots))
  | [] => hc
  | hs :: pairs => (hc.absorb hs).absorbAll pairs

namespace LayoutThresholds

theorem absorbShortPaths_conserves (t : LayoutThresholds) {paths : List Path} (hc : Conserves g S paths) :
    Conserves g S (t.absorbShortPaths g paths) := by
  rw [absorbShortPaths_eq]
  refine Conserves.absorbAll ?_ _
  rw [livePaths_map_some]
  exact hc

end LayoutThresholds

end OverlapLayout
