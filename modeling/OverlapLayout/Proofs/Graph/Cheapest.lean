import Mathlib
import OverlapLayout.Proofs.Graph.Detach
import OverlapLayout.Proofs.Paths.Build
/-!
  The cheapest edge at a vertex, and the safe edges.

  The edge taken at a vertex is, of the live overlap edges there between sequences in no host,
  the least by cost, then by higher score, then by id. The id makes that order strict and total
  on the edges at one vertex, so the edge taken is the one cheaper than every other. The safe
  edges are the overlap edges taken at both of their ends, in increasing id order; no vertex has
  two of them.

  * `least_mem`, `least_not_before`: the first element that no later one comes before is in the
    list, and under a strict order nothing in the list comes before it.
  * `CheapestAt`, `Inv.edgeMinCost_eq_some_iff`, `Inv.edgeMinCost_eq_none_iff`: the edge taken.
  * `mem_overlapEdges`, `overlapEdges_ids_increasing`: the live overlap edges, by id.
  * `safeEdges_mutually_cheapest`: the safe edges.
-/

namespace OverlapLayout

namespace AssemblyGraph

/-! ## The least element under a strict order -/

section least

variable {α : Type} {before : α → α → Bool}

/-- One step of `least`: a later element replaces the one kept when it comes before it. -/
theorem least_cons (x : α) (xs : List α) :
    least before (x :: xs) = some (xs.foldl (fun m y => if before y m then y else m) x) := rfl

theorem foldl_least_cons (x z : α) (zs : List α) :
    (z :: zs).foldl (fun m y => if before y m then y else m) x =
      zs.foldl (fun m y => if before y m then y else m) (if before z x then z else x) := rfl

theorem foldl_least_mem (xs : List α) (x : α) :
    xs.foldl (fun m y => if before y m then y else m) x ∈ x :: xs := by
  refine List.foldlRecOn xs _ (motive := (· ∈ x :: xs)) List.mem_cons_self fun m hm y hy => ?_
  split
  · exact List.mem_cons_of_mem x hy
  · exact hm

theorem least_mem {l : List α} {m : α} (h : least before l = some m) : m ∈ l := by
  cases l with
  | nil => cases h
  | cons x xs =>
    rw [least_cons, Option.some.injEq] at h
    exact h ▸ foldl_least_mem xs x

variable (hirr : ∀ a, before a a = false)
  (htrans : ∀ a b c, before a b = true → before b c = true → before a c = true)
include hirr htrans

omit hirr in
/-- The element kept is the first one or comes before it. -/
theorem foldl_least_le (xs : List α) (x : α) :
    xs.foldl (fun m y => if before y m then y else m) x = x ∨
      before (xs.foldl (fun m y => if before y m then y else m) x) x = true := by
  refine List.foldlRecOn xs _ (motive := fun m => m = x ∨ before m x = true) (.inl rfl)
    fun m hm y _ => ?_
  split
  · next hy =>
    rcases hm with rfl | hm
    · exact .inr hy
    · exact .inr (htrans _ _ _ hy hm)
  · exact hm

/-- Nothing seen comes before the element kept. -/
theorem foldl_least_not_before (xs : List α) :
    ∀ x, ∀ y ∈ x :: xs, before y (xs.foldl (fun m y => if before y m then y else m) x) = false := by
  induction xs with
  | nil => intro x y hy; rw [List.mem_singleton.1 hy]; exact hirr x
  | cons z zs ih =>
    intro x y hy
    rw [foldl_least_cons]
    by_cases hz : before z x = true
    · rw [if_pos hz]
      -- `z` replaced `x`, so `x` coming before the result would put `z` before it too
      rcases List.mem_cons.1 hy with rfl | hy
      · refine Bool.eq_false_iff.2 fun hyr => ?_
        have := ih z z List.mem_cons_self
        rw [htrans _ _ _ hz hyr] at this
        cases this
      · exact ih z y hy
    · rw [if_neg hz]
      rcases List.mem_cons.1 hy with rfl | hy
      · exact ih y y List.mem_cons_self
      · rcases List.mem_cons.1 hy with rfl | hy
        · -- `y` did not come before `x`, and the result is `x` or comes before it
          refine Bool.eq_false_iff.2 fun hyr => hz ?_
          rcases foldl_least_le htrans zs x with h | h
          · exact h ▸ hyr
          · exact htrans _ _ _ hyr h
        · exact ih x y (List.mem_cons_of_mem x hy)

theorem least_not_before {l : List α} {m : α} (h : least before l = some m) :
    ∀ y ∈ l, before y m = false := by
  cases l with
  | nil => cases h
  | cons x xs =>
    rw [least_cons, Option.some.injEq] at h
    exact h ▸ foldl_least_not_before hirr htrans xs x

end least

theorem least_eq_none {α : Type} {before : α → α → Bool} {l : List α} :
    least before l = none ↔ l = [] := by
  cases l <;> simp [least]

/-! ## The cheapest edge at a vertex -/

theorem cheaper_iff {a b : Nat × Edge} :
    cheaper a b = true ↔ a.2.cost < b.2.cost ∨
      (a.2.cost = b.2.cost ∧ (b.2.score < a.2.score ∨ (a.2.score = b.2.score ∧ a.1 < b.1))) := by
  simp [cheaper]

theorem cheaper_irrefl (a : Nat × Edge) : cheaper a a = false := by
  simp [cheaper]

theorem cheaper_trans (a b c : Nat × Edge) (hab : cheaper a b = true) (hbc : cheaper b c = true) :
    cheaper a c = true := by
  rw [cheaper_iff] at *
  omega

/-- Edges of different ids are ordered one way or the other. -/
theorem cheaper_total {a b : Nat × Edge} (h : a.1 ≠ b.1) (hba : cheaper b a = false) :
    cheaper a b = true := by
  rw [← Bool.not_eq_true, cheaper_iff] at hba
  rw [cheaper_iff]
  omega

/-- Edge `id` is the one taken at `v`: a live overlap edge touching `v` between sequences in no
host, of lower cost than every other such edge, or as cheap and of higher score, or as cheap and
as high scoring and older. -/
def CheapestAt (g : AssemblyGraph) (v : Vertex) (id : Nat) : Prop :=
  ∃ e, g.edge? id = some e ∧ e.Touches v ∧ g.joinsFree e = true ∧
    ∀ id' e', g.edge? id' = some e' → e'.Touches v → g.joinsFree e' = true → id' ≠ id →
      e.cost < e'.cost ∨ (e.cost = e'.cost ∧ (e'.score < e.score ∨ (e.score = e'.score ∧ id < id')))

variable {g : AssemblyGraph}

theorem Inv.mem_activeEdges (hi : g.Inv) {v : Vertex} {j : Nat} {f : Edge} :
    (j, f) ∈ g.activeEdges v ↔ g.edge? j = some f ∧ f.Touches v ∧ g.joinsFree f = true := by
  rw [activeEdges, List.mem_filter, hi.mem_edgesOf, and_assoc]

/-- The edge taken at a vertex is the cheapest one there. -/
theorem Inv.cheapestAt_of_edgeMinCost (hi : g.Inv) {v : Vertex} {id : Nat}
    (h : g.edgeMinCost v = some id) : g.CheapestAt v id := by
  obtain ⟨⟨j, e⟩, hm, rfl⟩ := Option.map_eq_some_iff.1 h
  obtain ⟨he, ht, hfree⟩ := hi.mem_activeEdges.1 (least_mem hm)
  refine ⟨e, he, ht, hfree, fun id' e' he' ht' hfree' hne => ?_⟩
  have hnb := least_not_before cheaper_irrefl cheaper_trans hm (id', e')
    (hi.mem_activeEdges.2 ⟨he', ht', hfree'⟩)
  exact cheaper_iff.1 (cheaper_total (Ne.symm hne) hnb)

/-- A vertex takes exactly its cheapest edge. -/
theorem Inv.edgeMinCost_eq_some_iff (hi : g.Inv) (v : Vertex) (id : Nat) :
    g.edgeMinCost v = some id ↔ g.CheapestAt v id := by
  refine ⟨hi.cheapestAt_of_edgeMinCost, fun ⟨e, he, ht, hfree, hmin⟩ => ?_⟩
  -- some edge is taken, and it is cheaper than `id` unless it is `id`
  cases hm : least cheaper (g.activeEdges v) with
  | none =>
    rw [least_eq_none] at hm
    have := hi.mem_activeEdges.2 ⟨he, ht, hfree⟩
    simp [hm] at this
  | some m =>
    obtain ⟨j, f⟩ := m
    have hj : g.edgeMinCost v = some j := by simp [edgeMinCost, hm]
    by_cases hji : j = id
    · exact hji ▸ hj
    · obtain ⟨f', hf', -, -, hminj⟩ := hi.cheapestAt_of_edgeMinCost hj
      obtain ⟨hf, ht', hfree'⟩ := hi.mem_activeEdges.1 (least_mem hm)
      rw [hf, Option.some.injEq] at hf'
      subst hf'
      have h₁ := hmin j f hf ht' hfree' hji
      have h₂ := hminj id e he ht hfree (Ne.symm hji)
      omega

/-- A vertex takes no edge exactly when no live overlap edge there joins sequences in no host. -/
theorem Inv.edgeMinCost_eq_none_iff (hi : g.Inv) (v : Vertex) :
    g.edgeMinCost v = none ↔ ∀ id e, g.edge? id = some e → e.Touches v → g.joinsFree e = false := by
  rw [edgeMinCost, Option.map_eq_none_iff, least_eq_none, List.eq_nil_iff_forall_not_mem]
  constructor
  · intro h id e he ht
    exact Bool.eq_false_iff.2 fun hfree => h (id, e) (hi.mem_activeEdges.2 ⟨he, ht, hfree⟩)
  · rintro h ⟨id, e⟩ hm
    obtain ⟨he, ht, hfree⟩ := hi.mem_activeEdges.1 hm
    rw [h id e he ht] at hfree
    cases hfree

/-! ## The live overlap edges -/

theorem mem_overlapEdges {j : Nat} {f : Edge} :
    (j, f) ∈ g.overlapEdges ↔ g.edge? j = some f ∧ f.isIdentity = false := by
  simp only [overlapEdges, List.mem_filterMap, List.mem_zipIdx_iff_getElem?, Array.getElem?_toList]
  constructor
  · rintro ⟨⟨e?, i⟩, hi, hf⟩
    cases e? with
    | none => cases hf
    | some e =>
      dsimp only at hi hf
      split at hf
      · cases hf
      · next hid =>
        cases hf
        exact ⟨by simp [edge?, hi], by simpa using hid⟩
  · rintro ⟨hf, hid⟩
    refine ⟨(some f, j), ?_, by simp [hid]⟩
    simp only [edge?] at hf
    cases h : g.edges[j]? with
    | none => simp [h] at hf
    | some x => simp_all

/-- The live overlap edges come in increasing order of id. -/
theorem overlapEdges_ids_increasing : g.overlapEdges.Pairwise (·.1 < ·.1) := by
  have hz : (g.edges.toList.zipIdx).Pairwise (·.2 < ·.2) := by
    rw [← List.pairwise_map (f := Prod.snd), List.zipIdx_map_snd]
    exact List.pairwise_lt_range' 1
  -- each listed pair carries the index of its slot
  refine hz.filterMap _ ?_
  rintro ⟨_ | e, i⟩ ⟨_ | e', i'⟩ ha b hb b' hb' <;> simp only [reduceCtorEq] at hb hb'
  split at hb <;> split at hb' <;> simp only [reduceCtorEq, Option.some.injEq] at hb hb'
  subst hb hb'
  exact ha

/-! ## The safe edges -/

theorem mem_safeEdges {id : Nat} :
    id ∈ g.safeEdges ↔ ∃ e, g.edge? id = some e ∧ g.joinsFree e = true ∧
      g.edgeMinCost e.v1 = some id ∧ g.edgeMinCost e.v2 = some id := by
  simp only [safeEdges, mutualBest, List.mem_map, List.mem_filter, Bool.and_eq_true, beq_iff_eq]
  constructor
  · rintro ⟨⟨j, e⟩, ⟨hm, ⟨hfree, h1⟩, h2⟩, rfl⟩
    exact ⟨e, (mem_overlapEdges.1 hm).1, hfree, h1, h2⟩
  · rintro ⟨e, he, hfree, h1, h2⟩
    exact ⟨(id, e), ⟨mem_overlapEdges.2 ⟨he, (joinsFree_iff.1 hfree).1⟩, ⟨hfree, h1⟩, h2⟩, rfl⟩

/-- In a reachable graph each vertex takes the edge that is the cheapest there, by cost, then
higher score, then age, or none when it has no live overlap edge to a sequence in no host; the
safe edges are, in increasing order, exactly the overlap edges between sequences in no host taken
at both of their ends; and no two safe edges share a vertex. -/
theorem safeEdges_mutually_cheapest (h : g.Reachable) :
    (∀ v id, g.edgeMinCost v = some id ↔ g.CheapestAt v id) ∧
      (∀ v, g.edgeMinCost v = none ↔
        ∀ id e, g.edge? id = some e → e.Touches v → g.joinsFree e = false) ∧
      g.safeEdges.Pairwise (· < ·) ∧
      (∀ id, id ∈ g.safeEdges ↔ ∃ e, g.edge? id = some e ∧ g.joinsFree e = true ∧
        g.edgeMinCost e.v1 = some id ∧ g.edgeMinCost e.v2 = some id) ∧
      (∀ i j e f, i ∈ g.safeEdges → j ∈ g.safeEdges → g.edge? i = some e → g.edge? j = some f →
        i ≠ j → ∀ w, e.Touches w → ¬f.Touches w) := by
  have hi := h.inv
  refine ⟨hi.edgeMinCost_eq_some_iff, hi.edgeMinCost_eq_none_iff, ?_, fun _ => mem_safeEdges, ?_⟩
  · simp only [safeEdges, mutualBest]
    exact List.pairwise_map.2 (overlapEdges_ids_increasing.sublist List.filter_sublist)
  · intro i j e f hi' hj he hf hij w hew hfw
    -- a vertex of a safe edge takes that edge
    have taken : ∀ {k x}, k ∈ g.safeEdges → g.edge? k = some x → x.Touches w →
        g.edgeMinCost w = some k := by
      intro k x hk hx hxw
      obtain ⟨x', hx', -, h1, h2⟩ := mem_safeEdges.1 hk
      rw [hx, Option.some.injEq] at hx'
      subst hx'
      rcases hxw with rfl | rfl
      · exact h1
      · exact h2
    have := (taken hi' he hew).symm.trans (taken hj hf hfw)
    exact hij (Option.some.inj this)

/-- The safe edges of the sample graph, whose one overlap is the cheapest at both its ends. -/
theorem safeEdges_mutually_cheapest_sample :
    sample.Reachable ∧
      (∀ v id, sample.edgeMinCost v = some id ↔ sample.CheapestAt v id) ∧
      (∀ v, sample.edgeMinCost v = none ↔
        ∀ id e, sample.edge? id = some e → e.Touches v → sample.joinsFree e = false) ∧
      sample.safeEdges.Pairwise (· < ·) ∧
      (∀ id, id ∈ sample.safeEdges ↔ ∃ e, sample.edge? id = some e ∧
        sample.joinsFree e = true ∧ sample.edgeMinCost e.v1 = some id ∧
        sample.edgeMinCost e.v2 = some id) ∧
      (∀ i j e f, i ∈ sample.safeEdges → j ∈ sample.safeEdges →
        sample.edge? i = some e → sample.edge? j = some f →
        i ≠ j → ∀ w, e.Touches w → ¬f.Touches w) :=
  ⟨reachable_sample, safeEdges_mutually_cheapest reachable_sample⟩

end AssemblyGraph

end OverlapLayout
