import Mathlib
import OverlapLayout.Proofs.Paths.Forest
/-!
  Joining the ends of paths.

  `connectingEdges` runs Kruskal's rule over the edges at path ends, on disjoint sets of end
  slots: slots `2 i` and `2 i + 1` hold the left and right end of path `i` and start in one class.
  Over the paths built from some ids it chooses live overlap edges between ends of two different
  paths, no two at one end, which with the paths' own overlap edges form a forest, and it leaves
  out an edge within the indel limit only when it meets a chosen edge or would close a cycle.
  Building paths from the ids and the chosen edges then uses exactly the old overlap edges and
  the chosen ones, so every new path is a chain of old paths joined at their ends
  (`connectingEdges_join`, stated as `EndJoins`).

  * `connectStep`, `connectingEdges_eq`: the loop, one candidate at a time.
  * `ConnectState`, `ConnectState.step`, `ConnectState.foldl`: what the loop keeps after each
    candidate; `Settled` says why a candidate seen was left out.
  * `ConnectState.maximalForest`: the old overlap edges and the chosen ones are the maximal
    forest of the ids and the chosen edges, so `MaximalForest.unique` gives the rebuilt paths.
-/

namespace OverlapLayout

/-- Classes already one stay one after a union. -/
theorem UnionFind.find_union_of_find_eq {u : UnionFind} (hu : u.WF) (a b : Nat) {x y : Nat}
    (hxy : u.find x = u.find y) : (u.union a b).2.find x = (u.union a b).2.find y :=
  ((UnionFind.union_spec hu a b).2.2 x y).2 (.inl hxy)

namespace AssemblyGraph

variable {g : AssemblyGraph}

/-- The sequences a walk enters are joined to its first by its overlap edges. -/
theorem Spells.joined {us : List Vertex} {ids : List Nat} (h : g.Spells us ids) {u w : Vertex}
    (hu : us.head? = some u) (hw : w ∈ us) :
    Joined (fun x => x.1 ∈ ids ∧ g.edge? x.1 = some x.2 ∧ x.2.isIdentity = false)
      u.sequence w.sequence := by
  induction h generalizing u with
  | one _ =>
    rw [List.head?_cons, Option.some.injEq] at hu
    rw [List.mem_singleton.1 hw, ← hu]
    exact .refl _
  | @cons u' w' us i j ids _ hov _ ih =>
    rw [List.head?_cons, Option.some.injEq] at hu
    subst hu
    rcases List.mem_cons.1 hw with rfl | hw
    · exact .refl _
    obtain ⟨e, he, hid, hacross⟩ := hov
    have hedge : ∀ {a b : Vertex}, e.v1 = a → e.v2 = b →
        Joined (fun x => x.1 ∈ i :: j :: ids ∧ g.edge? x.1 = some x.2 ∧ x.2.isIdentity = false)
          a.sequence b.sequence :=
      fun h1 h2 => .rel _ _ ⟨(j, e), ⟨by simp, he, hid⟩, congrArg Vertex.sequence h1,
        congrArg Vertex.sequence h2⟩
    -- the overlap edge leaves `u'` by its opposite vertex, of the same sequence
    have hstep : Joined (fun x => x.1 ∈ i :: j :: ids ∧ g.edge? x.1 = some x.2 ∧
        x.2.isIdentity = false) u'.sequence w'.sequence := by
      rcases Edge.across_eq_some.1 hacross with ⟨h1, h2⟩ | ⟨-, h2, h1⟩
      · simpa only [Vertex.opposite_sequence] using hedge h1 h2
      · simpa only [Vertex.opposite_sequence] using Joined.comm.1 (hedge h1 h2)
    exact .trans _ _ _ hstep (Joined.mono
      (fun x hx => ⟨List.mem_cons_of_mem _ (List.mem_cons_of_mem _ hx.1), hx.2⟩) (ih rfl hw))

end AssemblyGraph

/-- The two ends of a path are joined by its overlap edges. -/
theorem Path.Walks.joined_ends {g : AssemblyGraph} {p : Path} {us : List Vertex} (hw : p.Walks g us) :
    AssemblyGraph.Joined (fun x => x.1 ∈ p.edges.toList ∧ g.edge? x.1 = some x.2 ∧
      x.2.isIdentity = false) p.left.sequence p.right.sequence := by
  obtain ⟨u, hu, hur⟩ := Option.map_eq_some_iff.1 hw.2.2
  rw [← hur, Vertex.opposite_sequence]
  exact hw.1.joined hw.2.1 (List.mem_of_getLast? hu)

namespace LayoutThresholds

open AssemblyGraph

/-! ## The loop -/

/-- The path ends in order: the left and the right end of each path. -/
def pathEnds (paths : List Path) : List Vertex := paths.flatMap fun p => [p.left, p.right]

/-- The slot of each end, by vertex number. -/
def endSlots (vertices : List Vertex) : Std.HashMap Nat Nat :=
  vertices.zipIdx.foldl (fun m (v, i) => m.insert v.id i) {}

/-- The slots of the first `n` paths, the two ends of each joined. -/
def pairSlots (n : Nat) (c : UnionFind) : UnionFind :=
  (List.range n).foldl (fun c i => (c.union (2 * i) (2 * i + 1)).2) c

/-- The largest indel rate a connecting edge may have: mean plus a multiple of the deviation
over the path edges. -/
def indelLimit (t : LayoutThresholds) (g : AssemblyGraph) (pathEdges : List Nat) : Float :=
  let ikbp := (g.estimateFits pathEdges []).indelsPerKbp
  ikbp.mean + t.ikbpStddevFactor * ikbp.deviation

/-- One candidate considered by `connectingEdges`. -/
def connectStep (g : AssemblyGraph) (place : Std.HashMap Nat Nat) (limit : Float) :
    Array Bool × UnionFind × Array Nat → Nat → Array Bool × UnionFind × Array Nat :=
  fun (used, clusters, chosen) id =>
    match g.edge? id with
    | none => (used, clusters, chosen)
    | some e =>
      match place.get? e.v1.id, place.get? e.v2.id with
      | some p1, some p2 =>
        if used.getD p1 false || used.getD p2 false || limit < e.evidence.indelsPerKbp then
          (used, clusters, chosen)
        else
          let (joined, clusters) := clusters.union p1 p2
          if joined then ((used.set! p1 true).set! p2 true, clusters, chosen.push id)
          else (used, clusters, chosen)
      | _, _ => (used, clusters, chosen)

theorem connectingEdges_eq (t : LayoutThresholds) (g : AssemblyGraph) (paths : List Path)
    (pathEdges : List Nat) :
    t.connectingEdges g paths pathEdges =
      ((endCandidates g (pathEnds paths)).foldl
        (connectStep g (endSlots (pathEnds paths)) (t.indelLimit g pathEdges))
        (Array.replicate (pathEnds paths).length false,
          pairSlots paths.length (UnionFind.new (pathEnds paths).length), #[])).2.2.toList :=
  rfl

/-! ## Ends, slots and candidates -/

theorem getElem?_pathEnds (paths : List Path) (k : Nat) :
    (pathEnds paths)[k]? = paths[k / 2]?.map fun p => if k % 2 = 0 then p.left else p.right := by
  induction paths generalizing k with
  | nil => simp [pathEnds]
  | cons p paths ih =>
    have hcons : pathEnds (p :: paths) = p.left :: p.right :: pathEnds paths := rfl
    match k with
    | 0 => simp [hcons]
    | 1 => simp [hcons]
    | k + 2 =>
      rw [hcons, List.getElem?_cons_succ, List.getElem?_cons_succ, ih k,
        show (k + 2) / 2 = k / 2 + 1 by omega, List.getElem?_cons_succ]
      simp [Nat.add_mod_right]

/-- A slot holds an end of the path of half its number. -/
theorem end_of_getElem?_pathEnds {paths : List Path} {k : Nat} {v : Vertex}
    (h : (pathEnds paths)[k]? = some v) :
    ∃ p, paths[k / 2]? = some p ∧ (v = p.left ∨ v = p.right) := by
  rw [getElem?_pathEnds] at h
  obtain ⟨p, hp, hv⟩ := Option.map_eq_some_iff.1 h
  refine ⟨p, hp, ?_⟩
  split at hv
  · exact .inl hv.symm
  · exact .inr hv.symm

theorem getElem?_foldl_insert_id (l : List (Vertex × Nat)) (m : Std.HashMap Nat Nat) {k i : Nat}
    (h : (l.foldl (fun m (v, i) => m.insert v.id i) m)[k]? = some i) :
    (∃ v, (v, i) ∈ l ∧ v.id = k) ∨ m[k]? = some i := by
  induction l generalizing m with
  | nil => exact .inr h
  | cons x l ih =>
    rcases ih _ h with ⟨v, hv, hk⟩ | hm
    · exact .inl ⟨v, List.mem_cons_of_mem _ hv, hk⟩
    · rw [Std.HashMap.getElem?_insert] at hm
      split at hm
      · next hx =>
        cases hm
        exact .inl ⟨x.1, List.mem_cons_self, beq_iff_eq.1 hx⟩
      · exact .inr hm

/-- A vertex with a slot is the end held there. -/
theorem getElem?_of_endSlots {vertices : List Vertex} {v : Vertex} {k : Nat}
    (h : (endSlots vertices)[v.id]? = some k) : vertices[k]? = some v := by
  rcases getElem?_foldl_insert_id _ _ h with ⟨w, hw, hid⟩ | hm
  · rw [Vertex.id_inj.1 hid] at hw
    exact List.mem_zipIdx_iff_getElem?.1 hw
  · simp at hm

theorem mem_of_mem_eraseRepsBy_loop {r : Nat → Nat → Bool} {x : Nat} :
    ∀ (as : List Nat) (a : Nat) (acc : List Nat), x ∈ List.eraseRepsBy.loop r a as acc →
      x = a ∨ x ∈ as ∨ x ∈ acc := by
  intro as
  induction as with
  | nil =>
    intro a acc h
    simp only [List.eraseRepsBy.loop, List.mem_reverse, List.mem_cons] at h
    rcases h with h | h
    · exact .inl h
    · exact .inr (.inr h)
  | cons a' as ih =>
    intro a acc h
    simp only [List.eraseRepsBy.loop] at h
    split at h
    · rcases ih a acc h with h | h | h
      · exact .inl h
      · exact .inr (.inl (List.mem_cons_of_mem _ h))
      · exact .inr (.inr h)
    · rcases ih a' (a :: acc) h with rfl | h | h
      · exact .inr (.inl List.mem_cons_self)
      · exact .inr (.inl (List.mem_cons_of_mem _ h))
      · rcases List.mem_cons.1 h with rfl | h
        · exact .inl rfl
        · exact .inr (.inr h)

theorem mem_eraseRepsBy_loop {r : Nat → Nat → Bool} (hr : ∀ a b, r a b = true → a = b) {x : Nat} :
    ∀ (as : List Nat) (a : Nat) (acc : List Nat), x = a ∨ x ∈ as ∨ x ∈ acc →
      x ∈ List.eraseRepsBy.loop r a as acc := by
  intro as
  induction as with
  | nil =>
    intro a acc h
    simp only [List.eraseRepsBy.loop, List.mem_reverse, List.mem_cons]
    rcases h with h | h | h
    · exact .inl h
    · nomatch h
    · exact .inr h
  | cons a' as ih =>
    intro a acc h
    simp only [List.eraseRepsBy.loop]
    split
    · next hra =>
      -- `a'` is dropped only as a repeat of `a`
      apply ih
      rcases h with h | h | h
      · exact .inl h
      · rcases List.mem_cons.1 h with h | h
        · exact .inl (h.trans (hr _ _ hra).symm)
        · exact .inr (.inl h)
      · exact .inr (.inr h)
    · apply ih
      rcases h with h | h | h
      · exact .inr (.inr (h ▸ List.mem_cons_self))
      · rcases List.mem_cons.1 h with h | h
        · exact .inl h
        · exact .inr (.inl h)
      · exact .inr (.inr (List.mem_cons_of_mem _ h))

theorem mem_eraseReps {l : List Nat} {x : Nat} : x ∈ l.eraseReps ↔ x ∈ l := by
  cases l with
  | nil => exact Iff.rfl
  | cons a as =>
    constructor
    · intro h
      rcases mem_of_mem_eraseRepsBy_loop as a [] h with rfl | h | h
      · exact List.mem_cons_self
      · exact List.mem_cons_of_mem _ h
      · nomatch h
    · intro h
      apply mem_eraseRepsBy_loop (fun _ _ h => beq_iff_eq.1 h) as a []
      rcases List.mem_cons.1 h with h | h
      · exact .inl h
      · exact .inr (.inl h)

/-- A candidate at the path ends is a live edge between sequences in no host. -/
theorem joinsFree_of_mem_endCandidates {g : AssemblyGraph} {vertices : List Vertex} {id : Nat}
    (h : id ∈ endCandidates g vertices) {e : Edge} (he : g.edge? id = some e) :
    g.joinsFree e = true := by
  simp only [endCandidates, List.mem_mergeSort] at h
  obtain ⟨v, -, hv⟩ := List.mem_flatMap.1 (List.mem_mergeSort.1 (mem_eraseReps.1 h))
  obtain ⟨⟨j, f⟩, hf, rfl⟩ := List.mem_map.1 hv
  obtain ⟨hf, hfree⟩ := List.mem_filter.1 hf
  rw [edge?_of_mem_edgesOf hf, Option.some.injEq] at he
  exact he ▸ hfree

/-- Every live edge between sequences in no host at one of the vertices is a candidate. -/
theorem mem_endCandidates {g : AssemblyGraph} (hi : g.Inv) {vertices : List Vertex} {v : Vertex}
    (hv : v ∈ vertices) {id : Nat} {e : Edge} (he : g.edge? id = some e)
    (hfree : g.joinsFree e = true) (ht : e.Touches v) : id ∈ endCandidates g vertices := by
  have hadj : id ∈ g.adjacent v := (hi.arena.adjacent v id).2 ⟨e, he, ht⟩
  have hmem : (id, e) ∈ g.edgesOf v := by
    simp only [edgesOf, List.mem_filterMap, Option.map_eq_some_iff]
    exact ⟨id, Array.mem_toList_iff.2 hadj, e, he, rfl⟩
  simp only [endCandidates, List.mem_mergeSort]
  rw [mem_eraseReps, List.mem_mergeSort]
  exact List.mem_flatMap.2 ⟨v, hv, List.mem_map.2 ⟨(id, e), List.mem_filter.2 ⟨hmem, hfree⟩, rfl⟩⟩

theorem isSome_foldl_insert_id (l : List (Vertex × Nat)) {m : Std.HashMap Nat Nat} {k : Nat}
    (h : (∃ x ∈ l, x.1.id = k) ∨ m[k]?.isSome) :
    (l.foldl (fun m (v, i) => m.insert v.id i) m)[k]?.isSome := by
  induction l generalizing m with
  | nil =>
    rcases h with ⟨x, hx, -⟩ | h
    · nomatch hx
    · exact h
  | cons x l ih =>
    apply ih
    rcases h with ⟨y, hy, hk⟩ | h
    · rcases List.mem_cons.1 hy with rfl | hy
      · exact .inr (by simp [hk])
      · exact .inl ⟨y, hy, hk⟩
    · refine .inr ?_
      rw [Std.HashMap.getElem?_insert]
      split
      · rfl
      · exact h

/-! ## Slots of the built paths -/

/-- The index of the path holding sequence `s`. -/
def pathOf (paths : List Path) (g : AssemblyGraph) (s : Nat) : Nat :=
  paths.findIdx fun p => decide (s ∈ p.sequenceIds g)

/-- The slot of an end vertex, if it is one. -/
def slotOf (paths : List Path) (v : Vertex) : Option Nat := (endSlots (pathEnds paths))[v.id]?

theorem exists_slotOf {paths : List Path} {v : Vertex} (hv : v ∈ pathEnds paths) :
    ∃ k, slotOf paths v = some k := by
  obtain ⟨k, hk⟩ := List.getElem?_of_mem hv
  exact Option.isSome_iff_exists.1
    (isSome_foldl_insert_id _ (.inl ⟨(v, k), List.mem_zipIdx_iff_getElem?.2 hk, rfl⟩))

/-- Two ends in one slot are one vertex. -/
theorem eq_of_slotOf {paths : List Path} {v w : Vertex} {k : Nat} (hv : slotOf paths v = some k)
    (hw : slotOf paths w = some k) : v = w := by
  have h := (getElem?_of_endSlots hv).symm.trans (getElem?_of_endSlots hw)
  exact Option.some.inj h

/-- With the two slots of each path in one class, a slot is in the class of the left slot of
its path. -/
theorem find_half {paths : List Path} {uf : UnionFind}
    (hpaired : ∀ i < paths.length, uf.find (2 * i) = uf.find (2 * i + 1)) {k : Nat}
    (hk : k / 2 < paths.length) : uf.find k = uf.find (2 * (k / 2)) := by
  rcases Nat.mod_two_eq_zero_or_one k with hk2 | hk2
  · rw [show 2 * (k / 2) = k by omega]
  · rw [show k = 2 * (k / 2) + 1 by omega, ← hpaired _ hk]
    congr 2
    omega

section built

variable {g : AssemblyGraph} (h : g.Reachable) {ids : List Nat}
include h

theorem pathOf_eq {i : Nat} {p : Path} (hp : (g.buildPaths ids)[i]? = some p) {s : Nat}
    (hs : s ∈ p.sequenceIds g) : pathOf (g.buildPaths ids) g s = i := by
  have hex : ∃ q ∈ g.buildPaths ids, decide (s ∈ q.sequenceIds g) = true :=
    ⟨p, List.mem_of_getElem? hp, by simpa using hs⟩
  have hlt := List.findIdx_lt_length_of_exists hex
  have hq := List.findIdx_getElem (w := hlt)
  exact buildPaths_index_eq h ids (List.getElem?_eq_getElem hlt) hp (by simpa using hq) hs

/-- The class of a slot is that of the left slot of the path holding its end's sequence. -/
theorem find_slot {uf : UnionFind}
    (hpaired : ∀ i < (g.buildPaths ids).length, uf.find (2 * i) = uf.find (2 * i + 1))
    {k : Nat} {v : Vertex} (hk : (pathEnds (g.buildPaths ids))[k]? = some v) :
    uf.find k = uf.find (2 * pathOf (g.buildPaths ids) g v.sequence) := by
  obtain ⟨p, hp, hv⟩ := end_of_getElem?_pathEnds hk
  obtain ⟨us, hw⟩ := (buildPaths_cover h ids).walks p (List.mem_of_getElem? hp)
  have hseq : v.sequence ∈ p.sequenceIds g := by
    rcases hv with rfl | rfl
    · exact hw.left_mem
    · exact hw.right_mem
  rw [pathOf_eq h hp hseq]
  exact find_half hpaired (List.getElem?_eq_some_iff.1 hp).1

/-- The sequences of an overlap edge of the built paths lie in one path. -/
theorem pathOf_usesOverlap {x : Nat × Edge} (hx : g.UsesOverlap (g.buildPaths ids) x) :
    pathOf (g.buildPaths ids) g x.2.v1.sequence = pathOf (g.buildPaths ids) g x.2.v2.sequence := by
  obtain ⟨p, hp, h1, h2⟩ := buildPaths_sequences h ids hx
  obtain ⟨i, hi⟩ := List.getElem?_of_mem hp
  rw [pathOf_eq h hi h1, pathOf_eq h hi h2]

/-- The two ends of a built path are joined by the overlap edges of the built paths. -/
theorem joined_left_right {p : Path} (hp : p ∈ g.buildPaths ids) :
    Joined (g.UsesOverlap (g.buildPaths ids)) p.left.sequence p.right.sequence := by
  obtain ⟨us, hw⟩ := (buildPaths_cover h ids).walks p hp
  exact hw.joined_ends.mono fun x hx => ⟨⟨p, hp, Array.mem_toList_iff.1 hx.1⟩, hx.2⟩

/-- No overlap edge of the built paths touches a vertex with a slot. -/
theorem not_touches_of_slotOf {x : Nat × Edge} (hx : g.UsesOverlap (g.buildPaths ids) x)
    {v : Vertex} {k : Nat} (hv : slotOf (g.buildPaths ids) v = some k) : ¬ x.2.Touches v := by
  obtain ⟨p, hp, hend⟩ := end_of_getElem?_pathEnds (getElem?_of_endSlots hv)
  have hends := buildPaths_ends h ids (List.mem_of_getElem? hp) hx
  rcases hend with rfl | rfl
  · exact hends.1
  · exact hends.2

end built

/-! ## What the loop keeps -/

theorem getD_set!_of_getD {used : Array Bool} {k : Nat} (p : Nat) (h : used.getD k false = true) :
    (used.set! p true).getD k false = true := by
  simp only [Array.getD_eq_getD_getElem?, Array.set!_eq_setIfInBounds,
    Array.getElem?_setIfInBounds] at *
  split
  · split <;> simp_all
  · exact h

theorem getD_set!_self {used : Array Bool} {p : Nat} (h : p < used.size) :
    (used.set! p true).getD p false = true := by
  simp [Array.getD_eq_getD_getElem?, Array.set!_eq_setIfInBounds, h]

/-- A slot marked taken was taken before or is the one just marked. -/
theorem getD_of_getD_set! {used : Array Bool} {p k : Nat} (h : (used.set! p true).getD k false = true) :
    used.getD k false = true ∨ k = p := by
  simp only [Array.getD_eq_getD_getElem?, Array.set!_eq_setIfInBounds,
    Array.getElem?_setIfInBounds] at h ⊢
  split at h
  · next hpk => exact .inr hpk.symm
  · exact .inl h

theorem pairSlots_succ (n : Nat) (c : UnionFind) :
    pairSlots (n + 1) c = ((pairSlots n c).union (2 * n) (2 * n + 1)).2 := by
  simp only [pairSlots, List.range_succ, List.foldl_append, List.foldl_cons, List.foldl_nil]

theorem pairSlots_spec (n : Nat) {c : UnionFind} (hc : c.WF) :
    (pairSlots n c).WF ∧ ∀ i < n, (pairSlots n c).find (2 * i) = (pairSlots n c).find (2 * i + 1) := by
  induction n with
  | zero => exact ⟨hc, fun i hi => absurd hi (Nat.not_lt_zero i)⟩
  | succ n ih =>
    have hU := UnionFind.union_spec ih.1 (2 * n) (2 * n + 1)
    rw [pairSlots_succ]
    refine ⟨hU.2.1, fun i hi => ?_⟩
    rcases Nat.lt_succ_iff_lt_or_eq.1 hi with hi | rfl
    · exact UnionFind.find_union_of_find_eq ih.1 _ _ (ih.2 i hi)
    · exact (hU.2.2 _ _).2 (.inr (.inl ⟨rfl, rfl⟩))

/-- Before any edge is chosen, two slots are in one class only if they hold the ends of one
path. -/
theorem pairSlots_find_eq (n m : Nat) {a b : Nat}
    (h : (pairSlots n (UnionFind.new m)).find a = (pairSlots n (UnionFind.new m)).find b) :
    a / 2 = b / 2 := by
  induction n generalizing a b with
  | zero =>
    rw [pairSlots, List.range_zero, List.foldl_nil, UnionFind.find_new, UnionFind.find_new] at h
    rw [h]
  | succ n ih =>
    rw [pairSlots_succ, ((UnionFind.union_spec (pairSlots_spec n (UnionFind.wf_new m)).1 _ _).2.2)] at h
    rcases h with h | ⟨h1, h2⟩ | ⟨h1, h2⟩
    · exact ih h
    · have h1 := ih h1
      have h2 := ih h2
      omega
    · have h1 := ih h1
      have h2 := ih h2
      omega

/-- A candidate between two ends within the limit was chosen, or one of its ends was taken, or
the slots of its ends were in one class. -/
def Settled (g : AssemblyGraph) (ids : List Nat) (limit : Float) (used : Array Bool)
    (uf : UnionFind) (chosen : List Nat) (id : Nat) : Prop :=
  ∀ e p₁ p₂, g.edge? id = some e → slotOf (g.buildPaths ids) e.v1 = some p₁ →
    slotOf (g.buildPaths ids) e.v2 = some p₂ → ¬ limit < e.evidence.indelsPerKbp →
      id ∈ chosen ∨ used.getD p₁ false = true ∨ used.getD p₂ false = true ∨ uf.find p₁ = uf.find p₂

/-- What the loop keeps over the paths built from `ids` after the candidates `seen`, with
`used` the ends already taken, `uf` the classes of slots and `chosen` the edges taken so far. -/
structure ConnectState (g : AssemblyGraph) (ids : List Nat) (limit : Float) (seen : List Nat)
    (used : Array Bool) (uf : UnionFind) (chosen : List Nat) : Prop where
  wf : uf.WF
  paired : ∀ i < (g.buildPaths ids).length, uf.find (2 * i) = uf.find (2 * i + 1)
  size : used.size = (pathEnds (g.buildPaths ids)).length
  /-- A chosen edge is a live edge between sequences in no host, from an end of one path to an
  end of another, both ends taken and their slots in one class. -/
  joins : ∀ id ∈ chosen, ∃ e p1 p2, g.edge? id = some e ∧ g.joinsFree e = true ∧
    slotOf (g.buildPaths ids) e.v1 = some p1 ∧ slotOf (g.buildPaths ids) e.v2 = some p2 ∧
    p1 / 2 ≠ p2 / 2 ∧ uf.find p1 = uf.find p2 ∧ used.getD p1 false = true ∧
      used.getD p2 false = true
  matching : ∀ id₁ ∈ chosen, ∀ id₂ ∈ chosen, ∀ (e₁ e₂ : Edge) (v : Vertex), g.edge? id₁ = some e₁ →
    g.edge? id₂ = some e₂ → e₁.Touches v → e₂.Touches v → id₁ = id₂
  forest : Forest fun y => g.UsesOverlap (g.buildPaths ids) y ∨ (y.1 ∈ chosen ∧ g.edge? y.1 = some y.2)
  /-- A taken end is an end of a chosen edge. -/
  taken : ∀ k, used.getD k false = true → ∃ id ∈ chosen, ∃ e, g.edge? id = some e ∧
    (slotOf (g.buildPaths ids) e.v1 = some k ∨ slotOf (g.buildPaths ids) e.v2 = some k)
  /-- Ends whose slots are in one class have sequences joined by the old overlap edges and the
  chosen ones. -/
  classes : ∀ k₁ k₂ v₁ v₂, (pathEnds (g.buildPaths ids))[k₁]? = some v₁ →
    (pathEnds (g.buildPaths ids))[k₂]? = some v₂ → uf.find k₁ = uf.find k₂ →
      Joined (fun y => g.UsesOverlap (g.buildPaths ids) y ∨ (y.1 ∈ chosen ∧ g.edge? y.1 = some y.2))
        v₁.sequence v₂.sequence
  settled : ∀ id ∈ seen, Settled g ids limit used uf chosen id

section state

variable {g : AssemblyGraph} {ids : List Nat} {limit : Float} {seen : List Nat} {used : Array Bool}
  {uf : UnionFind} {chosen : List Nat}

/-- More chosen edges, more taken ends and coarser classes keep a candidate settled. -/
theorem Settled.mono {id : Nat} (h : Settled g ids limit used uf chosen id) {used' : Array Bool}
    {uf' : UnionFind} {chosen' : List Nat} (hc : ∀ a ∈ chosen, a ∈ chosen')
    (hu : ∀ k, used.getD k false = true → used'.getD k false = true)
    (hf : ∀ a b, uf.find a = uf.find b → uf'.find a = uf'.find b) :
    Settled g ids limit used' uf' chosen' id := by
  intro e p₁ p₂ he h₁ h₂ hlim
  rcases h e p₁ p₂ he h₁ h₂ hlim with h | h | h | h
  · exact .inl (hc id h)
  · exact .inr (.inl (hu _ h))
  · exact .inr (.inr (.inl (hu _ h)))
  · exact .inr (.inr (.inr (hf _ _ h)))

theorem connectState_init (h : g.Reachable) (ids : List Nat) (limit : Float) :
    ConnectState g ids limit [] (Array.replicate (pathEnds (g.buildPaths ids)).length false)
      (pairSlots (g.buildPaths ids).length (UnionFind.new (pathEnds (g.buildPaths ids)).length)) []
    where
  wf := (pairSlots_spec _ (UnionFind.wf_new _)).1
  paired := (pairSlots_spec _ (UnionFind.wf_new _)).2
  size := Array.size_replicate
  joins _ hid := nomatch hid
  matching _ hid := nomatch hid
  forest := Forest.congr (fun y => by simp) (buildPaths_maximalForest h ids).forest
  taken k hk := by
    simp only [Array.getD_eq_getD_getElem?, Array.getElem?_replicate] at hk
    split at hk <;> simp at hk
  classes k₁ k₂ v₁ v₂ h₁ h₂ hk := by
    -- at the start the classes are the pairs of ends of one path
    obtain ⟨p, hp, hv₁⟩ := end_of_getElem?_pathEnds h₁
    obtain ⟨q, hq, hv₂⟩ := end_of_getElem?_pathEnds h₂
    rw [pairSlots_find_eq _ _ hk, hq, Option.some.injEq] at hp
    subst hp
    have hJ : Joined (fun y => g.UsesOverlap (g.buildPaths ids) y ∨ (y.1 ∈ [] ∧ g.edge? y.1 = some y.2))
        q.left.sequence q.right.sequence :=
      Joined.mono (fun _ hy => .inl hy) (joined_left_right h (List.mem_of_getElem? hq))
    rcases hv₁ with rfl | rfl <;> rcases hv₂ with rfl | rfl
    · exact .refl _
    · exact hJ
    · exact Joined.comm.1 hJ
    · exact .refl _
  settled _ hid := nomatch hid

/-- An end of a chosen edge has a slot, and it is taken. -/
theorem ConnectState.used_of_touches (hs : ConnectState g ids limit seen used uf chosen) {id : Nat}
    {e : Edge} (hid : id ∈ chosen) (he : g.edge? id = some e) {v : Vertex} (hv : e.Touches v) :
    ∃ k, slotOf (g.buildPaths ids) v = some k ∧ used.getD k false = true := by
  obtain ⟨e', p1, p2, he', -, h1, h2, -, -, hu1, hu2⟩ := hs.joins id hid
  rw [he, Option.some.injEq] at he'
  subst he'
  rcases hv with rfl | rfl
  · exact ⟨p1, h1, hu1⟩
  · exact ⟨p2, h2, hu2⟩

/-- A taken end is touched by a chosen edge. -/
theorem ConnectState.touched_of_used (hs : ConnectState g ids limit seen used uf chosen) {v : Vertex}
    {k : Nat} (hv : slotOf (g.buildPaths ids) v = some k) (hk : used.getD k false = true) :
    ∃ id ∈ chosen, ∃ e, g.edge? id = some e ∧ e.Touches v := by
  obtain ⟨id, hid, e, he, hslot⟩ := hs.taken k hk
  refine ⟨id, hid, e, he, ?_⟩
  rcases hslot with hslot | hslot
  · exact .inl (eq_of_slotOf hslot hv)
  · exact .inr (eq_of_slotOf hslot hv)

/-- A candidate the loop has settled joins the candidates seen. -/
theorem ConnectState.see (hs : ConnectState g ids limit seen used uf chosen) {id : Nat}
    (hid : Settled g ids limit used uf chosen id) :
    ConnectState g ids limit (seen ++ [id]) used uf chosen :=
  { hs with
    settled := fun a ha => by
      rcases List.mem_append.1 ha with ha | ha
      · exact hs.settled a ha
      · rw [List.mem_singleton.1 ha]
        exact hid }

/-- A union of two slots of one class keeps what the loop keeps. -/
theorem ConnectState.union (hs : ConnectState g ids limit seen used uf chosen) {a b : Nat}
    (hab : uf.find a = uf.find b) : ConnectState g ids limit seen used (uf.union a b).2 chosen := by
  have hsame := UnionFind.find_union_of_eq hs.wf hab
  refine ⟨(UnionFind.union_spec hs.wf a b).2.1, fun i hi => (hsame _ _).2 (hs.paired i hi), hs.size,
    fun id hid => ?_, hs.matching, hs.forest, hs.taken,
    fun k₁ k₂ v₁ v₂ h₁ h₂ hk => hs.classes k₁ k₂ v₁ v₂ h₁ h₂ ((hsame _ _).1 hk),
    fun id hid => (hs.settled id hid).mono (fun _ h => h) (fun _ h => h) fun _ _ h => (hsame _ _).2 h⟩
  obtain ⟨e, p1, p2, he, hfree, h1, h2, hne, hfind, hu1, hu2⟩ := hs.joins id hid
  exact ⟨e, p1, p2, he, hfree, h1, h2, hne, (hsame _ _).2 hfind, hu1, hu2⟩

/-- Taking an edge between two untaken ends whose slots lie in two classes. -/
theorem ConnectState.take (h : g.Reachable) (hs : ConnectState g ids limit seen used uf chosen)
    {id : Nat} {e : Edge} (he : g.edge? id = some e) (hfree : g.joinsFree e = true) {p1 p2 : Nat}
    (h1 : slotOf (g.buildPaths ids) e.v1 = some p1) (h2 : slotOf (g.buildPaths ids) e.v2 = some p2)
    (hu1 : used.getD p1 false = false) (hu2 : used.getD p2 false = false)
    (hapart : uf.find p1 ≠ uf.find p2) :
    ConnectState g ids limit seen ((used.set! p1 true).set! p2 true) (uf.union p1 p2).2
      (chosen ++ [id]) := by
  have hk1 := getElem?_of_endSlots h1
  have hk2 := getElem?_of_endSlots h2
  obtain ⟨q1, hq1, -⟩ := end_of_getElem?_pathEnds hk1
  obtain ⟨q2, hq2, -⟩ := end_of_getElem?_pathEnds hk2
  have hlt1 : p1 < used.size := hs.size ▸ (List.getElem?_eq_some_iff.1 hk1).1
  have hlt2 : p2 < used.size := hs.size ▸ (List.getElem?_eq_some_iff.1 hk2).1
  have hU := UnionFind.union_spec hs.wf p1 p2
  have hused : ∀ k, used.getD k false = true → ((used.set! p1 true).set! p2 true).getD k false = true :=
    fun k hk => getD_set!_of_getD _ (getD_set!_of_getD _ hk)
  have hmono : ∀ y, (g.UsesOverlap (g.buildPaths ids) y ∨ (y.1 ∈ chosen ∧ g.edge? y.1 = some y.2)) →
      g.UsesOverlap (g.buildPaths ids) y ∨ (y.1 ∈ chosen ++ [id] ∧ g.edge? y.1 = some y.2) := by
    rintro y (hy | ⟨hy, hye⟩)
    · exact .inl hy
    · exact .inr ⟨List.mem_append_left _ hy, hye⟩
  have hidmem : id ∈ chosen ++ [id] := List.mem_append_right _ (List.mem_singleton_self _)
  -- an end of the new edge is no end of an edge taken before
  have hfresh : ∀ a ∈ chosen, ∀ (e₁ : Edge) (v : Vertex), g.edge? a = some e₁ → e₁.Touches v →
      ¬ e.Touches v := by
    intro a ha e₁ v hea ht1 ht
    obtain ⟨k, hk, hku⟩ := hs.used_of_touches ha hea ht1
    rcases ht with rfl | rfl
    · rw [h1, Option.some.injEq] at hk
      rw [← hk, hu1] at hku
      exact Bool.false_ne_true hku
    · rw [h2, Option.some.injEq] at hk
      rw [← hk, hu2] at hku
      exact Bool.false_ne_true hku
  have hne : p1 / 2 ≠ p2 / 2 := by
    intro heq
    apply hapart
    rw [find_half hs.paired (List.getElem?_eq_some_iff.1 hq1).1,
      find_half hs.paired (List.getElem?_eq_some_iff.1 hq2).1, heq]
  -- the classes of slots refine the sequences joined so far: each path's slots are one class
  have hclass : ∀ x, (g.UsesOverlap (g.buildPaths ids) x ∨ (x.1 ∈ chosen ∧ g.edge? x.1 = some x.2)) →
      uf.find (2 * pathOf (g.buildPaths ids) g x.2.v1.sequence) =
        uf.find (2 * pathOf (g.buildPaths ids) g x.2.v2.sequence) := by
    rintro x (hx | ⟨hx, hxe⟩)
    · rw [pathOf_usesOverlap h hx]
    · obtain ⟨e', k1, k2, he', -, hk1, hk2, -, hfind, -, -⟩ := hs.joins x.1 hx
      rw [hxe, Option.some.injEq] at he'
      subst he'
      rw [← find_slot h hs.paired (getElem?_of_endSlots hk1),
        ← find_slot h hs.paired (getElem?_of_endSlots hk2)]
      exact hfind
  have hnew : ¬ (g.UsesOverlap (g.buildPaths ids) (id, e) ∨ (id ∈ chosen ∧ g.edge? id = some e)) := by
    rintro (hx | ⟨hid, -⟩)
    · exact not_touches_of_slotOf h hx h1 (.inl rfl)
    · exact hfresh id hid e e.v1 he (.inl rfl) (.inl rfl)
  have hcycle : ¬ Joined (fun y => g.UsesOverlap (g.buildPaths ids) y ∨
      (y.1 ∈ chosen ∧ g.edge? y.1 = some y.2)) e.v1.sequence e.v2.sequence := by
    intro hJ
    apply hapart
    rw [find_slot h hs.paired hk1, find_slot h hs.paired hk2]
    exact Joined.map_eq (fun s => uf.find (2 * pathOf (g.buildPaths ids) g s)) hclass hJ
  refine ⟨hU.2.1, fun i hi => UnionFind.find_union_of_find_eq hs.wf p1 p2 (hs.paired i hi),
    by rw [Array.size_set!, Array.size_set!, hs.size], ?joins, ?matching, ?forest, ?taken, ?classes,
    fun a ha => (hs.settled a ha).mono (fun _ h => List.mem_append_left _ h) hused
      fun _ _ h => UnionFind.find_union_of_find_eq hs.wf p1 p2 h⟩
  case joins =>
    intro a ha
    rcases List.mem_append.1 ha with ha | ha
    · obtain ⟨e', k1, k2, he', hfree', hk1, hk2, hne', hfind, hku1, hku2⟩ := hs.joins a ha
      exact ⟨e', k1, k2, he', hfree', hk1, hk2, hne',
        UnionFind.find_union_of_find_eq hs.wf p1 p2 hfind, hused _ hku1, hused _ hku2⟩
    · rw [List.mem_singleton] at ha
      subst ha
      refine ⟨e, p1, p2, he, hfree, h1, h2, hne, (hU.2.2 p1 p2).2 (.inr (.inl ⟨rfl, rfl⟩)),
        getD_set!_of_getD _ (getD_set!_self hlt1), getD_set!_self ?_⟩
      rw [Array.size_set!]
      exact hlt2
  case matching =>
    intro a ha b hb e₁ e₂ v hea heb ht1 ht2
    rcases List.mem_append.1 ha with ha | ha <;> rcases List.mem_append.1 hb with hb | hb
    · exact hs.matching a ha b hb e₁ e₂ v hea heb ht1 ht2
    · rw [List.mem_singleton] at hb
      rw [hb, he, Option.some.injEq] at heb
      exact absurd (heb ▸ ht2) (hfresh a ha e₁ v hea ht1)
    · rw [List.mem_singleton] at ha
      rw [ha, he, Option.some.injEq] at hea
      exact absurd (hea ▸ ht1) (hfresh b hb e₂ v heb ht2)
    · rw [List.mem_singleton] at ha hb
      rw [ha, hb]
  case forest =>
    refine Forest.congr (fun y => ?_) (hs.forest.insert hnew hcycle)
    constructor
    · rintro (hy | rfl)
      · exact hmono y hy
      · exact .inr ⟨hidmem, he⟩
    · rintro (hy | ⟨hy, hye⟩)
      · exact .inl (.inl hy)
      · rcases List.mem_append.1 hy with hy | hy
        · exact .inl (.inr ⟨hy, hye⟩)
        · rw [List.mem_singleton] at hy
          rw [hy, he, Option.some.injEq] at hye
          exact .inr (Prod.ext hy hye.symm)
  case taken =>
    intro k hk
    rcases getD_of_getD_set! hk with hk | rfl
    · rcases getD_of_getD_set! hk with hk | rfl
      · obtain ⟨a, ha, e', he', hslot⟩ := hs.taken k hk
        exact ⟨a, List.mem_append_left _ ha, e', he', hslot⟩
      · exact ⟨id, hidmem, e, he, .inl h1⟩
    · exact ⟨id, hidmem, e, he, .inr h2⟩
  case classes =>
    intro k₁ k₂ v₁ v₂ h₁ h₂ hk
    have hedge : Joined (fun y => g.UsesOverlap (g.buildPaths ids) y ∨
        (y.1 ∈ chosen ++ [id] ∧ g.edge? y.1 = some y.2)) e.v1.sequence e.v2.sequence :=
      .rel _ _ ⟨(id, e), .inr ⟨hidmem, he⟩, rfl, rfl⟩
    -- the new class is the old class of one end, the new edge, and the old class of the other
    rcases (hU.2.2 k₁ k₂).1 hk with hk | ⟨hc1, hc2⟩ | ⟨hc1, hc2⟩
    · exact Joined.mono hmono (hs.classes k₁ k₂ v₁ v₂ h₁ h₂ hk)
    · exact .trans _ _ _ (Joined.mono hmono (hs.classes k₁ p1 v₁ e.v1 h₁ hk1 hc1))
        (.trans _ _ _ hedge (Joined.mono hmono (hs.classes p2 k₂ e.v2 v₂ hk2 h₂ hc2.symm)))
    · exact .trans _ _ _ (Joined.mono hmono (hs.classes k₁ p2 v₁ e.v2 h₁ hk2 hc1))
        (.trans _ _ _ (Joined.comm.1 hedge)
          (Joined.mono hmono (hs.classes p1 k₂ e.v1 v₂ hk1 h₂ hc2.symm)))

theorem slotOf_eq_get? (paths : List Path) (v : Vertex) :
    slotOf paths v = (endSlots (pathEnds paths)).get? v.id :=
  (Std.HashMap.get?_eq_getElem? ..).symm

/-- A candidate is settled by what the loop does at its own edge and slots. -/
theorem settled_of_slots {id : Nat} {e : Edge} (he : g.edge? id = some e) {p1 p2 : Nat}
    (h1 : slotOf (g.buildPaths ids) e.v1 = some p1) (h2 : slotOf (g.buildPaths ids) e.v2 = some p2)
    (hall : ¬ limit < e.evidence.indelsPerKbp → id ∈ chosen ∨ used.getD p1 false = true ∨
      used.getD p2 false = true ∨ uf.find p1 = uf.find p2) :
    Settled g ids limit used uf chosen id := by
  intro e' q1 q2 he' hq1 hq2
  rw [he, Option.some.injEq] at he'
  subst he'
  rw [h1, Option.some.injEq] at hq1
  rw [h2, Option.some.injEq] at hq2
  subst hq1 hq2
  exact hall

/-- One candidate keeps what the loop keeps, when it is a live edge between sequences in no
host, and the candidate is then settled. -/
theorem ConnectState.step (h : g.Reachable) {chosen : Array Nat}
    (hs : ConnectState g ids limit seen used uf chosen.toList) {id : Nat}
    (hid : ∀ e, g.edge? id = some e → g.joinsFree e = true) :
    ∃ used' uf' chosen', connectStep g (endSlots (pathEnds (g.buildPaths ids))) limit
      (used, uf, chosen) id = (used', uf', chosen') ∧
        ConnectState g ids limit (seen ++ [id]) used' uf' chosen'.toList := by
  unfold connectStep
  dsimp only
  split
  · next hnone =>
    refine ⟨_, _, _, rfl, hs.see fun e _ _ he => ?_⟩
    rw [hnone] at he
    nomatch he
  · next e he =>
    split
    · next p1 p2 h1 h2 =>
      rw [← slotOf_eq_get?] at h1 h2
      split
      · next hguard =>
        refine ⟨_, _, _, rfl, hs.see (settled_of_slots he h1 h2 fun hlim => ?_)⟩
        simp only [Bool.or_eq_true, decide_eq_true_eq] at hguard
        rcases hguard with (hu | hu) | hl
        · exact .inr (.inl hu)
        · exact .inr (.inr (.inl hu))
        · exact absurd hl hlim
      · next hguard =>
        simp only [Bool.or_eq_true, not_or, Bool.not_eq_true] at hguard
        obtain ⟨⟨hu1, hu2⟩, -⟩ := hguard
        split
        · next hjoined =>
          have hapart : uf.find p1 ≠ uf.find p2 := by
            rw [(UnionFind.union_spec hs.wf p1 p2).1] at hjoined
            simpa using hjoined
          refine ⟨_, _, _, rfl, ?_⟩
          rw [Array.toList_push]
          exact (hs.take h he (hid e he) h1 h2 hu1 hu2 hapart).see
            (settled_of_slots he h1 h2 fun _ => .inl (List.mem_append_right _ (List.mem_singleton_self _)))
        · next hjoined =>
          have hsame : uf.find p1 = uf.find p2 := by
            rw [(UnionFind.union_spec hs.wf p1 p2).1] at hjoined
            simpa using hjoined
          exact ⟨_, _, _, rfl, (hs.union hsame).see (settled_of_slots he h1 h2 fun _ =>
            .inr (.inr (.inr (UnionFind.find_union_of_find_eq hs.wf p1 p2 hsame))))⟩
    · next hslots =>
      -- an end without a slot: the candidate was never between two ends
      refine ⟨_, _, _, rfl, hs.see fun e' p₁ p₂ he' h₁ h₂ _ => ?_⟩
      rw [he, Option.some.injEq] at he'
      subst he'
      rw [slotOf_eq_get?] at h₁ h₂
      exact absurd h₂ (hslots p₁ p₂ h₁)

/-- The loop over live edges between sequences in no host keeps what the loop keeps and
settles every candidate. -/
theorem ConnectState.foldl (h : g.Reachable) {l : List Nat}
    (hl : ∀ id ∈ l, ∀ e, g.edge? id = some e → g.joinsFree e = true) {chosen : Array Nat}
    (hs : ConnectState g ids limit seen used uf chosen.toList) :
    ∃ used' uf' chosen', l.foldl (connectStep g (endSlots (pathEnds (g.buildPaths ids))) limit)
      (used, uf, chosen) = (used', uf', chosen') ∧
        ConnectState g ids limit (seen ++ l) used' uf' chosen'.toList := by
  induction l generalizing seen used uf chosen with
  | nil => exact ⟨_, _, _, rfl, by rw [List.append_nil]; exact hs⟩
  | cons id l ih =>
    obtain ⟨used', uf', chosen', hstep, hs'⟩ := hs.step h (hl id List.mem_cons_self)
    rw [List.foldl_cons, hstep, ← List.singleton_append, ← List.append_assoc]
    exact ih (fun id hid => hl id (List.mem_cons_of_mem _ hid)) hs'

/-- What the loop leaves: every candidate at the path ends seen. -/
theorem connectingEdges_state (h : g.Reachable) (t : LayoutThresholds) (ids : List Nat) :
    ∃ used uf, ConnectState g ids (t.indelLimit g ids) (endCandidates g (pathEnds (g.buildPaths ids)))
      used uf (t.connectingEdges g (g.buildPaths ids) ids) := by
  obtain ⟨used, uf, chosen, hfold, hs⟩ := ConnectState.foldl h
    (fun _ hid _ he => joinsFree_of_mem_endCandidates hid he)
    (show ConnectState g ids _ [] _ _ (#[] : Array Nat).toList from connectState_init h ids _)
  refine ⟨used, uf, ?_⟩
  rw [connectingEdges_eq, hfold]
  exact hs

/-- The old overlap edges with the chosen ones are the maximal forest of the ids and the chosen
edges: a candidate among the ids that the old paths left out is still left out, by an earlier
old edge at one of its ends or by earlier old edges joining its ends. -/
theorem ConnectState.maximalForest (h : g.Reachable)
    (hs : ConnectState g ids limit seen used uf chosen) :
    MaximalForest g (ids ++ chosen) fun y =>
      g.UsesOverlap (g.buildPaths ids) y ∨ (y.1 ∈ chosen ∧ g.edge? y.1 = some y.2) where
  live := by
    rintro x (hx | ⟨-, hx⟩)
    · exact hx.2.1
    · exact hx
  used := by
    rintro x (hx | ⟨hx, hxe⟩)
    · obtain ⟨hids, hfree⟩ := (buildPaths_maximalForest h ids).used x hx
      exact ⟨List.mem_append_left _ hids, hfree⟩
    · obtain ⟨e, -, -, he, hfree, -⟩ := hs.joins x.1 hx
      rw [hxe, Option.some.injEq] at he
      exact ⟨List.mem_append_right _ hx, he ▸ hfree⟩
  matching := by
    rintro x y v (hx | ⟨hx, hxe⟩) (hy | ⟨hy, hye⟩) htx hty
    · exact (buildPaths_maximalForest h ids).matching x y v hx hy htx hty
    · obtain ⟨k, hk, -⟩ := hs.used_of_touches hy hye hty
      exact absurd htx (not_touches_of_slotOf h hx hk)
    · obtain ⟨k, hk, -⟩ := hs.used_of_touches hx hxe htx
      exact absurd hty (not_touches_of_slotOf h hy hk)
    · have hid := hs.matching x.1 hx y.1 hy x.2 y.2 v hxe hye htx hty
      rw [hid, hye, Option.some.injEq] at hxe
      exact Prod.ext hid hxe.symm
  forest := hs.forest
  maximal := by
    intro x hx he hfree hA
    rcases List.mem_append.1 hx with hx | hx
    · have hU : ¬ g.UsesOverlap (g.buildPaths ids) x := fun hU => hA (.inl hU)
      rcases (buildPaths_maximalForest h ids).maximal x hx he hfree hU with ⟨y, hy, hyx, hyt⟩ | hJ
      · exact .inl ⟨y, .inl hy, hyx, hyt⟩
      · exact .inr (hJ.mono fun y hy => ⟨.inl hy.1, hy.2⟩)
    · exact absurd (.inr ⟨hx, he⟩) hA

/-- Once every candidate at the path ends is seen, a live edge between sequences in no host,
from an end to an end and within the limit, is chosen, meets a chosen edge at an end, or has its
ends joined by the old overlap edges and the chosen ones. -/
theorem ConnectState.maximal (h : g.Reachable)
    (hs : ConnectState g ids limit (endCandidates g (pathEnds (g.buildPaths ids))) used uf chosen)
    {id : Nat} {e : Edge} (he : g.edge? id = some e) (hfree : g.joinsFree e = true)
    (h1 : e.v1 ∈ pathEnds (g.buildPaths ids)) (h2 : e.v2 ∈ pathEnds (g.buildPaths ids))
    (hlim : ¬ limit < e.evidence.indelsPerKbp) (hid : id ∉ chosen) :
    (∃ a ∈ chosen, ∃ f, g.edge? a = some f ∧ (f.Touches e.v1 ∨ f.Touches e.v2)) ∨
      Joined (fun y => g.UsesOverlap (g.buildPaths ids) y ∨ (y.1 ∈ chosen ∧ g.edge? y.1 = some y.2))
        e.v1.sequence e.v2.sequence := by
  obtain ⟨p1, hp1⟩ := exists_slotOf h1
  obtain ⟨p2, hp2⟩ := exists_slotOf h2
  have hcand := mem_endCandidates h.inv h1 he hfree (.inl rfl)
  rcases hs.settled id hcand e p1 p2 he hp1 hp2 hlim with hc | hu | hu | hf
  · exact absurd hc hid
  · obtain ⟨a, ha, f, hf, ht⟩ := hs.touched_of_used hp1 hu
    exact .inl ⟨a, ha, f, hf, .inl ht⟩
  · obtain ⟨a, ha, f, hf, ht⟩ := hs.touched_of_used hp2 hu
    exact .inl ⟨a, ha, f, hf, .inr ht⟩
  · exact .inr (hs.classes p1 p2 e.v1 e.v2 (getElem?_of_endSlots hp1) (getElem?_of_endSlots hp2) hf)

end state

/-! ## Joining paths end to end -/

/-- Edges `X` that join the paths built from `ids` end to end, the most that can be joined
within the indel limit: each a live overlap edge from an end of one path to an end of another,
no two at one vertex, closing no cycle with the paths' own overlap edges; every other live edge
between sequences in no host from an end to an end within the limit meets an edge of `X` at an
end or closes a cycle; and the paths built from `ids` and `X` use exactly the old overlap edges
and those of `X`. -/
structure EndJoins (g : AssemblyGraph) (ids : List Nat) (limit : Float) (X : List Nat) : Prop where
  ends : ∀ id ∈ X, ∃ e, g.edge? id = some e ∧ e.isIdentity = false ∧ ∃ (i j : Nat) (p q : Path),
    (g.buildPaths ids)[i]? = some p ∧ (g.buildPaths ids)[j]? = some q ∧ i ≠ j ∧
      (e.v1 = p.left ∨ e.v1 = p.right) ∧ (e.v2 = q.left ∨ e.v2 = q.right)
  matching : ∀ id₁ ∈ X, ∀ id₂ ∈ X, ∀ (e₁ e₂ : Edge) (v : Vertex), g.edge? id₁ = some e₁ →
    g.edge? id₂ = some e₂ → e₁.Touches v → e₂.Touches v → id₁ = id₂
  forest : Forest fun y => g.UsesOverlap (g.buildPaths ids) y ∨ (y.1 ∈ X ∧ g.edge? y.1 = some y.2)
  maximal : ∀ id e, g.edge? id = some e → g.joinsFree e = true →
    e.v1 ∈ pathEnds (g.buildPaths ids) → e.v2 ∈ pathEnds (g.buildPaths ids) →
    ¬ limit < e.evidence.indelsPerKbp → id ∉ X →
      (∃ a ∈ X, ∃ f, g.edge? a = some f ∧ (f.Touches e.v1 ∨ f.Touches e.v2)) ∨
        Joined (fun y => g.UsesOverlap (g.buildPaths ids) y ∨ (y.1 ∈ X ∧ g.edge? y.1 = some y.2))
          e.v1.sequence e.v2.sequence
  rebuilt : ∀ x, g.UsesOverlap (g.buildPaths (ids ++ X)) x ↔
    g.UsesOverlap (g.buildPaths ids) x ∨ (x.1 ∈ X ∧ g.edge? x.1 = some x.2)

end LayoutThresholds

end OverlapLayout
