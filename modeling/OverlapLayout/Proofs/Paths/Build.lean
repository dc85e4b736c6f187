import Mathlib
import OverlapLayout.Proofs.Paths.Partners
/-!
  The outer loop of path building.

  `buildPaths` takes the sequences in increasing order. From each one not yet
  visited and in no host it walks to one end of the run of partners through
  it, and builds the path along the whole run from that end. `BuildState`
  says what this leaves after the sequences below `k`: every path walks a
  whole run, read from one of its ends, the runs share no sequence, and the
  visited marks are exactly their sequences.
-/

namespace OverlapLayout

namespace AssemblyGraph

/-- One sequence considered by `buildPaths`. -/
def buildStep (g : AssemblyGraph) (partner : Array (Option Nat)) (st : Array Path × Array Bool)
    (s : Nat) : Array Path × Array Bool :=
  if st.2.getD s false || g.isContained s then st
  else
    let stop := g.walkToEnd partner s (g.size + 1) (.startOf s)
    match Path.singleton? g stop.sequence with
    | none => st
    | some p =>
      let p := if p.left == stop then p else p.reverse
      let r := g.extendRight partner (g.size + 1) p (st.2.set! stop.sequence true)
      (st.1.push r.1, r.2)

theorem buildPaths_eq (g : AssemblyGraph) (ids : List Nat) :
    g.buildPaths ids = ((List.range g.size).foldl (buildStep g (g.choosePartners (g.pathCandidates ids)))
      (#[], Array.replicate g.size false)).1.toList := rfl

/-! ## Marks -/

theorem size_foldl_mark (l : List Vertex) (v : Array Bool) :
    (l.foldl (fun vis w => vis.set! w.sequence true) v).size = v.size := by
  induction l generalizing v with
  | nil => rfl
  | cons w l ih => rw [List.foldl_cons, ih]; simp

theorem getD_foldl_mark (l : List Vertex) (v : Array Bool) {t : Nat} (ht : t < v.size) :
    (l.foldl (fun vis w => vis.set! w.sequence true) v).getD t false = true ↔
      v.getD t false = true ∨ t ∈ l.map Vertex.sequence := by
  induction l generalizing v with
  | nil => simp
  | cons w l ih =>
    rw [List.foldl_cons, ih _ (by simpa using ht)]
    by_cases hw : w.sequence = t
    · subst hw
      simp [Array.getD_eq_getD_getElem?, Array.set!_eq_setIfInBounds, ht]
    · rw [getD_set!_of_ne _ _ hw]
      simp [Ne.symm hw]

/-! ## The path started at the end of a run -/

variable {g : AssemblyGraph} {partner : Array (Option Nat)}

/-- The path of one sequence's identity edge, from its start to its end. -/
def Path.ofSequence (s : Nat) : Path := { left := .startOf s, right := .endOf s, edges := #[s] }

theorem singleton?_eq (hi : g.Inv) {s : Nat} (hs : s < g.size) :
    Path.singleton? g s = some (Path.ofSequence s) := by
  obtain ⟨e, he, h1, h2⟩ := hi.arena.identity s hs
  simp [Path.singleton?, hi.identityEdge? hs, Path.ofEdge?, he, h1, h2, Path.ofSequence]

/-- The path of one sequence, turned to start at the vertex `stop`. -/
theorem walks_orient (hi : g.Inv) {stop : Vertex} (hs : stop.sequence < g.size) :
    (if (Path.ofSequence stop.sequence).left == stop then Path.ofSequence stop.sequence
      else (Path.ofSequence stop.sequence).reverse).Walks g [stop] := by
  have hone : g.Spells [stop] [stop.sequence] := .one (hi.identityAt hs)
  rcases Vertex.eq_startOf_or_endOf stop with h | h
  · rw [if_pos (show ((Path.ofSequence stop.sequence).left == stop) = true from beq_iff_eq.2 h.symm)]
    refine ⟨hone, by simp [Path.ofSequence, ← h], ?_⟩
    nth_rewrite 1 [h]
    simp [Path.ofSequence]
  · -- the start is not `stop`, so the path is reversed
    have hne : Vertex.startOf stop.sequence ≠ stop := by
      rw [h]; simp [Vertex.startOf, Vertex.endOf]
    rw [if_neg (by simpa [Path.ofSequence] using hne)]
    refine ⟨by simpa [Path.reverse, Path.ofSequence] using hone, by simp [Path.reverse, Path.ofSequence, ← h], ?_⟩
    nth_rewrite 1 [h]
    simp [Path.reverse, Path.ofSequence]

/-- From a sequence neither visited nor hosted, `buildStep` extends the one-sequence
path at the end its walk reaches. -/
theorem buildStep_fresh (hi : g.Inv) (paths : Array Path) {visited : Array Bool} {s : Nat}
    (hv : visited.getD s false = false) (hsc : g.isContained s = false)
    (hs : (g.walkToEnd partner s (g.size + 1) (.startOf s)).sequence < g.size) :
    ∃ p, p.Walks g [g.walkToEnd partner s (g.size + 1) (.startOf s)] ∧
      buildStep g partner (paths, visited) s =
        ((paths.push (g.extendRight partner (g.size + 1) p
            (visited.set! (g.walkToEnd partner s (g.size + 1) (.startOf s)).sequence true)).1),
          (g.extendRight partner (g.size + 1) p
            (visited.set! (g.walkToEnd partner s (g.size + 1) (.startOf s)).sequence true)).2) := by
  unfold buildStep
  rw [if_neg (by simp [hv, hsc])]
  dsimp only
  rw [singleton?_eq hi hs]
  exact ⟨_, walks_orient hi hs, rfl⟩

/-! ## Runs of sequences in no host -/

theorem joinsFree_iff {e : Edge} :
    g.joinsFree e = true ↔
      e.isIdentity = false ∧ g.isContained e.v1.sequence = false ∧ g.isContained e.v2.sequence = false := by
  simp [joinsFree, and_assoc]

/-- In a chain every element sits in a link, so a property held by both ends of
every link and by one element is held by all. -/
theorem forall_of_isChain {α : Type*} {R : α → α → Prop} {P : α → Prop} (hR : ∀ u w, R u w → P u ∧ P w)
    {l : List α} (hl : l.IsChain R) (hne : ∃ x ∈ l, P x) : ∀ y ∈ l, P y := by
  induction hl with
  | nil => simp at hne
  | singleton a =>
    obtain ⟨x, hx, hpx⟩ := hne
    intro y hy
    rw [List.mem_singleton] at hx hy
    rw [hy, ← hx]
    exact hpx
  | cons_cons hr _ ih =>
    have hab := hR _ _ hr
    intro y hy
    rcases List.mem_cons.1 hy with rfl | hy
    · exact hab.1
    · exact ih ⟨_, List.mem_cons_self, hab.2⟩ y hy

section runs

variable (hpart : ∀ (v : Vertex) j, partner.getD v.id none = some j → ∃ e, g.edge? j = some e ∧ g.joinsFree e = true)
include hpart

theorem slot_overlap (v : Vertex) (j : Nat) (e : Edge) (hj : partner.getD v.id none = some j)
    (he : g.edge? j = some e) : e.isIdentity = false := by
  obtain ⟨f, hf, hfree⟩ := hpart v j hj
  rw [he, Option.some.injEq] at hf
  rw [hf]
  exact (joinsFree_iff.1 hfree).1

theorem Follows.noHost {u w : Vertex} (h : Follows (g.partnerAcross partner) u w) :
    g.isContained u.sequence = false ∧ g.isContained w.sequence = false := by
  obtain ⟨j, e, hj, he, hw⟩ := partnerAcross_eq_some.1 h.1
  obtain ⟨f, hf, hfree⟩ := hpart _ j hj
  rw [he, Option.some.injEq] at hf
  rw [← hf] at hfree
  obtain ⟨-, h1, h2⟩ := joinsFree_iff.1 hfree
  rw [← Vertex.opposite_sequence u]
  rcases Edge.across_eq_some.1 hw with ⟨hv1, hv2⟩ | ⟨-, hv2, hv1⟩
  · rw [← hv1, ← hv2]; exact ⟨h1, h2⟩
  · rw [← hv1, ← hv2]; exact ⟨h2, h1⟩

/-- A run through a sequence in no host has only such sequences. -/
theorem PartnerChain.noHost {c : List Vertex} (hc : PartnerChain (g.partnerAcross partner) c)
    {s : Nat} (hs : s ∈ c.map Vertex.sequence) (hsc : g.isContained s = false) :
    ∀ t ∈ c.map Vertex.sequence, g.isContained t = false := by
  have hall := forall_of_isChain (P := fun v : Vertex => g.isContained v.sequence = false)
    (fun _ _ h => Follows.noHost hpart h) hc.follows
  intro t ht
  obtain ⟨v, hv, rfl⟩ := List.mem_map.1 ht
  obtain ⟨u, hu, rfl⟩ := List.mem_map.1 hs
  exact hall ⟨u, hu, hsc⟩ v hv

end runs

/-! ## The state after the sequences below `k` -/

/-- What `buildPaths` has built once the sequences below `k` were considered:
the paths walk the runs `done`, whole ones, and the marks are their sequences. -/
structure BuildState (g : AssemblyGraph) (partner : Array (Option Nat)) (runOf : Nat → List Vertex)
    (k : Nat) (paths : Array Path) (visited : Array Bool) (done : List (List Vertex)) : Prop where
  size : visited.size = g.size
  walks : List.Forall₂ (fun p c => p.Walks g c) paths.toList done
  chain : ∀ c ∈ done, PartnerChain (g.partnerAcross partner) c
  whole : ∀ c ∈ done, ∃ s < g.size, (c.map Vertex.sequence).Perm ((runOf s).map Vertex.sequence)
  nodup : (done.flatMap (·.map Vertex.sequence)).Nodup
  marked : ∀ t < g.size, visited.getD t false = true ↔ t ∈ done.flatMap (·.map Vertex.sequence)
  free : ∀ t ∈ done.flatMap (·.map Vertex.sequence), t < g.size ∧ g.isContained t = false
  covers : ∀ t < k, g.isContained t = false → t ∈ done.flatMap (·.map Vertex.sequence)

variable {runOf : Nat → List Vertex} {k : Nat} {paths : Array Path} {visited : Array Bool}
  {done : List (List Vertex)}

theorem buildState_init : BuildState g partner runOf 0 #[] (Array.replicate g.size false) [] where
  size := by simp
  walks := .nil
  chain := by simp
  whole := by simp
  nodup := by simp
  marked := fun t ht => by simp [Array.getD_eq_getD_getElem?, ht]
  free := by simp
  covers := fun t ht => absurd ht (Nat.not_lt_zero t)

/-- No sequence of the run of an unvisited sequence was visited. -/
theorem BuildState.unmarked (hc : RunCover g.size (g.partnerAcross partner) runOf)
    (hb : BuildState g partner runOf k paths visited done) {s : Nat} (hs : s < g.size)
    (hv : visited.getD s false = false) {t : Nat} (ht : t ∈ (runOf s).map Vertex.sequence) :
    t ∉ done.flatMap (·.map Vertex.sequence) := by
  intro htd
  obtain ⟨c, hcd, htc⟩ := List.mem_flatMap.1 htd
  obtain ⟨s0, hs0, hperm⟩ := hb.whole c hcd
  -- the run holding `t` is that of `s` and that of `s0`, so `s` was visited with it
  have h1 : runOf t = runOf s := hc.same s hs t ht
  have h2 : runOf t = runOf s0 := hc.same s0 hs0 t (hperm.subset htc)
  have hsc : s ∈ c.map Vertex.sequence := hperm.symm.subset (by rw [← h2, h1]; exact hc.mem s hs)
  have hmark := (hb.marked s hs).2 (List.mem_flatMap.2 ⟨c, hcd, hsc⟩)
  rw [hv] at hmark
  cases hmark

section step

variable (hi : g.Inv)
  (hpart : ∀ (v : Vertex) j, partner.getD v.id none = some j → ∃ e, g.edge? j = some e ∧ g.joinsFree e = true)
  (hc : RunCover g.size (g.partnerAcross partner) runOf)
include hi hpart hc

/-- From a sequence neither visited nor hosted, `buildStep` adds the path along its
whole run. -/
theorem BuildState.fresh (hb : BuildState g partner runOf k paths visited done) (hk : k < g.size)
    (hv : visited.getD k false = false) (hsc : g.isContained k = false) :
    ∃ done', BuildState g partner runOf (k + 1) (buildStep g partner (paths, visited) k).1
      (buildStep g partner (paths, visited) k).2 done' := by
  -- the run of `k`, read so that `k` is entered at its end
  obtain ⟨c, hcc, hcp, hmem⟩ := hc.orient (v := Vertex.endOf k) hk
  simp only [Vertex.endOf_sequence] at hcp
  have hnd : (c.map Vertex.sequence).Nodup := hcp.nodup_iff.2 (hc.nodup k hk)
  have hlt : ∀ t ∈ c.map Vertex.sequence, t < g.size := fun t ht => hc.lt k hk t (hcp.subset ht)
  have hlen : c.length ≤ g.size := by
    have hsub : c.map Vertex.sequence ⊆ List.range g.size := fun t ht => List.mem_range.2 (hlt t ht)
    simpa using (List.Nodup.subperm hnd hsub).length_le
  obtain ⟨pre, q, hsplit⟩ := List.append_of_mem hmem
  have hlast_eq : c.getLast? = (Vertex.endOf k :: q).getLast? := by
    rw [hsplit, List.getLast?_append_of_ne_nil _ (List.cons_ne_nil _ _)]
  -- walking from the start of `k` reaches the last exit of the run
  have hq := List.isChain_append.1 (hsplit ▸ hcc.follows)
  have hkq : k ∉ q.map Vertex.sequence := by
    rw [hsplit, List.map_append, List.map_cons] at hnd
    exact (List.nodup_cons.1 (List.nodup_append.1 hnd).2.1).1
  have hlenq : q.length < g.size + 1 := by
    have := congrArg List.length hsplit
    simp only [List.length_append, List.length_cons] at this
    omega
  have hstop := walkToEnd_run q (Vertex.endOf k) (g.size + 1) hq.2.1
    (fun l hl => hcc.last_free l (hlast_eq ▸ hl)) hkq hlenq
  simp only [Vertex.endOf_opposite] at hstop
  -- the run read the other way starts at that exit
  obtain ⟨rest, hF⟩ := List.head?_eq_some_iff.1
    (show (flipRun c).head? = some (g.walkToEnd partner k (g.size + 1) (.startOf k)) by
      rw [head?_flipRun, hlast_eq]; exact hstop)
  have hFseq : ∀ t, t ∈ (g.walkToEnd partner k (g.size + 1) (.startOf k) :: rest).map Vertex.sequence ↔
      t ∈ c.map Vertex.sequence := by
    intro t; rw [← hF, map_sequence_flipRun, List.mem_reverse]
  have hFnd : ((g.walkToEnd partner k (g.size + 1) (.startOf k) :: rest).map Vertex.sequence).Nodup := by
    rw [← hF, map_sequence_flipRun]; exact List.nodup_reverse.2 hnd
  have hFperm : ((g.walkToEnd partner k (g.size + 1) (.startOf k) :: rest).map Vertex.sequence).Perm
      ((runOf k).map Vertex.sequence) := by
    rw [← hF, map_sequence_flipRun]; exact (List.reverse_perm _).trans hcp
  have hFchain : PartnerChain (g.partnerAcross partner) (g.walkToEnd partner k (g.size + 1) (.startOf k) :: rest) :=
    hF ▸ hcc.flip
  have hkF : k ∈ (g.walkToEnd partner k (g.size + 1) (.startOf k) :: rest).map Vertex.sequence :=
    (hFseq k).2 (List.mem_map_of_mem hmem)
  have hlenF : rest.length < g.size + 1 := by
    have := congrArg List.length hF
    simp only [flipRun, List.length_reverse, List.length_map, List.length_cons] at this
    omega
  have hstop_lt : (g.walkToEnd partner k (g.size + 1) (.startOf k)).sequence < g.size :=
    hlt _ ((hFseq _).1 List.mem_cons_self)
  obtain ⟨p0, hp0, heq⟩ := buildStep_fresh hi paths hv hsc hstop_lt
  rw [heq]
  generalize g.walkToEnd partner k (g.size + 1) (.startOf k) = stop at *
  -- the rest of the run is unvisited, and `stop`'s sequence is not in it
  have hrest : ∀ w ∈ rest, w.sequence < g.size ∧
      (visited.set! stop.sequence true).getD w.sequence false = false := by
    intro w hw
    have hwF : w.sequence ∈ (stop :: rest).map Vertex.sequence :=
      List.mem_map_of_mem (List.mem_cons_of_mem _ hw)
    have hwlt := hlt _ ((hFseq _).1 hwF)
    have hne : stop.sequence ≠ w.sequence := fun h =>
      (List.nodup_cons.1 hFnd).1 (h ▸ List.mem_map_of_mem hw)
    refine ⟨hwlt, ?_⟩
    rw [getD_set!_of_ne _ _ hne]
    cases hw' : visited.getD w.sequence false
    · rfl
    · exact absurd ((hb.marked _ hwlt).1 hw') (hb.unmarked hc hk hv (hFperm.subset hwF))
  obtain ⟨hwalk, -, hvis⟩ := extendRight_run hi (slot_overlap hpart) rest stop [] p0
    (visited.set! stop.sequence true) (g.size + 1) hFchain.follows hFchain.last_free hp0
    (List.nodup_cons.1 hFnd).2 hrest hlenF
  have hvis' : (g.extendRight partner (g.size + 1) p0 (visited.set! stop.sequence true)).2 =
      (stop :: rest).foldl (fun vis w => vis.set! w.sequence true) visited := hvis
  dsimp only
  rw [hvis']
  have hnew : ∀ t, t ∈ (done ++ [stop :: rest]).flatMap (·.map Vertex.sequence) ↔
      t ∈ done.flatMap (·.map Vertex.sequence) ∨ t ∈ (stop :: rest).map Vertex.sequence := by
    simp
  refine ⟨done ++ [stop :: rest], ?_, ?_, ?_, ?_, ?_, ?_, ?_, ?_⟩
  · rw [size_foldl_mark, hb.size]
  · rw [Array.toList_push]
    exact List.rel_append hb.walks (.cons hwalk .nil)
  · intro c' hc'
    rcases List.mem_append.1 hc' with hc' | hc'
    · exact hb.chain c' hc'
    · rw [List.mem_singleton.1 hc']; exact hFchain
  · intro c' hc'
    rcases List.mem_append.1 hc' with hc' | hc'
    · exact hb.whole c' hc'
    · rw [List.mem_singleton.1 hc']; exact ⟨k, hk, hFperm⟩
  · -- the new run's sequences were unvisited, so none is in an earlier run
    rw [List.flatMap_append, List.flatMap_singleton]
    refine List.nodup_append.2 ⟨hb.nodup, hFnd, ?_⟩
    intro a ha b hb' hab
    subst hab
    exact hb.unmarked hc hk hv (hFperm.subset hb') ha
  · intro t ht
    rw [getD_foldl_mark _ _ (by rw [hb.size]; exact ht), hb.marked t ht, hnew]
  · intro t ht
    rcases (hnew t).1 ht with ht | ht
    · exact hb.free t ht
    · exact ⟨hlt _ ((hFseq t).1 ht), hFchain.noHost hpart hkF hsc t ht⟩
  · intro t ht htc
    rw [hnew]
    rcases Nat.lt_succ_iff_lt_or_eq.1 ht with ht | rfl
    · exact .inl (hb.covers t ht htc)
    · exact .inr hkF

theorem BuildState.step (hb : BuildState g partner runOf k paths visited done) (hk : k < g.size) :
    ∃ done', BuildState g partner runOf (k + 1) (buildStep g partner (paths, visited) k).1
      (buildStep g partner (paths, visited) k).2 done' := by
  by_cases hskip : (visited.getD k false || g.isContained k) = true
  · -- nothing to build: `k` was visited with an earlier run, or is in a host
    refine ⟨done, ?_⟩
    rw [buildStep, if_pos hskip]
    refine { hb with covers := fun t ht htc => ?_ }
    rcases Nat.lt_succ_iff_lt_or_eq.1 ht with ht | rfl
    · exact hb.covers t ht htc
    · simp only [Bool.or_eq_true, htc, Bool.false_eq_true, or_false] at hskip
      exact (hb.marked t hk).1 hskip
  · simp only [Bool.or_eq_true, not_or, Bool.not_eq_true] at hskip
    exact hb.fresh hi hpart hc hk hskip.1 hskip.2

theorem BuildState.foldl : ∀ k ≤ g.size, ∃ done, BuildState g partner runOf k
    ((List.range k).foldl (buildStep g partner) (#[], Array.replicate g.size false)).1
    ((List.range k).foldl (buildStep g partner) (#[], Array.replicate g.size false)).2 done := by
  intro k hk
  induction k with
  | zero => exact ⟨[], buildState_init⟩
  | succ k ih =>
    obtain ⟨done, hb⟩ := ih (by omega)
    rw [List.range_succ, List.foldl_append, List.foldl_cons, List.foldl_nil]
    exact hb.step hi hpart hc (by omega)

end step

end AssemblyGraph

end OverlapLayout
