import Mathlib
import OverlapLayout.Proofs.Paths.Build
/-!
  What the paths built from a list of edge ids are.

  `PathCover g ids paths` gathers it: every sequence in no host lies in
  exactly one path, once, and no other sequence in any; each path walks from
  its left end to its right end through live edges, an identity edge through
  each sequence and an overlap edge between consecutive ones; and the
  overlap edges used (`UsesOverlap`) are live edges among `ids` between
  sequences in no host, no two at one vertex, closing no cycle, and
  Kruskal-maximal in increasing `(cost, id)`.

  `buildPaths_cover` proves it of `buildPaths` on every reachable graph: the
  edges used are exactly those `choosePartners` chose, and the paths walk the
  runs of those partners.
-/

namespace OverlapLayout

namespace AssemblyGraph

/-- The overlap edge `x` is used by one of the paths. -/
def UsesOverlap (g : AssemblyGraph) (paths : List Path) (x : Nat × Edge) : Prop :=
  (∃ p ∈ paths, x.1 ∈ p.edges) ∧ g.edge? x.1 = some x.2 ∧ x.2.isIdentity = false

/-- The paths built from the edge ids `ids`: a cover of the sequences in no host by
walks whose overlap edges form a Kruskal-maximal matching forest of the eligible
edges among `ids`. -/
structure PathCover (g : AssemblyGraph) (ids : List Nat) (paths : List Path) : Prop where
  perm : (paths.flatMap fun p => p.sequenceIds g).Perm
    ((List.range g.size).filter fun s => !g.isContained s)
  walks : ∀ p ∈ paths, ∃ us, p.Walks g us
  length : ∀ p ∈ paths, p.length = 2 * (p.sequenceIds g).length - 1
  vertices : ∀ p ∈ paths, (p.vertices g).length = p.length + 1
  used : ∀ x, g.UsesOverlap paths x → x.1 ∈ ids ∧ g.joinsFree x.2 = true
  matching : ∀ x y (v : Vertex), g.UsesOverlap paths x → g.UsesOverlap paths y →
    x.2.Touches v → y.2.Touches v → x = y
  forest : ∀ x, g.UsesOverlap paths x →
    ¬ Joined (fun y => g.UsesOverlap paths y ∧ y ≠ x) x.2.v1.sequence x.2.v2.sequence
  maximal : ∀ x, x.1 ∈ ids → g.edge? x.1 = some x.2 → g.joinsFree x.2 = true →
    ¬ g.UsesOverlap paths x →
    (∃ y, g.UsesOverlap paths y ∧ Precedes y x ∧ (y.2.Touches x.2.v1 ∨ y.2.Touches x.2.v2)) ∨
      Joined (fun y => g.UsesOverlap paths y ∧ Precedes y x) x.2.v1.sequence x.2.v2.sequence

variable {g : AssemblyGraph}

/-! ## The overlap edges of a walk -/

namespace Spells

/-- Each link of a spelt run is crossed by one of the ids. -/
theorem overlap_of_link {us : List Vertex} {ids : List Nat} (h : g.Spells us ids) {u w : Vertex}
    (hin : [u, w] <:+: us) : ∃ j ∈ ids, g.OverlapAt j u.opposite w := by
  induction h with
  | one _ => simpa using hin.length_le
  | @cons x y us i j ids _ hj _ ih =>
    rcases List.infix_cons_iff.1 hin with hpre | hin
    · -- the link is the first one
      obtain ⟨rfl, hw⟩ := List.cons_prefix_cons.1 hpre
      obtain ⟨rfl, -⟩ := List.cons_prefix_cons.1 hw
      exact ⟨j, by simp, hj⟩
    · obtain ⟨j', hj', hov⟩ := ih hin
      exact ⟨j', by simp [hj'], hov⟩

/-- An id of a spelt run whose edge is an overlap edge crosses one of its links. -/
theorem overlap_of_mem {us : List Vertex} {ids : List Nat} (h : g.Spells us ids) {j : Nat} {e : Edge}
    (hj : j ∈ ids) (he : g.edge? j = some e) (hid : e.isIdentity = false) :
    ∃ u w, [u, w] <:+: us ∧ g.OverlapAt j u.opposite w := by
  -- an identity position would make the edge an identity edge
  have hnot : ∀ {i : Nat} {u : Vertex}, g.IdentityAt i u → i ≠ j := by
    rintro i u ⟨f, hf, hfid, -⟩ rfl
    rw [he, Option.some.injEq] at hf
    rw [← hf, hid] at hfid
    cases hfid
  induction h with
  | one hi => exact absurd (List.mem_singleton.1 hj).symm (hnot hi)
  | @cons x y us i j' ids hi hj' _ ih =>
    rcases List.mem_cons.1 hj with rfl | hj
    · exact absurd rfl (hnot hi)
    rcases List.mem_cons.1 hj with rfl | hj
    · exact ⟨x, y, ⟨[], us, rfl⟩, hj'⟩
    · obtain ⟨u, w, hin, hov⟩ := ih hj
      exact ⟨u, w, hin.trans (List.infix_cons (List.infix_refl _)), hov⟩

end Spells

/-- Two live edges leading from one vertex to the same vertex are one edge. -/
theorem Inv.eq_of_across (hi : g.Inv) {i j : Nat} {e f : Edge} {v w : Vertex} (he : g.edge? i = some e)
    (hf : g.edge? j = some f) (h1 : e.across v = some w) (h2 : f.across v = some w) : i = j := by
  refine hi.arena.eq_of_key_eq he hf (Edge.key_eq_key.2 ?_)
  rcases Edge.across_eq_some.1 h1 with ⟨a1, a2⟩ | ⟨-, a2, a1⟩ <;>
    rcases Edge.across_eq_some.1 h2 with ⟨b1, b2⟩ | ⟨-, b2, b1⟩
  · exact .inl ⟨a1.trans b1.symm, a2.trans b2.symm⟩
  · exact .inr ⟨a1.trans b2.symm, a2.trans b1.symm⟩
  · exact .inr ⟨a1.trans b2.symm, a2.trans b1.symm⟩
  · exact .inl ⟨a1.trans b1.symm, a2.trans b2.symm⟩

theorem exists_of_forall₂_left {α β : Type*} {R : α → β → Prop} {l1 : List α} {l2 : List β}
    (h : List.Forall₂ R l1 l2) {a : α} (ha : a ∈ l1) : ∃ b ∈ l2, R a b := by
  induction h with
  | nil => simp at ha
  | cons hab _ ih =>
    rcases List.mem_cons.1 ha with rfl | ha
    · exact ⟨_, List.mem_cons_self, hab⟩
    · obtain ⟨b, hb, hr⟩ := ih ha
      exact ⟨b, List.mem_cons_of_mem _ hb, hr⟩

theorem exists_of_forall₂_right {α β : Type*} {R : α → β → Prop} {l1 : List α} {l2 : List β}
    (h : List.Forall₂ R l1 l2) {b : β} (hb : b ∈ l2) : ∃ a ∈ l1, R a b := by
  induction h with
  | nil => simp at hb
  | cons hab _ ih =>
    rcases List.mem_cons.1 hb with rfl | hb
    · exact ⟨_, List.mem_cons_self, hab⟩
    · obtain ⟨a, ha, hr⟩ := ih hb
      exact ⟨a, List.mem_cons_of_mem _ ha, hr⟩

theorem flatMap_sequenceIds {paths : List Path} {done : List (List Vertex)}
    (h : List.Forall₂ (fun p c => p.Walks g c) paths done) :
    (paths.flatMap fun p => p.sequenceIds g) = done.flatMap (·.map Vertex.sequence) := by
  induction h with
  | nil => rfl
  | cons hw _ ih => simp [hw.sequenceIds, ih]

/-! ## From the partner choice and the runs to the cover -/

section cover

variable {ids : List Nat} {chosen : List (Nat × Edge)} {partner : Array (Option Nat)} {uf : UnionFind}
  {runOf : Nat → List Vertex} {paths : Array Path} {visited : Array Bool} {done : List (List Vertex)}
  (hi : g.Inv) (hs : PartnerState g (g.pathCandidates ids) chosen partner uf)
  (hb : BuildState g partner runOf g.size paths visited done)
include hi hs hb

/-- The overlap edges the paths use are exactly the chosen partner edges. -/
theorem usesOverlap_iff (x : Nat × Edge) : g.UsesOverlap paths.toList x ↔ x ∈ chosen := by
  constructor
  · rintro ⟨⟨p, hp, hx⟩, he, hid⟩
    obtain ⟨c, hcd, hw⟩ := exists_of_forall₂_left hb.walks hp
    obtain ⟨u, w, hin, e', he', -, hacross⟩ := hw.1.overlap_of_mem (Array.mem_toList_iff.2 hx) he hid
    -- the link is a partner edge, chosen, and it is the edge `x` by uniqueness
    have hlink := List.IsChain.infix (hb.chain c hcd).follows hin
    have hfol : Follows (g.partnerAcross partner) u w := List.isChain_pair.1 hlink
    obtain ⟨j, f, hj, hf, hfw⟩ := partnerAcross_eq_some.1 hfol.1
    obtain ⟨f', hjf, -⟩ := (hs.slot _ j).1 hj
    have hxj : x.1 = j := hi.eq_of_across he' hf hacross hfw
    have hx2 : x.2 = f' := by
      rw [hxj, (mem_pathCandidates.1 (hs.sub _ hjf)).2.1, Option.some.injEq] at he
      exact he.symm
    rw [show x = (j, f') from Prod.ext hxj hx2]
    exact hjf
  · intro hx
    obtain ⟨-, he, hfree⟩ := mem_pathCandidates.1 (hs.sub x hx)
    obtain ⟨hid, hc1, -⟩ := joinsFree_iff.1 hfree
    refine ⟨?_, he, hid⟩
    have hne := hi.arena.ends_ne he
    -- the run through the first end holds the link the edge makes
    obtain ⟨c, hcd, hv1c⟩ := List.mem_flatMap.1 (hb.covers _ (hi.arena.ends_lt he).1 hc1)
    have hnx : g.partnerAcross partner x.2.v1 = some x.2.v2 :=
      partnerAcross_eq_some.2 ⟨x.1, x.2, (hs.slot _ _).2 ⟨x.2, hx, .inl rfl⟩, he, by simp [Edge.across]⟩
    obtain ⟨u, w, hin, hend⟩ := (hb.chain c hcd).link hv1c hnx
    obtain ⟨p, hp, hw⟩ := exists_of_forall₂_right hb.walks hcd
    obtain ⟨j, hj, f, hf, -, hfw⟩ := hw.1.overlap_of_link hin
    have hxw : x.2.across u.opposite = some w := by
      rcases hend with ⟨h1, h2⟩ | ⟨h1, h2⟩
      · rw [← h1, ← h2]; simp [Edge.across]
      · rw [← h2, ← h1]; simp [Edge.across, hne]
    have hjx : j = x.1 := hi.eq_of_across hf he hfw hxw
    exact ⟨p, hp, Array.mem_toList_iff.1 (hjx ▸ hj)⟩

theorem BuildState.cover : PathCover g ids paths.toList := by
  have hiff := usesOverlap_iff hi hs hb
  refine ⟨?_, ?_, ?_, ?_, ?_, ?_, ?_, ?_⟩
  · rw [flatMap_sequenceIds hb.walks]
    refine (List.perm_ext_iff_of_nodup hb.nodup (List.nodup_range.filter _)).2 fun t => ?_
    constructor
    · intro ht
      obtain ⟨h1, h2⟩ := hb.free t ht
      simp [h1, h2]
    · intro ht
      simp only [List.mem_filter, List.mem_range, Bool.not_eq_true'] at ht
      exact hb.covers t ht.1 ht.2
  · intro p hp
    obtain ⟨c, -, hw⟩ := exists_of_forall₂_left hb.walks hp
    exact ⟨c, hw⟩
  · intro p hp
    obtain ⟨c, -, hw⟩ := exists_of_forall₂_left hb.walks hp
    rw [hw.sequenceIds, List.length_map, hw.length]
  · intro p hp
    obtain ⟨c, -, hw⟩ := exists_of_forall₂_left hb.walks hp
    exact hw.length_vertices
  · intro x hx
    obtain ⟨hids, -, hfree⟩ := mem_pathCandidates.1 (hs.sub x ((hiff x).1 hx))
    exact ⟨hids, hfree⟩
  · -- both edges fill the slot of `v`
    intro x y v hx hy htx hty
    have hxv := (hs.slot v x.1).2 ⟨x.2, (hiff x).1 hx, htx⟩
    have hyv := (hs.slot v y.1).2 ⟨y.2, (hiff y).1 hy, hty⟩
    have h1 : x.1 = y.1 := Option.some.inj (hxv.symm.trans hyv)
    have h2 := hx.2.1
    rw [h1, hy.2.1, Option.some.injEq] at h2
    exact Prod.ext h1 h2.symm
  · intro x hx
    rw [joined_congr fun y => and_congr (hiff y) Iff.rfl]
    exact hs.forest x ((hiff x).1 hx)
  · intro x hids he hfree hnot
    rcases hs.maximal x (mem_pathCandidates.2 ⟨hids, he, hfree⟩) (fun h => hnot ((hiff x).2 h)) with
      ⟨y, hy, hyx, hyt⟩ | hJ
    · exact .inl ⟨y, (hiff y).2 hy, hyx, hyt⟩
    · exact .inr ((joined_congr fun y => and_congr (hiff y) Iff.rfl).2 hJ)

end cover

theorem buildPaths_cover {g : AssemblyGraph} (h : g.Reachable) (ids : List Nat) :
    PathCover g ids (g.buildPaths ids) := by
  have hi := h.inv
  obtain ⟨chosen, uf, hs⟩ := choosePartners_state hi ids
  obtain ⟨runOf, hc, -⟩ := hs.runs
  -- every slot holds a candidate, so a live overlap edge between sequences in no host
  have hpart : ∀ (v : Vertex) j, (g.choosePartners (g.pathCandidates ids)).getD v.id none = some j →
      ∃ e, g.edge? j = some e ∧ g.joinsFree e = true := by
    intro v j hj
    obtain ⟨e, he, -⟩ := (hs.slot v j).1 hj
    exact ⟨e, (mem_pathCandidates.1 (hs.sub _ he)).2⟩
  obtain ⟨done, hb⟩ := BuildState.foldl hi hpart hc g.size le_rfl
  rw [buildPaths_eq]
  exact hb.cover hi hs

theorem sample_pathCover : PathCover sample [3] (sample.buildPaths [3]) :=
  buildPaths_cover reachable_sample [3]

end AssemblyGraph

end OverlapLayout
