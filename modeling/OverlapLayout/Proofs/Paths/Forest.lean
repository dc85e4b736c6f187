import Mathlib
import OverlapLayout.Proofs.Paths.Cover
/-!
  Kruskal-maximal matching forests, and the ends of built paths.

  The overlap edges that the paths built from some ids use are fixed by the ids: two edge sets
  that are both forests over sequences, touch each vertex at most once, and keep every eligible
  edge unless an earlier kept edge blocks it (`MaximalForest`) are the same set
  (`MaximalForest.unique`). Kruskal's rule leaves no choice once the order is total.

  * `Forest`, `Forest.insert`: an edge joining two classes keeps a forest a forest.
  * `Joined.map_eq`: a function constant across each edge is constant on each class.
  * `buildPaths_maximalForest`, `buildPaths_ends`, `buildPaths_sequences`: what the paths
    built from some ids give: their overlap edges form the maximal forest, touch no path end,
    and join two sequences of one path; each sequence in no host lies in exactly one path.
-/

namespace OverlapLayout

namespace Path.Walks

variable {g : AssemblyGraph} {p : Path} {us : List Vertex}

theorem left_mem (hw : p.Walks g us) : p.left.sequence ∈ p.sequenceIds g := by
  rw [hw.sequenceIds]
  exact List.mem_map_of_mem (List.mem_of_mem_head? hw.2.1)

theorem right_mem (hw : p.Walks g us) : p.right.sequence ∈ p.sequenceIds g := by
  rw [hw.sequenceIds]
  obtain ⟨u, hu, hur⟩ := Option.map_eq_some_iff.1 hw.2.2
  rw [← hur, Vertex.opposite_sequence]
  exact List.mem_map_of_mem (List.mem_of_getLast? hu)

/-- An overlap edge of a path joins two of its sequences. -/
theorem overlap_sequences (hw : p.Walks g us) {x : Nat × Edge} (hx : x.1 ∈ p.edges)
    (he : g.edge? x.1 = some x.2) (hid : x.2.isIdentity = false) :
    x.2.v1.sequence ∈ p.sequenceIds g ∧ x.2.v2.sequence ∈ p.sequenceIds g := by
  obtain ⟨u, w, hin, f, hf, -, hacross⟩ := hw.1.overlap_of_mem (Array.mem_toList_iff.2 hx) he hid
  rw [he, Option.some.injEq] at hf
  subst hf
  have hu : u.opposite.sequence ∈ p.sequenceIds g := by
    rw [hw.sequenceIds, Vertex.opposite_sequence]
    exact List.mem_map_of_mem (hin.subset (by simp))
  have hw' : w.sequence ∈ p.sequenceIds g := by
    rw [hw.sequenceIds]
    exact List.mem_map_of_mem (hin.subset (by simp))
  rcases Edge.across_eq_some.1 hacross with ⟨h1, h2⟩ | ⟨-, h2, h1⟩
  · rw [h1, h2]; exact ⟨hu, hw'⟩
  · rw [h1, h2]; exact ⟨hw', hu⟩

end Path.Walks

namespace AssemblyGraph

variable {g : AssemblyGraph}

/-! ## Forests over sequences -/

/-- No edge of the set joins sequences that the other edges join. -/
def Forest (A : Nat × Edge → Prop) : Prop :=
  ∀ x, A x → ¬ Joined (fun y => A y ∧ y ≠ x) x.2.v1.sequence x.2.v2.sequence

theorem Forest.congr {A B : Nat × Edge → Prop} (h : ∀ x, A x ↔ B x) (hA : Forest A) : Forest B := by
  intro x hx hJ
  exact hA x ((h x).2 hx) (hJ.mono fun y hy => ⟨(h y).2 hy.1, hy.2⟩)

/-- A function that agrees across every edge of the set agrees on each class. -/
theorem Joined.map_eq {A : Nat × Edge → Prop} {β : Type} (F : Nat → β)
    (hF : ∀ x, A x → F x.2.v1.sequence = F x.2.v2.sequence) {a b : Nat} (h : Joined A a b) :
    F a = F b := by
  induction h with
  | rel _ _ hab =>
    obtain ⟨x, hx, rfl, rfl⟩ := hab
    exact hF x hx
  | refl => rfl
  | symm _ _ _ ih => exact ih.symm
  | trans _ _ _ _ _ ih₁ ih₂ => exact ih₁.trans ih₂

/-- An edge joining two classes of a forest keeps it a forest. -/
theorem Forest.insert {A : Nat × Edge → Prop} (hA : Forest A) {z : Nat × Edge} (hz : ¬ A z)
    (hJ : ¬ Joined A z.2.v1.sequence z.2.v2.sequence) : Forest fun y => A y ∨ y = z := by
  intro x hx
  rcases hx with hx | rfl
  · have hxz : x ≠ z := fun h => hz (h ▸ hx)
    have hT : ∀ y, ((A y ∨ y = z) ∧ y ≠ x) ↔ ((A y ∧ y ≠ x) ∨ y = z) := by
      intro y
      constructor
      · rintro ⟨hy | rfl, hyx⟩
        · exact .inl ⟨hy, hyx⟩
        · exact .inr rfl
      · rintro (⟨hy, hyx⟩ | rfl)
        · exact ⟨.inl hy, hyx⟩
        · exact ⟨.inr rfl, Ne.symm hxz⟩
    have hold : ∀ {a b}, Joined (fun y => A y ∧ y ≠ x) a b → Joined A a b :=
      Joined.mono fun _ hy => hy.1
    have hx' : Joined A x.2.v1.sequence x.2.v2.sequence := .rel _ _ ⟨x, hx, rfl, rfl⟩
    -- a cycle through `z` and `x` would have joined the ends of `z` already
    rw [joined_congr hT, joined_insert]
    rintro (h | ⟨h1, h2⟩ | ⟨h1, h2⟩)
    · exact hA x hx h
    · exact hJ (.trans _ _ _ (.symm _ _ (hold h1)) (.trans _ _ _ hx' (.symm _ _ (hold h2))))
    · exact hJ (.trans _ _ _ (hold h2) (.trans _ _ _ (.symm _ _ hx') (hold h1)))
  · have hT : ∀ y, ((A y ∨ y = x) ∧ y ≠ x) ↔ A y := by
      intro y
      constructor
      · rintro ⟨hy | rfl, hyx⟩
        · exact hy
        · exact absurd rfl hyx
      · intro hy
        exact ⟨.inl hy, fun h => hz (h ▸ hy)⟩
    rw [joined_congr hT]
    exact hJ

/-! ## Maximal forests are unique -/

theorem precedes_wf : WellFounded Precedes := by
  refine Subrelation.wf (fun {a b} (h : Precedes a b) => ?_)
    (InvImage.wf (fun x : Nat × Edge => (x.2.cost, x.1)) (Prod.lex Nat.lt_wfRel Nat.lt_wfRel).wf)
  rcases h with h | ⟨h, hlt⟩
  · exact Prod.Lex.left _ _ h
  · show Prod.Lex _ _ (a.2.cost, a.1) (b.2.cost, b.1)
    rw [h]
    exact Prod.Lex.right _ hlt

/-- An edge set of live edges among `ids` between sequences in no host: a forest touching each
vertex at most once, from which every other such edge is kept out by an earlier edge of the set,
at one of its ends or joining its sequences. -/
structure MaximalForest (g : AssemblyGraph) (ids : List Nat) (A : Nat × Edge → Prop) : Prop where
  live : ∀ x, A x → g.edge? x.1 = some x.2
  used : ∀ x, A x → x.1 ∈ ids ∧ g.joinsFree x.2 = true
  matching : ∀ x y (v : Vertex), A x → A y → x.2.Touches v → y.2.Touches v → x = y
  forest : Forest A
  maximal : ∀ x, x.1 ∈ ids → g.edge? x.1 = some x.2 → g.joinsFree x.2 = true → ¬ A x →
    (∃ y, A y ∧ Precedes y x ∧ (y.2.Touches x.2.v1 ∨ y.2.Touches x.2.v2)) ∨
      Joined (fun y => A y ∧ Precedes y x) x.2.v1.sequence x.2.v2.sequence

theorem PathCover.maximalForest {ids : List Nat} {paths : List Path} (h : PathCover g ids paths) :
    MaximalForest g ids (g.UsesOverlap paths) :=
  ⟨fun _ hx => hx.2.1, h.used, h.matching, h.forest, h.maximal⟩

/-- An edge of one maximal forest is in another that agrees on all earlier edges. -/
theorem MaximalForest.of_agree {ids : List Nat} {A B : Nat × Edge → Prop}
    (hA : MaximalForest g ids A) (hB : MaximalForest g ids B) {x : Nat × Edge}
    (hagree : ∀ y, Precedes y x → (A y ↔ B y)) (hx : A x) : B x := by
  by_contra hnx
  obtain ⟨hids, hfree⟩ := hA.used x hx
  rcases hB.maximal x hids (hA.live x hx) hfree hnx with ⟨y, hy, hyx, hyt⟩ | hJ
  · -- the earlier edge at an end of `x` would share that end with `x`
    have hxy : x = y := by
      rcases hyt with hyt | hyt
      · exact hA.matching x y _ hx ((hagree y hyx).2 hy) (.inl rfl) hyt
      · exact hA.matching x y _ hx ((hagree y hyx).2 hy) (.inr rfl) hyt
    exact Precedes.irrefl x (hxy ▸ hyx)
  · -- the earlier edges joining the ends of `x` would close a cycle with it
    refine hA.forest x hx (hJ.mono fun y hy => ⟨(hagree y hy.2).2 hy.1, ?_⟩)
    rintro rfl
    exact Precedes.irrefl y hy.2

/-- Two maximal forests of the same ids are the same edge set. -/
theorem MaximalForest.unique {ids : List Nat} {A B : Nat × Edge → Prop}
    (hA : MaximalForest g ids A) (hB : MaximalForest g ids B) (x : Nat × Edge) : A x ↔ B x := by
  induction x using precedes_wf.induction with
  | _ x ih =>
    exact ⟨hA.of_agree hB ih, hB.of_agree hA fun y hy => (ih y hy).symm⟩

/-! ## The ends of built paths -/

section built

variable (h : g.Reachable) (ids : List Nat)
include h

theorem buildPaths_maximalForest : MaximalForest g ids (g.UsesOverlap (g.buildPaths ids)) :=
  (buildPaths_cover h ids).maximalForest

/-- No overlap edge of the built paths touches an end of a path. -/
theorem buildPaths_ends {p : Path} (hp : p ∈ g.buildPaths ids) {x : Nat × Edge}
    (hx : g.UsesOverlap (g.buildPaths ids) x) : ¬ x.2.Touches p.left ∧ ¬ x.2.Touches p.right := by
  have hi := h.inv
  obtain ⟨chosen, uf, hs⟩ := choosePartners_state hi ids
  obtain ⟨runOf, hc, -⟩ := hs.runs
  have hpart : ∀ (v : Vertex) j, (g.choosePartners (g.pathCandidates ids)).getD v.id none = some j →
      ∃ e, g.edge? j = some e ∧ g.joinsFree e = true := by
    intro v j hj
    obtain ⟨e, he, -⟩ := (hs.slot v j).1 hj
    exact ⟨e, (mem_pathCandidates.1 (hs.sub _ he)).2⟩
  obtain ⟨done, hb⟩ := BuildState.foldl hi hpart hc g.size le_rfl
  rw [buildPaths_eq] at hp hx
  rw [usesOverlap_iff hi hs hb] at hx
  obtain ⟨c, hcd, hw⟩ := exists_of_forall₂_left hb.walks (Array.mem_toList_iff.2 (by simpa using hp))
  have hchain := hb.chain c hcd
  -- a chosen edge at a vertex gives it a partner; the runs end where there is none
  have hfree : ∀ v, g.partnerAcross (g.choosePartners (g.pathCandidates ids)) v = none →
      ¬ x.2.Touches v := by
    intro v hv ht
    have hslot := (hs.slot v x.1).2 ⟨x.2, hx, ht⟩
    have hlive := (mem_pathCandidates.1 (hs.sub x hx)).2.1
    obtain ⟨w, hw⟩ := Option.isSome_iff_exists.1 (Edge.across_isSome.2 ht)
    simp [partnerAcross, hslot, hlive, hw] at hv
  refine ⟨hfree _ (hchain.head_free _ hw.2.1), ?_⟩
  obtain ⟨u, hu, hur⟩ := Option.map_eq_some_iff.1 hw.2.2
  rw [← hur]
  exact hfree _ (hchain.last_free u hu)

/-- Each overlap edge of the built paths joins two sequences of one path. -/
theorem buildPaths_sequences {x : Nat × Edge} (hx : g.UsesOverlap (g.buildPaths ids) x) :
    ∃ p ∈ g.buildPaths ids, x.2.v1.sequence ∈ p.sequenceIds g ∧ x.2.v2.sequence ∈ p.sequenceIds g := by
  obtain ⟨⟨p, hp, hxp⟩, he, hid⟩ := hx
  obtain ⟨us, hw⟩ := (buildPaths_cover h ids).walks p hp
  exact ⟨p, hp, Path.Walks.overlap_sequences hw hxp he hid⟩

/-- A sequence lies in one built path only. -/
theorem buildPaths_index_eq {i j : Nat} {p q : Path} (hpi : (g.buildPaths ids)[i]? = some p)
    (hqj : (g.buildPaths ids)[j]? = some q) {s : Nat} (hsp : s ∈ p.sequenceIds g)
    (hsq : s ∈ q.sequenceIds g) : i = j := by
  have hnodup : ((g.buildPaths ids).flatMap fun p => p.sequenceIds g).Nodup :=
    (buildPaths_cover h ids).perm.nodup_iff.2 (List.nodup_range.filter _)
  obtain ⟨-, hpair⟩ := List.nodup_flatMap.1 hnodup
  obtain ⟨hi, rfl⟩ := List.getElem?_eq_some_iff.1 hpi
  obtain ⟨hj, rfl⟩ := List.getElem?_eq_some_iff.1 hqj
  by_contra hne
  rcases Nat.lt_or_gt_of_ne hne with hlt | hlt
  · exact List.pairwise_iff_getElem.1 hpair i j hi hj hlt hsp hsq
  · exact List.pairwise_iff_getElem.1 hpair j i hj hi hlt hsq hsp

end built

end AssemblyGraph

end OverlapLayout
