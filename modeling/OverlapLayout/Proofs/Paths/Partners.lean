import Mathlib
import OverlapLayout.Proofs.Paths.Chains
import OverlapLayout.Proofs.Paths.Candidates
import OverlapLayout.Proofs.Paths.UnionFind
/-!
  Choosing partner edges, Kruskal's way.

  `choosePartners` takes the candidates cheapest first and keeps an edge when
  neither of its ends has one yet and it joins two classes of the disjoint
  sets. `PartnerState` says what that leaves after any prefix of candidates:

  * each vertex's slot names the chosen edge touching it, if any;
  * the disjoint sets are the classes of `Joined` over the chosen edges, and
    the runs of the partner edges (`RunCover`);
  * no chosen edge joins sequences the others join (`forest`), and every
    candidate left out had an end already taken by an earlier chosen edge or
    joined sequences already joined by earlier ones (`maximal`).

  `choosePartners_state` gives it for all candidates.
-/

namespace OverlapLayout

namespace AssemblyGraph

/-- Two sequences joined through edges of the set `S`. -/
def Joined (S : Nat × Edge → Prop) : Nat → Nat → Prop :=
  Relation.EqvGen fun a b => ∃ x, S x ∧ x.2.v1.sequence = a ∧ x.2.v2.sequence = b

theorem Joined.mono {S T : Nat × Edge → Prop} (h : ∀ x, S x → T x) {a b : Nat} (hab : Joined S a b) :
    Joined T a b :=
  Relation.EqvGen.mono (fun _ _ ⟨x, hx, h1, h2⟩ => ⟨x, h x hx, h1, h2⟩) a b hab

theorem joined_congr {S T : Nat × Edge → Prop} (h : ∀ x, S x ↔ T x) {a b : Nat} :
    Joined S a b ↔ Joined T a b :=
  ⟨Joined.mono fun x => (h x).1, Joined.mono fun x => (h x).2⟩

/-- Without edges only a sequence is joined to itself. -/
theorem joined_empty {a b : Nat} : Joined (fun _ => False) a b ↔ a = b :=
  UnionFind.eqvGen_iff_eq_of_empty fun _ _ ⟨_, h, _⟩ => h

/-- One more edge joins what it joins through the edges already there. -/
theorem joined_insert {S : Nat × Edge → Prop} {z : Nat × Edge} {a b : Nat} :
    Joined (fun y => S y ∨ y = z) a b ↔ Joined S a b ∨
      (Joined S a z.2.v1.sequence ∧ Joined S z.2.v2.sequence b) ∨
      (Joined S a z.2.v2.sequence ∧ Joined S z.2.v1.sequence b) := by
  -- the new edge is one more pair of sequences
  have hpair : (fun u v => ∃ x, (S x ∨ x = z) ∧ x.2.v1.sequence = u ∧ x.2.v2.sequence = v) =
      fun u v => (∃ x, S x ∧ x.2.v1.sequence = u ∧ x.2.v2.sequence = v) ∨
        u = z.2.v1.sequence ∧ v = z.2.v2.sequence := by
    funext u v
    apply propext
    constructor
    · rintro ⟨x, hx | rfl, rfl, rfl⟩
      · exact .inl ⟨x, hx, rfl, rfl⟩
      · exact .inr ⟨rfl, rfl⟩
    · rintro (⟨x, hx, rfl, rfl⟩ | ⟨rfl, rfl⟩)
      · exact ⟨x, .inl hx, rfl, rfl⟩
      · exact ⟨z, .inr rfl, rfl, rfl⟩
  have hsymm : ∀ {u v : Nat}, Joined S u v ↔ Joined S v u := ⟨.symm _ _, .symm _ _⟩
  show Relation.EqvGen _ a b ↔ _
  rw [hpair, UnionFind.eqvGen_or_pair]
  exact or_congr Iff.rfl (or_congr (and_congr Iff.rfl hsymm) (and_congr Iff.rfl hsymm))

/-! ## One candidate -/

/-- One candidate considered by `choosePartners`. -/
def partnerStep (st : Array (Option Nat) × UnionFind) (x : Nat × Edge) : Array (Option Nat) × UnionFind :=
  if (st.1.getD x.2.v1.id none).isSome || (st.1.getD x.2.v2.id none).isSome then st
  else if (st.2.union x.2.v1.sequence x.2.v2.sequence).1 then
    ((st.1.set! x.2.v1.id (some x.1)).set! x.2.v2.id (some x.1),
      (st.2.union x.2.v1.sequence x.2.v2.sequence).2)
  else (st.1, (st.2.union x.2.v1.sequence x.2.v2.sequence).2)

theorem choosePartners_eq (g : AssemblyGraph) (cands : List (Nat × Edge)) :
    g.choosePartners cands =
      (cands.foldl partnerStep (Array.replicate (2 * g.size) none, UnionFind.new g.size)).1 := rfl

variable {g : AssemblyGraph}

theorem getD_set!_some (a : Array (Option Nat)) (i t j : Nat) :
    (a.set! i (some j)).getD t none = if i = t ∧ i < a.size then some j else a.getD t none := by
  simp only [Array.getD_eq_getD_getElem?, Array.set!_eq_setIfInBounds, Array.getElem?_setIfInBounds]
  by_cases h : i = t
  · subst h
    by_cases h' : i < a.size
    · simp [h']
    · simp [h']
  · simp [h]

/-- Giving both ends of a live edge that edge as partner. -/
theorem partnerAcross_set {partner : Array (Option Nat)} {j : Nat} {e : Edge}
    (hsize : partner.size = 2 * g.size) (he : g.edge? j = some e) (hne : e.v1 ≠ e.v2)
    (h1 : e.v1.sequence < g.size) (h2 : e.v2.sequence < g.size) (v : Vertex) :
    g.partnerAcross ((partner.set! e.v1.id (some j)).set! e.v2.id (some j)) v =
      if v = e.v1 then some e.v2 else if v = e.v2 then some e.v1 else g.partnerAcross partner v := by
  have hl1 := Vertex.id_lt h1
  have hl2 := Vertex.id_lt h2
  have hs1 : (partner.set! e.v1.id (some j)).size = 2 * g.size := by simp [hsize]
  unfold partnerAcross
  rw [getD_set!_some, getD_set!_some]
  simp only [hs1, hsize, hl1, hl2, and_true, Vertex.id_inj]
  by_cases hv1 : v = e.v1
  · subst hv1
    simp [Ne.symm hne, he, Edge.across]
  · by_cases hv2 : v = e.v2
    · subst hv2
      simp [he, Edge.across, hne, hv1]
    · simp [hv1, hv2, Ne.symm hv1, Ne.symm hv2]

/-! ## The state after a prefix of candidates -/

/-- What the slots and the disjoint sets hold once the candidates `pre` were
considered and `chosen` of them taken. -/
structure PartnerState (g : AssemblyGraph) (pre chosen : List (Nat × Edge))
    (partner : Array (Option Nat)) (uf : UnionFind) : Prop where
  size : partner.size = 2 * g.size
  slot : ∀ (v : Vertex) (j : Nat), partner.getD v.id none = some j ↔ ∃ e, (j, e) ∈ chosen ∧ e.Touches v
  sub : ∀ x ∈ chosen, x ∈ pre
  wf : uf.WF
  find : ∀ a b, uf.find a = uf.find b ↔ Joined (· ∈ chosen) a b
  runs : ∃ runOf, RunCover g.size (g.partnerAcross partner) runOf ∧
    ∀ a < g.size, ∀ b < g.size, (runOf a = runOf b ↔ uf.find a = uf.find b)
  forest : ∀ x ∈ chosen,
    ¬ Joined (fun y => y ∈ chosen ∧ y ≠ x) x.2.v1.sequence x.2.v2.sequence
  maximal : ∀ x ∈ pre, x ∉ chosen →
    (∃ y ∈ chosen, Precedes y x ∧ (y.2.Touches x.2.v1 ∨ y.2.Touches x.2.v2)) ∨
      Joined (fun y => y ∈ chosen ∧ Precedes y x) x.2.v1.sequence x.2.v2.sequence

theorem partnerState_init : PartnerState g [] [] (Array.replicate (2 * g.size) none) (UnionFind.new g.size) := by
  have hnone : ∀ v : Vertex, (Array.replicate (2 * g.size) (none : Option Nat)).getD v.id none = none := by
    intro v
    simp only [Array.getD_eq_getD_getElem?, Array.getElem?_replicate]
    split <;> rfl
  refine ⟨by simp, fun v j => by simp [hnone v], by simp, UnionFind.wf_new _, ?_, ?_, by simp, by simp⟩
  · intro a b
    rw [UnionFind.find_new, UnionFind.find_new, joined_congr (T := fun _ => False) (by simp), joined_empty]
  · refine ⟨fun s => [Vertex.startOf s], ⟨?_, ?_, ?_, ?_, ?_⟩, ?_⟩
    · intro s _; simp
    · intro s _ t ht; simp at ht; rw [ht]
    · intro s _
      refine ⟨by simp, List.isChain_singleton _, ?_, ?_⟩ <;> simp [partnerAcross, hnone]
    · intro s _; simp
    · intro s hs t ht; simp at ht; omega
    · intro a _ b _
      simp [UnionFind.find_new, Vertex.startOf]

variable {pre chosen : List (Nat × Edge)} {partner : Array (Option Nat)} {uf : UnionFind}

/-- Joining through the chosen edges before `z`, when all of them come before it. -/
theorem joined_before {z : Nat × Edge} (hall : ∀ y ∈ chosen, Precedes y z) {a b : Nat} :
    Joined (fun y => y ∈ chosen ∧ Precedes y z) a b ↔ Joined (· ∈ chosen) a b :=
  joined_congr fun y => ⟨fun h => h.1, fun h => ⟨h, hall y h⟩⟩

/-- A union of two elements of one class changes no class. -/
theorem UnionFind.find_union_of_eq {u : UnionFind} (hu : u.WF) {a b : Nat} (hab : u.find a = u.find b)
    (x y : Nat) : (u.union a b).2.find x = (u.union a b).2.find y ↔ u.find x = u.find y := by
  rw [(UnionFind.union_spec hu a b).2.2]
  constructor
  · rintro (h | ⟨h1, h2⟩ | ⟨h1, h2⟩)
    · exact h
    · rw [h1, h2, hab]
    · rw [h1, h2, hab]
  · exact Or.inl

theorem Joined.comm {S : Nat × Edge → Prop} {a b : Nat} : Joined S a b ↔ Joined S b a :=
  ⟨.symm _ _, .symm _ _⟩

namespace PartnerState

variable (hs : PartnerState g pre chosen partner uf) {z : Nat × Edge} (hpre : ∀ x ∈ pre, Precedes x z)
include hs hpre

theorem not_mem_chosen : z ∉ chosen := fun h => Precedes.irrefl z (hpre z (hs.sub z h))

/-- A candidate with an end already taken is left out. -/
theorem skip_taken (htaken : ((partner.getD z.2.v1.id none).isSome || (partner.getD z.2.v2.id none).isSome) = true) :
    PartnerState g (pre ++ [z]) chosen partner uf := by
  refine { hs with sub := fun x hx => List.mem_append_left _ (hs.sub x hx), maximal := ?_ }
  intro x hx hxc
  rcases List.mem_append.1 hx with hx | hx
  · exact hs.maximal x hx hxc
  rw [List.mem_singleton] at hx
  subst hx
  -- the slot taken names a chosen edge at that end
  obtain ⟨v, hv, hslot⟩ : ∃ v, (v = x.2.v1 ∨ v = x.2.v2) ∧ (partner.getD v.id none).isSome := by
    rcases Bool.or_eq_true_iff.1 htaken with h | h
    exacts [⟨_, .inl rfl, h⟩, ⟨_, .inr rfl, h⟩]
  obtain ⟨i, hi⟩ := Option.isSome_iff_exists.1 hslot
  obtain ⟨f, hf, hft⟩ := (hs.slot v i).1 hi
  refine .inl ⟨(i, f), hf, hpre _ (hs.sub _ hf), ?_⟩
  rcases hv with rfl | rfl
  exacts [.inl hft, .inr hft]

/-- A candidate joining sequences already joined is left out; the union changes no class. -/
theorem skip_joined (hj : uf.find z.2.v1.sequence = uf.find z.2.v2.sequence) :
    PartnerState g (pre ++ [z]) chosen partner (uf.union z.2.v1.sequence z.2.v2.sequence).2 := by
  have hall : ∀ y ∈ chosen, Precedes y z := fun y hy => hpre y (hs.sub y hy)
  have hfind := UnionFind.find_union_of_eq hs.wf hj
  obtain ⟨runOf, hc, hr⟩ := hs.runs
  refine
    { hs with
      sub := fun x hx => List.mem_append_left _ (hs.sub x hx)
      wf := (UnionFind.union_spec hs.wf _ _).2.1
      find := fun a b => (hfind a b).trans (hs.find a b)
      runs := ⟨runOf, hc, fun a ha b hb => (hr a ha b hb).trans (hfind a b).symm⟩
      maximal := ?_ }
  intro x hx hxc
  rcases List.mem_append.1 hx with hx | hx
  · exact hs.maximal x hx hxc
  rw [List.mem_singleton] at hx
  subst hx
  exact .inr ((joined_before hall).2 ((hs.find _ _).1 hj))

/-- A candidate with both ends free joining two classes is taken: its id goes
into both slots and the classes, and the runs, of its ends merge. -/
theorem take (hi : g.Inv) (hz : g.edge? z.1 = some z.2)
    (h1 : partner.getD z.2.v1.id none = none) (h2 : partner.getD z.2.v2.id none = none)
    (hj : uf.find z.2.v1.sequence ≠ uf.find z.2.v2.sequence) :
    PartnerState g (pre ++ [z]) (chosen ++ [z])
      ((partner.set! z.2.v1.id (some z.1)).set! z.2.v2.id (some z.1))
      (uf.union z.2.v1.sequence z.2.v2.sequence).2 := by
  obtain ⟨j, e⟩ := z
  dsimp only at hz h1 h2 hj ⊢
  have hall : ∀ y ∈ chosen, Precedes y (j, e) := fun y hy => hpre y (hs.sub y hy)
  have hne := hi.arena.ends_ne hz
  obtain ⟨hl1, hl2⟩ := hi.arena.ends_lt hz
  have hmem : ∀ y, y ∈ chosen ++ [(j, e)] ↔ y ∈ chosen ∨ y = (j, e) := by simp
  have hU := UnionFind.union_spec hs.wf e.v1.sequence e.v2.sequence
  have hset := partnerAcross_set hs.size hz hne hl1 hl2
  refine ⟨by simp [hs.size], ?_, ?_, hU.2.1, ?_, ?_, ?_, ?_⟩
  · -- the slots of the two ends now name the edge, the others are unchanged
    intro v i
    have hs1 : (partner.set! e.v1.id (some j)).size = 2 * g.size := by simp [hs.size]
    rw [getD_set!_some, getD_set!_some, hs1, hs.size]
    simp only [Vertex.id_lt hl1, Vertex.id_lt hl2, and_true, Vertex.id_inj, List.mem_append,
      List.mem_singleton, Prod.mk.injEq]
    by_cases hv : e.Touches v
    · have hold : partner.getD v.id none = none := by rcases hv with rfl | rfl; exacts [h1, h2]
      have hif : (if e.v2 = v then some j else if e.v1 = v then some j else partner.getD v.id none) =
          some j := by
        rcases hv with h | h <;> simp [h]
      rw [hif]
      constructor
      · intro h
        cases h
        exact ⟨e, .inr ⟨rfl, rfl⟩, hv⟩
      · rintro ⟨f, hf | ⟨rfl, rfl⟩, hft⟩
        · have := (hs.slot v i).2 ⟨f, hf, hft⟩
          rw [hold] at this
          cases this
        · rfl
    · have hv1 : e.v1 ≠ v := fun h => hv (.inl h)
      have hv2 : e.v2 ≠ v := fun h => hv (.inr h)
      rw [if_neg hv2, if_neg hv1, hs.slot]
      constructor
      · rintro ⟨f, hf, hft⟩
        exact ⟨f, .inl hf, hft⟩
      · rintro ⟨f, hf | ⟨-, rfl⟩, hft⟩
        · exact ⟨f, hf, hft⟩
        · exact absurd hft hv
  · intro x hx
    rcases List.mem_append.1 hx with hx | hx
    · exact List.mem_append_left _ (hs.sub x hx)
    · exact List.mem_append_right _ hx
  · intro a b
    simp only [hU.2.2, hs.find]
    rw [joined_congr hmem, joined_insert]
    dsimp only
    rw [Joined.comm (a := e.v2.sequence) (b := b), Joined.comm (a := e.v1.sequence) (b := b)]
  · obtain ⟨runOf, hc, hr⟩ := hs.runs
    have hfree : ∀ v : Vertex, partner.getD v.id none = none → g.partnerAcross partner v = none := by
      intro v hv
      simp [partnerAcross, hv]
    have hx1 : g.partnerAcross ((partner.set! e.v1.id (some j)).set! e.v2.id (some j)) e.v1 =
        some e.v2 := by
      rw [hset]; simp
    obtain ⟨runOf', hc', hr'⟩ := hc.merge hl1 hl2 (fun h => hj ((hr _ hl1 _ hl2).1 h))
      (hfree _ h1) (hfree _ h2) hx1 (by rw [hset]; simp [Ne.symm hne])
      (fun v hv1 hv2 => by rw [hset]; simp [hv1, hv2])
    refine ⟨runOf', hc', fun a ha b hb => ?_⟩
    rw [hr' a ha b hb, hU.2.2, hr a ha b hb, hr a ha _ hl1, hr b hb _ hl2, hr a ha _ hl2, hr b hb _ hl1]
  · -- a cycle through the new edge, or through an old one and the new one, would
    -- have joined the new edge's ends already
    have hJz : ¬ Joined (· ∈ chosen) e.v1.sequence e.v2.sequence := fun h => hj ((hs.find _ _).2 h)
    intro x hx
    rcases List.mem_append.1 hx with hx | hx
    · have hxz : x ≠ (j, e) := fun h => hs.not_mem_chosen hpre (h ▸ hx)
      have hT : ∀ y, (y ∈ chosen ++ [(j, e)] ∧ y ≠ x) ↔ ((y ∈ chosen ∧ y ≠ x) ∨ y = (j, e)) := by
        intro y
        rw [hmem]
        constructor
        · rintro ⟨hy | rfl, hyx⟩
          · exact .inl ⟨hy, hyx⟩
          · exact .inr rfl
        · rintro (⟨hy, hyx⟩ | rfl)
          · exact ⟨.inl hy, hyx⟩
          · exact ⟨.inr rfl, Ne.symm hxz⟩
      have hold : ∀ {a b}, Joined (fun y => y ∈ chosen ∧ y ≠ x) a b → Joined (· ∈ chosen) a b :=
        Joined.mono fun _ hy => hy.1
      have hx' : Joined (· ∈ chosen) x.2.v1.sequence x.2.v2.sequence := .rel _ _ ⟨x, hx, rfl, rfl⟩
      rw [joined_congr hT, joined_insert]
      rintro (h | ⟨h1, h2⟩ | ⟨h1, h2⟩)
      · exact hs.forest x hx h
      · exact hJz (.trans _ _ _ (.symm _ _ (hold h1)) (.trans _ _ _ hx' (.symm _ _ (hold h2))))
      · exact hJz (.trans _ _ _ (hold h2) (.trans _ _ _ (.symm _ _ hx') (hold h1)))
    · rw [List.mem_singleton] at hx
      subst hx
      have hT : ∀ y, (y ∈ chosen ++ [(j, e)] ∧ y ≠ (j, e)) ↔ y ∈ chosen := by
        intro y
        rw [hmem]
        constructor
        · rintro ⟨hy | rfl, hyx⟩
          · exact hy
          · exact absurd rfl hyx
        · intro hy
          exact ⟨.inl hy, fun h => hs.not_mem_chosen hpre (h ▸ hy)⟩
      rw [joined_congr hT]
      exact hJz
  · intro x hx hxc
    have hxc' : x ∉ chosen := fun h => hxc (List.mem_append_left _ h)
    rcases List.mem_append.1 hx with hx | hx
    · rcases hs.maximal x hx hxc' with ⟨y, hy, hyx, hyt⟩ | hJ
      · exact .inl ⟨y, List.mem_append_left _ hy, hyx, hyt⟩
      · exact .inr (hJ.mono fun y hy => ⟨List.mem_append_left _ hy.1, hy.2⟩)
    · exact absurd (List.mem_append_right _ hx) hxc

end PartnerState

/-- One candidate, after all those before it in the order, keeps a `PartnerState`. -/
theorem PartnerState.step (hi : g.Inv) {st : Array (Option Nat) × UnionFind}
    (hs : PartnerState g pre chosen st.1 st.2) {z : Nat × Edge} (hpre : ∀ x ∈ pre, Precedes x z)
    (hz : g.edge? z.1 = some z.2) :
    ∃ chosen', PartnerState g (pre ++ [z]) chosen' (partnerStep st z).1 (partnerStep st z).2 := by
  have hU := (UnionFind.union_spec hs.wf z.2.v1.sequence z.2.v2.sequence).1
  unfold partnerStep
  split
  · next htaken => exact ⟨chosen, hs.skip_taken hpre htaken⟩
  · next htaken =>
    simp only [Bool.or_eq_true, Option.isSome_iff_ne_none, ne_eq, not_or, not_not] at htaken
    split
    · next hu =>
      rw [hU, Bool.not_eq_true', decide_eq_false_iff_not] at hu
      exact ⟨_, hs.take hpre hi hz htaken.1 htaken.2 hu⟩
    · next hu =>
      rw [hU, Bool.not_eq_true, Bool.not_eq_false', decide_eq_true_eq] at hu
      exact ⟨chosen, hs.skip_joined hpre hu⟩

theorem PartnerState.foldl (hi : g.Inv) (rest : List (Nat × Edge))
    (hlive : ∀ x ∈ rest, g.edge? x.1 = some x.2) :
    ∀ (pre chosen : List (Nat × Edge)) (st : Array (Option Nat) × UnionFind),
      PartnerState g pre chosen st.1 st.2 → (pre ++ rest).Pairwise Precedes →
      ∃ chosen', PartnerState g (pre ++ rest) chosen' (rest.foldl partnerStep st).1
        (rest.foldl partnerStep st).2 := by
  induction rest with
  | nil =>
    intro pre chosen st hs _
    exact ⟨chosen, by simpa using hs⟩
  | cons z rest ih =>
    intro pre chosen st hs hord
    have hpre : ∀ x ∈ pre, Precedes x z :=
      fun x hx => (List.pairwise_append.1 hord).2.2 x hx z List.mem_cons_self
    obtain ⟨chosen', hs'⟩ := hs.step hi hpre (hlive z List.mem_cons_self)
    have := ih (fun x hx => hlive x (List.mem_cons_of_mem _ hx)) (pre ++ [z]) chosen' _ hs'
      (by simpa using hord)
    simpa using this

/-- The slots `choosePartners` fills over the candidates of some ids are those of a
`PartnerState` over all of them. -/
theorem choosePartners_state (hi : g.Inv) (ids : List Nat) :
    ∃ chosen uf, PartnerState g (g.pathCandidates ids) chosen (g.choosePartners (g.pathCandidates ids)) uf := by
  obtain ⟨chosen, hs⟩ := PartnerState.foldl hi (g.pathCandidates ids)
    (fun x hx => (mem_pathCandidates.1 hx).2.1) [] []
    (Array.replicate (2 * g.size) none, UnionFind.new g.size) partnerState_init
    (by simpa using pairwise_pathCandidates)
  exact ⟨chosen, _, by rw [choosePartners_eq]; simpa using hs⟩

end AssemblyGraph

end OverlapLayout
