import Mathlib
import OverlapLayout.Proofs.Paths.Walks
/-!
  Runs of sequences joined by partner edges.

  Path building gives each vertex at most one partner edge. Read through
  partners, the sequences fall into runs: each sequence is entered at one end,
  left at the other, and its exit is partnered with the next entry.

  * `AssemblyGraph.Follows`, `AssemblyGraph.PartnerChain`: a maximal run, by
    its entry vertices; `flipRun` reads it the other way.
  * `PartnerChain.append`: two runs joined by a new partner edge from the last
    exit of one to the first entry of the other.
  * `PartnerChain.free_end`, `PartnerChain.link`: a vertex of a run without a
    partner is one of its two ends; one with a partner lies on a link.
  * `walkToEnd_run`, `extendRight_run`: walking to the end of a run, and
    extending a path along it, follow the run.
-/

namespace OverlapLayout

theorem Vertex.eq_or_eq_opposite {x v : Vertex} (h : x.sequence = v.sequence) :
    x = v ∨ x = v.opposite := by
  obtain ⟨s, a⟩ := x
  obtain ⟨t, b⟩ := v
  simp only at h
  subst h
  cases a <;> cases b <;> simp [Vertex.opposite]

namespace AssemblyGraph

/-- The sequence of `w` is entered right after that of `u` is left: the exit of
`u`, opposite its entry, and the entry `w` are partners. -/
def Follows (nx : Vertex → Option Vertex) (u w : Vertex) : Prop :=
  nx u.opposite = some w ∧ nx w = some u.opposite

/-- A maximal run of sequences through partner edges, by entry vertices: nothing
is partnered before the first entry or after the last exit. -/
structure PartnerChain (nx : Vertex → Option Vertex) (c : List Vertex) : Prop where
  ne_nil : c ≠ []
  follows : c.IsChain (Follows nx)
  head_free : ∀ u ∈ c.head?, nx u = none
  last_free : ∀ u ∈ c.getLast?, nx u.opposite = none

/-- The run read the other way: each sequence entered at its other end. -/
def flipRun (c : List Vertex) : List Vertex := (c.map Vertex.opposite).reverse

@[simp] theorem map_sequence_flipRun (c : List Vertex) :
    (flipRun c).map Vertex.sequence = (c.map Vertex.sequence).reverse := by
  simp [flipRun, List.map_reverse, Function.comp_def]

@[simp] theorem head?_flipRun (c : List Vertex) : (flipRun c).head? = c.getLast?.map Vertex.opposite := by
  simp [flipRun]

@[simp] theorem getLast?_flipRun (c : List Vertex) :
    (flipRun c).getLast? = c.head?.map Vertex.opposite := by
  simp [flipRun]

variable {nx nx' : Vertex → Option Vertex}

namespace PartnerChain

theorem flip {c : List Vertex} (h : PartnerChain nx c) : PartnerChain nx (flipRun c) := by
  refine ⟨by simpa [flipRun] using h.ne_nil, ?_, ?_, ?_⟩
  · unfold flipRun
    rw [List.isChain_reverse, List.isChain_map]
    refine h.follows.imp fun u w huw => ?_
    simp only [Follows, Vertex.opposite_opposite] at huw ⊢
    exact ⟨huw.2, huw.1⟩
  · intro u hu
    simp only [head?_flipRun, Option.mem_def, Option.map_eq_some_iff] at hu
    obtain ⟨l, hl, rfl⟩ := hu
    exact h.last_free l hl
  · intro u hu
    simp only [getLast?_flipRun, Option.mem_def, Option.map_eq_some_iff] at hu
    obtain ⟨l, hl, rfl⟩ := hu
    simpa using h.head_free l hl

/-- A run reads the partners of its own vertices only. -/
theorem congr {c : List Vertex} (h : PartnerChain nx c)
    (heq : ∀ v, v.sequence ∈ c.map Vertex.sequence → nx' v = nx v) : PartnerChain nx' c := by
  have hmem : ∀ u ∈ c, ∀ v, v.sequence = u.sequence → nx' v = nx v :=
    fun u hu v hv => heq v (hv ▸ List.mem_map_of_mem hu)
  refine ⟨h.ne_nil, ?_, ?_, ?_⟩
  · refine List.IsChain.imp_of_mem_imp ?_ h.follows
    intro u w hu hw huw
    rw [Follows, hmem u hu _ (Vertex.opposite_sequence u), hmem w hw w rfl]
    exact huw
  · intro u hu
    rw [hmem u (List.mem_of_mem_head? hu) u rfl]
    exact h.head_free u hu
  · intro u hu
    rw [hmem u (List.mem_of_mem_getLast? hu) _ (Vertex.opposite_sequence u)]
    exact h.last_free u hu

/-- Partners of vertices outside two free ones are those of another partner map. -/
theorem follows_of_agree {u w a b : Vertex} (h : Follows nx u w) (ha : nx a = none) (hb : nx b = none)
    (heq : ∀ v, v ≠ a → v ≠ b → nx' v = nx v) : Follows nx' u w := by
  have hne : ∀ v y, nx v = some y → v ≠ a ∧ v ≠ b := by
    intro v y hv
    refine ⟨fun hva => ?_, fun hvb => ?_⟩
    · rw [hva, ha] at hv; cases hv
    · rw [hvb, hb] at hv; cases hv
  obtain ⟨h1, h2⟩ := h
  exact ⟨(heq _ (hne _ _ h1).1 (hne _ _ h1).2).trans h1, (heq _ (hne _ _ h2).1 (hne _ _ h2).2).trans h2⟩

/-- Two runs joined by a partner edge from the last exit of the first to the
first entry of the second. -/
theorem append {A B : List Vertex} {a b : Vertex} (hA : PartnerChain nx A) (hB : PartnerChain nx B)
    (hAn : (A.map Vertex.sequence).Nodup) (hBn : (B.map Vertex.sequence).Nodup)
    (hdisj : ∀ s ∈ A.map Vertex.sequence, s ∉ B.map Vertex.sequence)
    (ha : A.getLast? = some a) (hb : B.head? = some b)
    (h1 : nx' a.opposite = some b) (h2 : nx' b = some a.opposite)
    (heq : ∀ v, v ≠ a.opposite → v ≠ b → nx' v = nx v) : PartnerChain nx' (A ++ B) := by
  have hfa : nx a.opposite = none := hA.last_free a ha
  have hfb : nx b = none := hB.head_free b hb
  have hamem : a ∈ A := List.mem_of_mem_getLast? ha
  have hbmem : b ∈ B := List.mem_of_mem_head? hb
  -- a vertex of one run is not a vertex of the other
  have hsep : ∀ x ∈ A, ∀ y ∈ B, ∀ v : Vertex, v.sequence = x.sequence → v.sequence ≠ y.sequence := by
    intro x hx y hy v hv hvy
    exact hdisj _ (List.mem_map_of_mem hx) (hv ▸ hvy ▸ List.mem_map_of_mem hy)
  refine ⟨by simp [hA.ne_nil], ?_, ?_, ?_⟩
  · refine List.IsChain.append (hA.follows.imp fun u w h => follows_of_agree h hfa hfb heq)
      (hB.follows.imp fun u w h => follows_of_agree h hfa hfb heq) ?_
    intro x hx y hy
    rw [ha] at hx
    rw [hb] at hy
    cases hx
    cases hy
    exact ⟨h1, h2⟩
  · intro h hh
    have hh' : A.head? = some h := by
      obtain ⟨x, xs, rfl⟩ := List.exists_cons_of_ne_nil hA.ne_nil
      simpa using hh
    have hmem := List.mem_of_mem_head? hh'
    -- the first entry is neither end of the new edge
    have hna : h ≠ a.opposite := by
      intro hna
      have : h = a := List.inj_on_of_nodup_map hAn hmem hamem (by rw [hna]; simp)
      exact Vertex.opposite_ne a (this ▸ hna).symm
    have hnb : h ≠ b := fun hnb => hsep h hmem b hbmem h rfl (hnb ▸ rfl)
    rw [heq h hna hnb]
    exact hA.head_free h hh'
  · intro l hl
    have hl' : B.getLast? = some l := by
      obtain ⟨x, xs, rfl⟩ := List.exists_cons_of_ne_nil hB.ne_nil
      simpa [List.getLast?_append] using hl
    have hmem := List.mem_of_mem_getLast? hl'
    have hna : l.opposite ≠ a.opposite := fun hna =>
      hsep a hamem l hmem a rfl (by rw [← Vertex.opposite_sequence l, hna, Vertex.opposite_sequence])
    have hnb : l.opposite ≠ b := by
      intro hnb
      have : l = b := List.inj_on_of_nodup_map hBn hmem hbmem (by rw [← hnb]; simp)
      exact Vertex.opposite_ne l (this ▸ hnb)
    rw [heq _ hna hnb]
    exact hB.last_free l hl'

/-- The vertex `x` of a run's sequence is the entry or the exit of one entry `v`. -/
theorem exists_split {c : List Vertex} {x : Vertex} (hx : x.sequence ∈ c.map Vertex.sequence) :
    ∃ p v q, c = p ++ v :: q ∧ (x = v ∨ x = v.opposite) := by
  obtain ⟨v, hv, hvx⟩ := List.mem_map.1 hx
  obtain ⟨p, q, rfl⟩ := List.append_of_mem hv
  exact ⟨p, v, q, rfl, Vertex.eq_or_eq_opposite hvx.symm⟩

/-- A vertex of a run with no partner is its first entry or its last exit. -/
theorem free_end {c : List Vertex} (h : PartnerChain nx c) {x : Vertex}
    (hx : x.sequence ∈ c.map Vertex.sequence) (hfree : nx x = none) :
    c.head? = some x ∨ c.getLast?.map Vertex.opposite = some x := by
  obtain ⟨p, v, q, rfl, hxv | hxv⟩ := exists_split hx
  · rw [hxv] at hfree ⊢
    rcases List.eq_nil_or_concat p with rfl | ⟨p', u, rfl⟩
    · exact .inl rfl
    · -- `v` is entered from the exit of `u`
      have hf : Follows nx u v := by
        have := h.follows
        rw [List.concat_eq_append, List.append_assoc, List.singleton_append] at this
        exact (List.isChain_cons_cons.1 (List.isChain_append.1 this).2.1).1
      rw [hf.2] at hfree
      cases hfree
  · rw [hxv] at hfree ⊢
    cases q with
    | nil => exact .inr (by simp)
    | cons w q =>
      have hf : Follows nx v w :=
        (List.isChain_cons_cons.1 (List.isChain_append.1 h.follows).2.1).1
      rw [hf.1] at hfree
      cases hfree

/-- A vertex of a run with a partner lies on a link of the run. -/
theorem link {c : List Vertex} (h : PartnerChain nx c) {x z : Vertex}
    (hx : x.sequence ∈ c.map Vertex.sequence) (hz : nx x = some z) :
    ∃ u w, [u, w] <:+: c ∧ ((x = u.opposite ∧ z = w) ∨ (x = w ∧ z = u.opposite)) := by
  obtain ⟨p, v, q, rfl, hxv | hxv⟩ := exists_split hx
  · rw [hxv] at hz ⊢
    rcases List.eq_nil_or_concat p with rfl | ⟨p', u, rfl⟩
    · rw [h.head_free v (by simp)] at hz
      cases hz
    · have hf : Follows nx u v := by
        have := h.follows
        rw [List.concat_eq_append, List.append_assoc, List.singleton_append] at this
        exact (List.isChain_cons_cons.1 (List.isChain_append.1 this).2.1).1
      have hzu : z = u.opposite := Option.some.inj (hz.symm.trans hf.2)
      exact ⟨u, v, ⟨p', q, by simp⟩, .inr ⟨rfl, hzu⟩⟩
  · rw [hxv] at hz ⊢
    cases q with
    | nil =>
      rw [h.last_free v (by simp)] at hz
      cases hz
    | cons w q =>
      have hf : Follows nx v w :=
        (List.isChain_cons_cons.1 (List.isChain_append.1 h.follows).2.1).1
      have hzw : z = w := Option.some.inj (hz.symm.trans hf.1)
      exact ⟨v, w, ⟨p, q, by simp⟩, .inl ⟨rfl, hzw⟩⟩

end PartnerChain

/-! ## Every sequence in one run -/

/-- Each known sequence lies in its run `runOf s`, the runs of the sequences of a
run are that run, and runs are maximal with distinct known sequences. -/
structure RunCover (n : Nat) (nx : Vertex → Option Vertex) (runOf : Nat → List Vertex) : Prop where
  mem : ∀ s < n, s ∈ (runOf s).map Vertex.sequence
  same : ∀ s < n, ∀ t ∈ (runOf s).map Vertex.sequence, runOf t = runOf s
  chain : ∀ s < n, PartnerChain nx (runOf s)
  nodup : ∀ s < n, ((runOf s).map Vertex.sequence).Nodup
  lt : ∀ s < n, ∀ t ∈ (runOf s).map Vertex.sequence, t < n

namespace RunCover

variable {n : Nat} {runOf : Nat → List Vertex}

/-- A run oriented to end at a free vertex `x` of it. -/
theorem exists_orient_last (hc : RunCover n nx runOf) {x : Vertex} (hx : x.sequence < n)
    (hfree : nx x = none) : ∃ A a, PartnerChain nx A ∧ (A.map Vertex.sequence).Perm
      ((runOf x.sequence).map Vertex.sequence) ∧ A.getLast? = some a ∧ a.opposite = x := by
  have hch := hc.chain _ hx
  rcases hch.free_end (hc.mem _ hx) hfree with hh | hl
  · refine ⟨flipRun (runOf x.sequence), x.opposite, hch.flip, by simp, by simp [hh], by simp⟩
  · obtain ⟨a, ha, rfl⟩ := Option.map_eq_some_iff.1 hl
    exact ⟨_, a, hch, List.Perm.refl _, ha, rfl⟩

/-- A run oriented to start at a free vertex `y` of it. -/
theorem exists_orient_head (hc : RunCover n nx runOf) {y : Vertex} (hy : y.sequence < n)
    (hfree : nx y = none) : ∃ B, PartnerChain nx B ∧ (B.map Vertex.sequence).Perm
      ((runOf y.sequence).map Vertex.sequence) ∧ B.head? = some y := by
  have hch := hc.chain _ hy
  rcases hch.free_end (hc.mem _ hy) hfree with hh | hl
  · exact ⟨_, hch, List.Perm.refl _, hh⟩
  · exact ⟨flipRun (runOf y.sequence), hch.flip, by simp, by simp [hl]⟩

/-- A new partner edge between free vertices of two different runs joins the two
runs into one and leaves the others. -/
theorem merge (hc : RunCover n nx runOf) {x y : Vertex} (hx : x.sequence < n) (hy : y.sequence < n)
    (hxy : runOf x.sequence ≠ runOf y.sequence) (hfx : nx x = none) (hfy : nx y = none)
    (h1 : nx' x = some y) (h2 : nx' y = some x) (heq : ∀ v, v ≠ x → v ≠ y → nx' v = nx v) :
    ∃ runOf', RunCover n nx' runOf' ∧ ∀ a < n, ∀ b < n, (runOf' a = runOf' b ↔
      runOf a = runOf b ∨ (runOf a = runOf x.sequence ∧ runOf b = runOf y.sequence) ∨
        (runOf a = runOf y.sequence ∧ runOf b = runOf x.sequence)) := by
  obtain ⟨A, a, hA, hAp, ha, rfl⟩ := hc.exists_orient_last hx hfx
  obtain ⟨B, hB, hBp, hb⟩ := hc.exists_orient_head hy hfy
  -- the sequences of a run are those of its orientation
  have hmemA : ∀ t, t ∈ A.map Vertex.sequence ↔ runOf t = runOf a.opposite.sequence ∧ t < n := by
    intro t
    rw [hAp.mem_iff]
    exact ⟨fun ht => ⟨hc.same _ hx t ht, hc.lt _ hx t ht⟩, fun ⟨ht, htn⟩ => ht ▸ hc.mem t htn⟩
  have hmemB : ∀ t, t ∈ B.map Vertex.sequence ↔ runOf t = runOf y.sequence ∧ t < n := by
    intro t
    rw [hBp.mem_iff]
    exact ⟨fun ht => ⟨hc.same _ hy t ht, hc.lt _ hy t ht⟩, fun ⟨ht, htn⟩ => ht ▸ hc.mem t htn⟩
  have hdisj : ∀ t ∈ A.map Vertex.sequence, t ∉ B.map Vertex.sequence := fun t hA hB =>
    hxy (((hmemA t).1 hA).1.symm.trans ((hmemB t).1 hB).1)
  have hM := hA.append hB (hAp.nodup_iff.2 (hc.nodup _ hx)) (hBp.nodup_iff.2 (hc.nodup _ hy)) hdisj
    ha hb h1 h2 heq
  have hmemM : ∀ t, t ∈ (A ++ B).map Vertex.sequence ↔
      (runOf t = runOf a.opposite.sequence ∨ runOf t = runOf y.sequence) ∧ t < n := by
    intro t
    rw [List.map_append, List.mem_append, hmemA, hmemB]
    tauto
  let runOf' : Nat → List Vertex := fun t =>
    if runOf t = runOf a.opposite.sequence ∨ runOf t = runOf y.sequence then A ++ B else runOf t
  -- a run that is neither of the two keeps its vertices' partners
  have hother : ∀ t < n, ¬ (runOf t = runOf a.opposite.sequence ∨ runOf t = runOf y.sequence) →
      ∀ u ∈ (runOf t).map Vertex.sequence, ¬ (runOf u = runOf a.opposite.sequence ∨
        runOf u = runOf y.sequence) := by
    intro t ht h u hu
    rwa [hc.same t ht u hu]
  have hneM : ∀ t < n, ¬ (runOf t = runOf a.opposite.sequence ∨ runOf t = runOf y.sequence) →
      runOf t ≠ A ++ B := by
    intro t ht h hM
    have : a.opposite.sequence ∈ (runOf t).map Vertex.sequence := by
      rw [hM, hmemM]; exact ⟨.inl rfl, hx⟩
    exact hother t ht h _ this (.inl rfl)
  refine ⟨runOf', ⟨?_, ?_, ?_, ?_, ?_⟩, ?_⟩
  · intro t ht
    simp only [runOf']
    split
    · rename_i h; exact (hmemM t).2 ⟨h, ht⟩
    · exact hc.mem t ht
  · intro t ht u hu
    simp only [runOf'] at hu ⊢
    split at hu
    · rename_i h
      have hu' := (hmemM u).1 hu
      rw [if_pos hu'.1, if_pos h]
    · rename_i h
      have hu' : u < n := hc.lt t ht u hu
      rw [if_neg (hother t ht h u hu), if_neg h, hc.same t ht u hu]
  · intro t ht
    simp only [runOf']
    split
    · exact hM
    · rename_i h
      refine (hc.chain t ht).congr fun v hv => heq v ?_ ?_
      · rintro rfl; exact hother t ht h _ hv (.inl rfl)
      · rintro rfl; exact hother t ht h _ hv (.inr rfl)
  · intro t ht
    simp only [runOf']
    split
    · rw [List.map_append]
      exact List.nodup_append.2 ⟨hAp.nodup_iff.2 (hc.nodup _ hx), hBp.nodup_iff.2 (hc.nodup _ hy),
        fun t hA t' hB heq => hdisj t hA (heq ▸ hB)⟩
    · exact hc.nodup t ht
  · intro t ht u hu
    simp only [runOf'] at hu
    split at hu
    · exact ((hmemM u).1 hu).2
    · exact hc.lt t ht u hu
  · intro s hs t ht
    simp only [runOf']
    by_cases hsm : runOf s = runOf a.opposite.sequence ∨ runOf s = runOf y.sequence <;>
      by_cases htm : runOf t = runOf a.opposite.sequence ∨ runOf t = runOf y.sequence
    · simp only [hsm, htm, ↓reduceIte, true_iff]
      rcases hsm with hs' | hs' <;> rcases htm with ht' | ht' <;> simp [hs', ht']
    · simp only [hsm, htm, ↓reduceIte]
      have := hneM t ht htm
      constructor
      · intro h; exact absurd h.symm this
      · rintro (h | ⟨-, h⟩ | ⟨-, h⟩) <;> simp_all
    · simp only [hsm, htm, ↓reduceIte]
      have := hneM s hs hsm
      constructor
      · intro h; exact absurd h this
      · rintro (h | ⟨h, -⟩ | ⟨h, -⟩) <;> simp_all
    · simp only [hsm, htm, ↓reduceIte]
      constructor
      · exact Or.inl
      · rintro (h | ⟨h, -⟩ | ⟨h, -⟩) <;> simp_all

/-- Each vertex of a known sequence is an entry of its run read one way or the other. -/
theorem orient (hc : RunCover n nx runOf) {v : Vertex} (hv : v.sequence < n) :
    ∃ c, PartnerChain nx c ∧ (c.map Vertex.sequence).Perm ((runOf v.sequence).map Vertex.sequence) ∧
      v ∈ c := by
  obtain ⟨u, hu, hus⟩ := List.mem_map.1 (hc.mem _ hv)
  rcases Vertex.eq_or_eq_opposite hus with rfl | rfl
  · exact ⟨_, hc.chain _ hv, List.Perm.refl _, hu⟩
  · refine ⟨flipRun (runOf v.opposite.sequence), (hc.chain _ hv).flip, by simp [List.reverse_perm], ?_⟩
    simp only [flipRun, List.mem_reverse, List.mem_map]
    exact ⟨v.opposite, by simpa using hu, by simp⟩

end RunCover

/-! ## Walking along a run -/

variable {g : AssemblyGraph} {partner : Array (Option Nat)}

theorem partnerAcross_eq_some {v w : Vertex} :
    g.partnerAcross partner v = some w ↔
      ∃ j e, partner.getD v.id none = some j ∧ g.edge? j = some e ∧ e.across v = some w := by
  simp only [partnerAcross, Option.bind_eq_some_iff]
  constructor
  · rintro ⟨e, ⟨j, hj, he⟩, hw⟩
    exact ⟨j, e, hj, he, hw⟩
  · rintro ⟨j, e, hj, he, hw⟩
    exact ⟨e, ⟨j, hj, he⟩, hw⟩

theorem getD_set!_of_ne (a : Array Bool) {i t : Nat} (b : Bool) (h : i ≠ t) :
    (a.set! i b).getD t false = a.getD t false := by
  simp [Array.getD_eq_getD_getElem?, Array.set!_eq_setIfInBounds, h]

/-- Walking from the exit of an entry of a run, through partners and across each
sequence met, ends at the run's last exit. The walk never meets the sequence it
was asked to stop at. -/
theorem walkToEnd_run {s : Nat} (q : List Vertex) :
    ∀ (u : Vertex) (k : Nat), (u :: q).IsChain (Follows (g.partnerAcross partner)) →
      (∀ l ∈ (u :: q).getLast?, g.partnerAcross partner l.opposite = none) →
      s ∉ q.map Vertex.sequence → q.length < k →
      (u :: q).getLast?.map Vertex.opposite = some (g.walkToEnd partner s k u.opposite) := by
  induction q with
  | nil =>
    intro u k _ hlast _ hk
    obtain ⟨k, rfl⟩ : ∃ k', k = k' + 1 := ⟨k - 1, by simp at hk; omega⟩
    simp [walkToEnd, hlast u (by simp)]
  | cons w q ih =>
    intro u k hc hlast hs hk
    obtain ⟨k, rfl⟩ : ∃ k', k = k' + 1 := ⟨k - 1, by simp at hk; omega⟩
    have hf := (List.isChain_cons_cons.1 hc).1
    have hw : w.opposite.sequence ≠ s := by
      intro h
      apply hs
      simp [← h]
    simp only [walkToEnd, hf.1, hw, ↓reduceIte]
    have hs' : s ∉ q.map Vertex.sequence := fun h => hs (List.mem_cons_of_mem _ h)
    rw [← ih w k (List.isChain_cons_cons.1 hc).2 (by simpa [List.getLast?_cons_cons] using hlast) hs'
      (by simp at hk; omega)]
    simp [List.getLast?_cons_cons]

/-- Extending a path whose last exit is the exit of an entry of a run takes in the
rest of the run, an overlap edge and an identity edge per sequence, and marks each
sequence visited. -/
theorem extendRight_run (hi : g.Inv)
    (hslot : ∀ (v : Vertex) j e, partner.getD v.id none = some j → g.edge? j = some e → e.isIdentity = false)
    (q : List Vertex) :
    ∀ (u : Vertex) (pre : List Vertex) (p : Path) (visited : Array Bool) (k : Nat),
      (u :: q).IsChain (Follows (g.partnerAcross partner)) →
      (∀ l ∈ (u :: q).getLast?, g.partnerAcross partner l.opposite = none) →
      p.Walks g (pre ++ [u]) → (q.map Vertex.sequence).Nodup →
      (∀ w ∈ q, w.sequence < g.size ∧ visited.getD w.sequence false = false) → q.length < k →
      (g.extendRight partner k p visited).1.Walks g (pre ++ u :: q) ∧
      (g.extendRight partner k p visited).1.alternatives = p.alternatives ∧
      (g.extendRight partner k p visited).2 = q.foldl (fun vis w => vis.set! w.sequence true) visited := by
  induction q with
  | nil =>
    intro u pre p visited k _ hlast hp _ _ hk
    obtain ⟨k, rfl⟩ : ∃ k', k = k' + 1 := ⟨k - 1, by simp at hk; omega⟩
    have hright : p.right = u.opposite := by
      have := hp.2.2
      simp only [List.getLast?_append, List.getLast?_singleton, Option.some_or, Option.map_some,
        Option.some.injEq] at this
      exact this.symm
    -- the last exit has no partner edge that leads anywhere
    have hstop : g.extendRight partner (k + 1) p visited = (p, visited) := by
      have hfree := hlast u (by simp)
      simp only [partnerAcross] at hfree
      simp only [extendRight, hright]
      split
      · rfl
      · rename_i j hj
        rw [hj] at hfree
        simp only [Option.bind_some] at hfree
        simp [Path.connectRight, hright, hfree]
    rw [hstop]
    exact ⟨hp, rfl, rfl⟩
  | cons w q ih =>
    intro u pre p visited k hc hlast hp hnd hq hk
    obtain ⟨k, rfl⟩ : ∃ k', k = k' + 1 := ⟨k - 1, by simp at hk; omega⟩
    have hright : p.right = u.opposite := by
      have := hp.2.2
      simp only [List.getLast?_append, List.getLast?_singleton, Option.some_or, Option.map_some,
        Option.some.injEq] at this
      exact this.symm
    obtain ⟨j, e, hj, he, hw⟩ := partnerAcross_eq_some.1 (List.isChain_cons_cons.1 hc).1.1
    obtain ⟨hwn, hwv⟩ := hq w (by simp)
    have hnd' := hnd
    rw [List.map_cons, List.nodup_cons] at hnd'
    -- one step: the partner edge to `w`, then the identity edge through it
    let p2 : Path := { p with edges := (p.edges.push j).push w.sequence, right := w.opposite }
    have hstep : g.extendRight partner (k + 1) p visited =
        g.extendRight partner k p2 (visited.set! w.sequence true) := by
      obtain ⟨f, hf, -, hfw⟩ := hi.identityAt hwn
      simp [extendRight, hright, hj, Path.connectRight, he, hw, hwv, hi.identityEdge? hwn, hf, hfw, p2]
    have hp2 : p2.Walks g ((pre ++ [u]) ++ [w]) := by
      refine ⟨?_, ?_, ?_⟩
      · have := hp.1.snoc (by simp) ⟨e, he, hslot _ _ _ hj he, hw⟩ (hi.identityAt hwn)
        simpa [p2] using this
      · simpa [p2] using hp.2.1
      · simp [p2]
    have hq' : ∀ w' ∈ q, w'.sequence < g.size ∧
        (visited.set! w.sequence true).getD w'.sequence false = false := by
      intro w' hw'
      have hne : w.sequence ≠ w'.sequence := fun h => hnd'.1 (h ▸ List.mem_map_of_mem hw')
      exact ⟨(hq w' (by simp [hw'])).1, by rw [getD_set!_of_ne _ _ hne]; exact (hq w' (by simp [hw'])).2⟩
    obtain ⟨h1, h2, h3⟩ := ih w (pre ++ [u]) p2 _ k (List.isChain_cons_cons.1 hc).2
      (by simpa [List.getLast?_cons_cons] using hlast) hp2 hnd'.2 hq' (by simp at hk; omega)
    rw [hstep]
    refine ⟨by simpa using h1, h2, by simpa using h3⟩

end AssemblyGraph

end OverlapLayout
