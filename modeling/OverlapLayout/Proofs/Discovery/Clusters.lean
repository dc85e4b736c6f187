import Mathlib
import OverlapLayout.Proofs.Discovery.Chains
/-!
  The clusters of a subject's hits partition some of them.

  Each round of `chains` takes the best chain among the hits not used yet and marks its hits
  used; `bestChain_spec` says that chain links unused hits only. So the chains taken so far are
  drawn along disjoint lists of positions in the sorted hits (`Rounds`), each of at least
  `minHits` hits, and the number of unused hits drops by at least `minHits` in every round that
  takes a chain. Hence there are at most `n / minHits` clusters for `n` hits, and the loop is
  over after `n / minHits + 1` rounds: running it longer changes nothing (`go_stable`).

  * `Chained`: what consecutive hits of a cluster satisfy.
  * `Rounds`, `rounds_init`, `Rounds.take`, `Rounds.go`: the state of the loop, kept by every
    round.
  * `clusters_partition`: the clusters of a subject, as a whole.
-/

namespace OverlapLayout

namespace ChainRule

variable {r : ChainRule} {hits : Array WeightedHit}

/-- Hit `j` may precede hit `i` in a cluster: it is one of the `lookback` hits before `i`, lies
before it in both sequences, and their diagonals are at most the allowed drift apart. -/
def Chained (r : ChainRule) (hits : Array WeightedHit) (j i : Nat) : Prop :=
  j < i ∧ i ≤ j + lookback ∧ hits[j]!.Before hits[i]! ∧
    ((((hits[i]!.subject : Int) - hits[j]!.subject) - ((hits[i]!.query : Int) - hits[j]!.query)).natAbs :
      Int) ≤ r.maxDrift

theorem Steps.chained {used : Array Bool} {j i : Nat} (h : r.Steps hits used j i) :
    r.Chained hits j i :=
  ⟨h.1, h.2.1, h.2.2.2.2.1, h.2.2.2.2.2⟩

/-- Marking a chain's hits used sets their flags and no other. -/
theorem getD_markUsed (chain : List Nat) :
    ∀ (used : Array Bool) (x : Nat), x < used.size →
      (chain.foldl (fun u i => u.set! i true) used).getD x true =
        (used.getD x true || decide (x ∈ chain)) := by
  induction chain with
  | nil => intro used x _; simp
  | cons i chain ih =>
    intro used x hx
    rw [List.foldl_cons, ih _ _ (by simpa using hx)]
    simp only [Array.set!, Array.getD_eq_getD_getElem?, Array.getElem?_setIfInBounds,
      List.mem_cons]
    by_cases hix : i = x
    · subst hix
      simp [hx]
    · have hxi : x ≠ i := fun h => hix h.symm
      simp [hix, hxi]

@[simp] theorem size_markUsed (chain : List Nat) (used : Array Bool) :
    (chain.foldl (fun u i => u.set! i true) used).size = used.size := by
  induction chain generalizing used with
  | nil => rfl
  | cons i chain ih =>
    rw [List.foldl_cons, ih]
    simp [Array.set!]

/-- A list of distinct numbers below `n` has at most `n` of them. -/
theorem length_le_of_nodup_lt {l : List Nat} {n : Nat} (hl : l.Nodup) (hn : ∀ x ∈ l, x < n) :
    l.length ≤ n :=
  ((List.subperm_of_subset hl fun x hx => List.mem_range.2 (hn x hx)).length_le).trans_eq
    List.length_range

/-- Lists of at least `m` elements each hold together at least `m` times as many. -/
theorem mul_length_le_length_flatten {m : Nat} :
    ∀ idx : List (List Nat), (∀ I ∈ idx, m ≤ I.length) → m * idx.length ≤ idx.flatten.length
  | [], _ => by simp
  | I :: idx, h => by
    have hI := h I List.mem_cons_self
    have := mul_length_le_length_flatten idx fun J hJ => h J (List.mem_cons_of_mem I hJ)
    simp only [List.length_cons, List.flatten_cons, List.length_append, Nat.mul_succ]
    omega

/-! ## The rounds -/

section rounds

variable {s : Nat} {reverse : Bool} {minHits : Nat}

/-- The state of the rounds of `chains`: the chains taken so far, newest first, are drawn along
the position lists `idx`, oldest first. These lists hold exactly the hits marked used, each
once, and each is a chain of at least `minHits` hits of the array. -/
structure Rounds (r : ChainRule) (s : Nat) (reverse : Bool) (hits : Array WeightedHit)
    (minHits : Nat) (used : Array Bool) (acc : List HitChain) (idx : List (List Nat)) : Prop where
  size : used.size = hits.size
  used_iff : ∀ i < hits.size, used.getD i true = true ↔ i ∈ idx.flatten
  nodup : idx.flatten.Nodup
  drawn : List.Forall₂ (fun c I => c = ⟨s, reverse, (I.map fun i => hits[i]!).toArray⟩)
    acc.reverse idx
  chain : ∀ I ∈ idx, minHits ≤ I.length ∧ (∀ i ∈ I, i < hits.size) ∧ I.IsChain (r.Chained hits)

theorem rounds_init : Rounds r s reverse hits minHits (Array.replicate hits.size false) [] [] where
  size := by simp
  used_iff := fun i hi => by simp [Array.getD_eq_getD_getElem?, hi]
  nodup := List.nodup_nil
  drawn := .nil
  chain := fun _ h => nomatch h

variable {used : Array Bool} {acc : List HitChain} {idx : List (List Nat)}

/-- The hits used so far are at most all of them. -/
theorem Rounds.length_flatten_le (h : Rounds r s reverse hits minHits used acc idx) :
    idx.flatten.length ≤ hits.size :=
  length_le_of_nodup_lt h.nodup fun x hx => by
    obtain ⟨I, hI, hxI⟩ := List.mem_flatten.1 hx
    exact (h.chain I hI).2.1 x hxI

theorem Rounds.length_acc (h : Rounds r s reverse hits minHits used acc idx) :
    acc.length = idx.length := by
  rw [← List.length_reverse]
  exact h.drawn.length_eq

/-- A round that takes the best chain keeps the state: the chain's hits were unused, so its
positions are new, and they become used. -/
theorem Rounds.take (h : Rounds r s reverse hits minHits used acc idx)
    (hlen : minHits ≤ (r.bestChain hits used).length) :
    Rounds r s reverse hits minHits ((r.bestChain hits used).foldl (fun u i => u.set! i true) used)
      (⟨s, reverse, ((r.bestChain hits used).map fun i => hits[i]!).toArray⟩ :: acc)
      (idx ++ [r.bestChain hits used]) := by
  obtain ⟨hsteps, hfree⟩ := bestChain_spec r hits used
  have hnew : ∀ x ∈ r.bestChain hits used, x ∉ idx.flatten := fun x hx hxi =>
    absurd ((h.used_iff x (hfree x hx).1).2 hxi) (by simp [(hfree x hx).2])
  -- positions along a chain strictly increase
  have hnd : (r.bestChain hits used).Nodup := (hsteps.imp fun _ _ hs => hs.1).pairwise.nodup
  refine ⟨by rw [size_markUsed, h.size], fun i hi => ?_, ?_, ?_, fun I hI => ?_⟩
  · rw [getD_markUsed _ _ _ (by rw [h.size]; exact hi), Bool.or_eq_true, h.used_iff i hi]
    simp
  · rw [List.flatten_append, List.flatten_singleton]
    exact List.nodup_append.2 ⟨h.nodup, hnd, fun a ha b hb hab => hnew b hb (hab ▸ ha)⟩
  · rw [List.reverse_cons]
    exact List.rel_append h.drawn (.cons rfl .nil)
  · rcases List.mem_append.1 hI with hI | hI
    · exact h.chain I hI
    · rw [List.mem_singleton.1 hI]
      exact ⟨hlen, fun i hi => (hfree i hi).1, hsteps.imp fun _ _ hs => hs.chained⟩

/-- Every run of the rounds ends in a state that `Rounds` describes, with at most one chain more
per round. -/
theorem Rounds.go (fuel : Nat) :
    ∀ {used : Array Bool} {acc : List HitChain} {idx : List (List Nat)},
      Rounds r s reverse hits minHits used acc idx →
      ∃ used' acc' idx', Rounds r s reverse hits minHits used' acc' idx' ∧
        chains.go r s reverse hits minHits fuel used acc = acc'.reverse ∧
        acc'.length ≤ acc.length + fuel := by
  induction fuel with
  | zero => exact fun h => ⟨_, _, _, h, rfl, by omega⟩
  | succ fuel ih =>
    intro used acc idx h
    rw [chains.go]
    dsimp only
    split
    · exact ⟨_, _, _, h, rfl, by omega⟩
    · next hlen =>
      obtain ⟨used', acc', idx', h', hgo, hlen'⟩ := ih (h.take (Nat.le_of_not_lt hlen))
      refine ⟨used', acc', idx', h', hgo, ?_⟩
      simp only [List.length_cons] at hlen'
      omega

/-- Once fewer hits are unused than `minHits` times the rounds allowed, more rounds change
nothing: every round that takes a chain uses at least `minHits` more hits. -/
theorem Rounds.go_stable :
    ∀ (fuel fuel' : Nat) {used : Array Bool} {acc : List HitChain} {idx : List (List Nat)},
      Rounds r s reverse hits minHits used acc idx →
      hits.size - idx.flatten.length < fuel * minHits →
      hits.size - idx.flatten.length < fuel' * minHits →
      chains.go r s reverse hits minHits fuel used acc =
        chains.go r s reverse hits minHits fuel' used acc := by
  intro fuel
  induction fuel with
  | zero => intro fuel' used acc idx _ h; simp at h
  | succ fuel ih =>
    intro fuel' used acc idx h hf hf'
    cases fuel' with
    | zero => simp at hf'
    | succ fuel' =>
      rw [chains.go, chains.go]
      dsimp only
      split
      · rfl
      · next hlen =>
        have h' := h.take (Nat.le_of_not_lt hlen)
        -- the chain's hits are new, so the hits used grow by its length
        have hgrow := h'.length_flatten_le
        simp only [List.flatten_append, List.flatten_singleton, List.length_append] at hgrow ⊢
        rw [Nat.succ_mul] at hf hf'
        refine ih fuel' h' ?_ ?_ <;> simp only [List.flatten_append, List.flatten_singleton,
          List.length_append] <;> omega

end rounds

/-! ## The clusters of a subject -/

/-- A subject's hits sorted by query, then subject position, as `clusters` chains them. -/
def sortedHits (r : ChainRule) (t : HitTable) (s : Nat) : Array WeightedHit :=
  ((t.hits s r.k).toList.mergeSort
    fun a b => a.query < b.query ∨ (a.query = b.query ∧ a.subject ≤ b.subject)).toArray

theorem clusters_eq (r : ChainRule) (t : HitTable) (s : Nat) (reverse : Bool) (minHits : Nat) :
    r.clusters t s reverse minHits = r.chains s reverse (r.sortedHits t s) minHits := rfl

@[simp] theorem size_sortedHits (r : ChainRule) (t : HitTable) (s : Nat) :
    (r.sortedHits t s).size = (t.hits s r.k).size := by
  simp [sortedHits, List.length_mergeSort]

/-- A subject has at most the allowed number of clusters, and at most one per `minHits` of its
hits: they are drawn along disjoint lists of positions, each of at least `minHits`. -/
theorem length_clusters_le (r : ChainRule) (t : HitTable) (s : Nat) (reverse : Bool)
    {minHits : Nat} (hmin : 1 ≤ minHits) :
    (r.clusters t s reverse minHits).length ≤ min r.maxChains ((t.hits s r.k).size / minHits) := by
  have h0 : Rounds r s reverse (r.sortedHits t s) minHits
      (Array.replicate (r.sortedHits t s).size false) [] [] := rounds_init
  obtain ⟨used, acc, idx, h, hgo, hlen⟩ := h0.go (min r.maxChains ((r.sortedHits t s).size + 1))
  have hres : r.clusters t s reverse minHits = acc.reverse := hgo
  have hcount : acc.length * minHits ≤ (r.sortedHits t s).size := by
    have := mul_length_le_length_flatten idx fun I hI => (h.chain I hI).1
    have := h.length_flatten_le
    rw [h.length_acc, Nat.mul_comm]
    omega
  rw [hres, List.length_reverse, ← size_sortedHits]
  exact Nat.le_min.2 ⟨by simp at hlen; omega, (Nat.le_div_iff_mul_le (by omega)).2 hcount⟩

/-- The clusters of a subject's hits, for `minHits ≥ 1`: at most the allowed number of them and
at most one per `minHits` hits; the loop taking them is over within that many rounds plus one,
so it gives the same clusters when stopped after them as when bounded only by the allowed
number; and they are drawn along disjoint lists of positions in the sorted hits, each of at
least `minHits` hits of the subject, consecutive ones being at most `lookback` places apart,
before one another in both sequences and within the allowed drift. -/
theorem clusters_partition (r : ChainRule) (t : HitTable) (s : Nat) (reverse : Bool)
    {minHits : Nat} (hmin : 1 ≤ minHits) :
    (r.clusters t s reverse minHits).length ≤ min r.maxChains ((t.hits s r.k).size / minHits) ∧
    chains.go r s reverse (r.sortedHits t s) minHits r.maxChains
        (Array.replicate (r.sortedHits t s).size false) [] = r.clusters t s reverse minHits ∧
    chains.go r s reverse (r.sortedHits t s) minHits
        (min r.maxChains ((t.hits s r.k).size / minHits + 1))
        (Array.replicate (r.sortedHits t s).size false) [] = r.clusters t s reverse minHits ∧
    (∀ c ∈ r.clusters t s reverse minHits, ∀ h ∈ c.hits, h ∈ t.hits s r.k) ∧
    ∃ idx : List (List Nat),
      List.Forall₂ (fun c I => c.subjectId = s ∧ c.reverse = reverse ∧
        c.hits.toList = I.map fun i => (r.sortedHits t s)[i]!) (r.clusters t s reverse minHits) idx ∧
      idx.flatten.Nodup ∧
      ∀ I ∈ idx, minHits ≤ I.length ∧ (∀ i ∈ I, i < (r.sortedHits t s).size) ∧
        I.IsChain (r.Chained (r.sortedHits t s)) := by
  refine ⟨length_clusters_le r t s reverse hmin, ?_⟩
  set hits := r.sortedHits t s with hhits
  set n := hits.size with hn
  have hsize : (t.hits s r.k).size = n := by rw [hn, hhits, size_sortedHits]
  rw [hsize, clusters_eq, ← hhits]
  have h0 : Rounds r s reverse hits minHits (Array.replicate n false) [] [] := rounds_init
  -- any two numbers of rounds past `n / minHits` give the same clusters
  have hstable : ∀ F F', n / minHits < F → n / minHits < F' →
      chains.go r s reverse hits minHits F (Array.replicate n false) [] =
        chains.go r s reverse hits minHits F' (Array.replicate n false) [] := by
    intro F F' hF hF'
    refine h0.go_stable F F' ?_ ?_ <;> simp only [List.flatten_nil, List.length_nil,
      Nat.sub_zero] <;> exact (Nat.div_lt_iff_lt_mul (by omega)).1 ‹_›
  have hdiv : n / minHits ≤ n := Nat.div_le_self n minHits
  have hmax : chains.go r s reverse hits minHits r.maxChains (Array.replicate n false) [] =
      r.chains s reverse hits minHits := by
    unfold chains
    by_cases hc : r.maxChains ≤ n + 1
    · rw [Nat.min_eq_left hc]
    · exact hstable _ _ (by omega) (by omega)
  have hcut : chains.go r s reverse hits minHits (min r.maxChains (n / minHits + 1))
      (Array.replicate n false) [] = r.chains s reverse hits minHits := by
    rw [← hmax]
    by_cases hc : r.maxChains ≤ n / minHits + 1
    · rw [Nat.min_eq_left hc]
    · exact hstable _ _ (by omega) (by omega)
  obtain ⟨used', acc', idx', h', hgo, -⟩ := h0.go (min r.maxChains (n + 1))
  have hres : r.chains s reverse hits minHits = acc'.reverse := hgo
  refine ⟨hmax, hcut, fun c hc h hh => ?_, idx', ?_, h'.nodup, h'.chain⟩
  · exact (mem_clusters (clusters_eq r t s reverse minHits ▸ hc)).mem h hh
  · rw [hres]
    exact h'.drawn.imp fun c I hcI => by subst hcI; exact ⟨rfl, rfl, by simp⟩

/-- The clusters of the two hits of the sample table. -/
theorem clusters_partition_sample :
    1 ≤ 2 ∧
    ((⟨15, 100, 3⟩ : ChainRule).clusters .sampleTable 0 false 2).length ≤
      min (⟨15, 100, 3⟩ : ChainRule).maxChains ((HitTable.sampleTable.hits 0 15).size / 2) ∧
    chains.go ⟨15, 100, 3⟩ 0 false ((⟨15, 100, 3⟩ : ChainRule).sortedHits .sampleTable 0) 2 3
        (Array.replicate ((⟨15, 100, 3⟩ : ChainRule).sortedHits .sampleTable 0).size false) [] =
      (⟨15, 100, 3⟩ : ChainRule).clusters .sampleTable 0 false 2 ∧
    chains.go ⟨15, 100, 3⟩ 0 false ((⟨15, 100, 3⟩ : ChainRule).sortedHits .sampleTable 0) 2
        (min 3 ((HitTable.sampleTable.hits 0 15).size / 2 + 1))
        (Array.replicate ((⟨15, 100, 3⟩ : ChainRule).sortedHits .sampleTable 0).size false) [] =
      (⟨15, 100, 3⟩ : ChainRule).clusters .sampleTable 0 false 2 ∧
    (∀ c ∈ (⟨15, 100, 3⟩ : ChainRule).clusters .sampleTable 0 false 2, ∀ h ∈ c.hits,
      h ∈ HitTable.sampleTable.hits 0 15) ∧
    ∃ idx : List (List Nat),
      List.Forall₂ (fun c I => c.subjectId = 0 ∧ c.reverse = false ∧
        c.hits.toList = I.map fun i => ((⟨15, 100, 3⟩ : ChainRule).sortedHits .sampleTable 0)[i]!)
        ((⟨15, 100, 3⟩ : ChainRule).clusters .sampleTable 0 false 2) idx ∧
      idx.flatten.Nodup ∧
      ∀ I ∈ idx, 2 ≤ I.length ∧ (∀ i ∈ I, i < ((⟨15, 100, 3⟩ : ChainRule).sortedHits .sampleTable 0).size) ∧
        I.IsChain ((⟨15, 100, 3⟩ : ChainRule).Chained ((⟨15, 100, 3⟩ : ChainRule).sortedHits .sampleTable 0)) :=
  ⟨by decide, clusters_partition ⟨15, 100, 3⟩ .sampleTable 0 false (by decide)⟩

end ChainRule

end OverlapLayout
