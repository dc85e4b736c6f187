import Mathlib
import OverlapLayout.Discovery.Chain
import OverlapLayout.Proofs.Seed.Hits
/-!
  What the chains taken from a subject's hits are.

  A chain is read back from the parent links of the dynamic programme in `bestChain`; a
  link only ever points from a hit to an earlier one lying before it in both sequences.
  So every chain lists hits of its subject, by strictly increasing query and subject
  position, and the rounds of `chains` keep only those of at least `minHits` hits.

  * `Steps`, `extend_parent_spec`, `bestChain_spec`: a link joins two unused hits, the earlier
    among the 64 before the later, before it in both sequences and within the allowed drift;
    the chain read back along the links holds unused hits only. `extend_parent` and
    `bestChain_linked` keep what the measures of a chain need of this.
  * `Drawn`: a chain of a subject's hits; `mem_clusters` says every cluster is one.
  * `first_ok`, `weightedCoverage_ok`, `indelsPerKbp_ok`: the measures of a chain do not
    overflow when its hits end within 32 bits.
-/

namespace OverlapLayout

/-- Hit `a` lies before hit `b` in both the query and the subject. -/
def WeightedHit.Before (a b : WeightedHit) : Prop := a.query < b.query ∧ a.subject < b.subject

/-- A chain of hits drawn from `hits` for one subject and strand: at least `minHits` of them,
each lying before the next. -/
structure HitChain.Drawn (c : HitChain) (subjectId : Nat) (reverse : Bool)
    (hits : Array WeightedHit) (minHits : Nat) : Prop where
  subjectId_eq : c.subjectId = subjectId
  reverse_eq : c.reverse = reverse
  minHits_le : minHits ≤ c.hits.size
  mem : ∀ h ∈ c.hits, h ∈ hits
  before : c.hits.toList.IsChain WeightedHit.Before

namespace ChainRule

variable {r : ChainRule} {hits : Array WeightedHit}

/-- Hit `j` may precede hit `i` in a chain: it comes earlier and lies before it. -/
def Linked (hits : Array WeightedHit) (j i : Nat) : Prop := j < i ∧ hits[j]!.Before hits[i]!

/-- A fold that only ever replaces the second part of its state by a value with property `P`
keeps `P` of it. -/
theorem foldl_snd_of_step {α β γ : Type} (P : β → Prop) (f : α × Option β → γ → α × Option β)
    (l : List γ) (hf : ∀ acc x, x ∈ l → (f acc x).2 = acc.2 ∨ ∃ b, (f acc x).2 = some b ∧ P b) :
    ∀ init : α × Option β, (∀ b, init.2 = some b → P b) →
      ∀ b, (l.foldl f init).2 = some b → P b := by
  induction l with
  | nil => exact fun _ h => h
  | cons x l ih =>
    intro init hinit
    refine ih (fun acc y hy => hf acc y (List.mem_cons_of_mem x hy)) _ ?_
    rcases hf init x List.mem_cons_self with h | ⟨b, hb, hP⟩
    · rwa [h]
    · intro b' hb'
      rw [hb] at hb'
      exact Option.some_inj.mp hb' ▸ hP

/-- Hit `j` may precede hit `i` in a chain drawn from the hits not used yet: both unused, `j`
among the `lookback` hits before `i` and lying before it in both sequences, and their diagonals
at most the allowed drift apart. -/
def Steps (r : ChainRule) (hits : Array WeightedHit) (used : Array Bool) (j i : Nat) : Prop :=
  j < i ∧ i ≤ j + lookback ∧ used.getD j true = false ∧ used.getD i true = false ∧
    hits[j]!.Before hits[i]! ∧
    ((((hits[i]!.subject : Int) - hits[j]!.subject) - ((hits[i]!.query : Int) - hits[j]!.query)).natAbs :
      Int) ≤ r.maxDrift

theorem Steps.linked {used : Array Bool} {j i : Nat} (h : r.Steps hits used j i) : Linked hits j i :=
  ⟨h.1, h.2.2.2.2.1⟩

theorem getD_set!_eq {β : Type} (a : Array β) (i : Nat) (x d : β) (hi : i < a.size) (k : Nat) :
    (a.set! i x).getD k d = if k = i then x else a.getD k d := by
  simp only [Array.set!, Array.getD_eq_getD_getElem?, Array.getElem?_setIfInBounds]
  by_cases hk : i = k
  · subst hk
    simp [hi]
  · simp [hk, Ne.symm hk]

section Scores

variable {α : Type} [OfNat α 0] [OfNat α 1] [Add α] [Sub α] [Mul α] [OfScientific α] [LT α]
  [DecidableLT α]

/-- The predecessor `extend` picks for hit `i` is an unused hit among the `lookback` before it,
lying before it in both sequences, with a diagonal within the allowed drift. -/
theorem extend_parent_spec (r : ChainRule) (num : ScoreNumbers α) (hits : Array WeightedHit)
    (used : Array Bool) (score : Array α) (i : Nat) :
    ∀ j, (r.extend num hits used score i hits[i]!).2 = some j →
      j < i ∧ i ≤ j + lookback ∧ used.getD j true = false ∧ hits[j]!.Before hits[i]! ∧
        ((((hits[i]!.subject : Int) - hits[j]!.subject) - ((hits[i]!.query : Int) - hits[j]!.query)).natAbs :
          Int) ≤ r.maxDrift := by
  unfold extend
  refine foldl_snd_of_step _ _ _ (fun acc t ht => ?_) _ (fun _ h => nomatch h)
  obtain ⟨best, parent⟩ := acc
  -- the predecessors examined are the `min i lookback` hits right before `i`
  have ht : t < i - (i - lookback) := List.mem_range.mp ht
  unfold relax
  dsimp only
  split
  · exact .inl rfl
  · next hused =>
    split
    · exact .inl rfl
    · next hpos =>
      split
      · exact .inl rfl
      · next hdrift =>
        split
        · simp only [not_or, Int.not_le] at hpos
          refine .inr ⟨_, rfl, by omega, by omega, by simpa using hused, ⟨by omega, by omega⟩, ?_⟩
          exact Int.not_lt.mp hdrift
        · exact .inl rfl

/-- The predecessor `extend` picks for hit `i` is linked to it. -/
theorem extend_parent (r : ChainRule) (num : ScoreNumbers α) (hits : Array WeightedHit)
    (used : Array Bool) (score : Array α) (i : Nat) :
    ∀ j, (r.extend num hits used score i hits[i]!).2 = some j → Linked hits j i := fun j h =>
  have h := extend_parent_spec r num hits used score i j h
  ⟨h.1, h.2.2.2.1⟩

/-- Following parent links from `i`, each from a hit with property `Q` to an earlier one in
relation `R` with it that has `Q` too, gives a chain of `R`, made of `acc` and of hits with
`Q`. -/
theorem backtrack_spec {parent : Array (Option Nat)} {R : Nat → Nat → Prop} {Q : Nat → Prop}
    (hp : ∀ i j, parent.getD i none = some j → Q i → R j i ∧ Q j) :
    ∀ fuel i acc, Q i → (i :: acc).IsChain R →
      (backtrack parent fuel i acc).IsChain R ∧ ∀ x ∈ backtrack parent fuel i acc, Q x ∨ x ∈ acc := by
  intro fuel
  induction fuel with
  | zero => exact fun i acc _ h => ⟨h.tail, fun x hx => .inr hx⟩
  | succ fuel ih =>
    intro i acc hQ h
    unfold backtrack
    split
    · next j hj =>
      obtain ⟨hji, hQj⟩ := hp i j hj hQ
      obtain ⟨hc, hmem⟩ := ih j (i :: acc) hQj (List.isChain_cons_cons.mpr ⟨hji, h⟩)
      refine ⟨hc, fun x hx => ?_⟩
      rcases hmem x hx with hx | hx
      · exact .inl hx
      · rcases List.mem_cons.mp hx with rfl | hx
        · exact .inl hQ
        · exact .inr hx
    · refine ⟨h, fun x hx => ?_⟩
      rcases List.mem_cons.mp hx with rfl | hx
      · exact .inl hQ
      · exact .inr hx

/-- A used hit leaves the state of the programme as it is. -/
theorem scoreHit_of_used (r : ChainRule) (num : ScoreNumbers α) (hits : Array WeightedHit)
    {used : Array Bool} (acc : Array α × Array (Option Nat) × Option Nat) {i : Nat}
    (hu : used.getD i true = true) : r.scoreHit num hits used acc i = acc := by
  unfold scoreHit
  simp [hu]

/-- What the dynamic programme of `bestChain` keeps: parents, each an earlier unused hit that may
precede its unused hit, and a best hit that is unused. -/
def ParentsStep (r : ChainRule) (hits : Array WeightedHit) (used : Array Bool)
    (acc : Array α × Array (Option Nat) × Option Nat) : Prop :=
  acc.2.1.size = hits.size ∧ (∀ i j, acc.2.1.getD i none = some j → r.Steps hits used j i) ∧
    ∀ b, acc.2.2 = some b → b < hits.size ∧ used.getD b true = false

/-- The best chain lists unused hits of the array, each a possible predecessor of the next,
whatever numbers its scores are computed in. -/
theorem bestChainIn_spec (r : ChainRule) (num : ScoreNumbers α) (hits : Array WeightedHit)
    (used : Array Bool) :
    (r.bestChainIn num hits used).IsChain (r.Steps hits used) ∧
      ∀ i ∈ r.bestChainIn num hits used, i < hits.size ∧ used.getD i true = false := by
  unfold bestChainIn
  dsimp only
  generalize hres : List.foldl _ _ _ = res
  -- every step of the programme keeps the parents and the best hit as `ParentsStep` says
  have hinv : ParentsStep r hits used res := by
    rw [← hres]
    apply List.foldlRecOn
    · refine ⟨by simp, fun i j h => ?_, fun b h => nomatch h⟩
      rw [Array.getD_eq_getD_getElem?, Array.getElem?_replicate] at h
      split at h <;> simp at h
    · intro acc hacc i hi
      have hi := List.mem_range.mp hi
      obtain ⟨score, parent, best⟩ := acc
      obtain ⟨hsize, hlink, hbest⟩ := hacc
      unfold scoreHit
      dsimp only
      split
      · exact ⟨hsize, hlink, hbest⟩
      · next hused =>
        have hused : used.getD i true = false := by simpa using hused
        have hpar := extend_parent_spec r num hits used score i
        generalize r.extend num hits used score i hits[i]! = sp at hpar
        obtain ⟨s, p⟩ := sp
        refine ⟨by simp [Array.set!, hsize], fun i' j hj => ?_, fun b hb => ?_⟩
        · rw [getD_set!_eq parent i p none (hsize ▸ hi)] at hj
          split at hj
          · next hii' =>
            subst hii'
            obtain ⟨h1, h2, h3, h4, h5⟩ := hpar j hj
            exact ⟨h1, h2, h3, hused, h4, h5⟩
          · exact hlink i' j hj
        · rcases best with _ | b'
          · exact Option.some_inj.mp hb ▸ ⟨hi, hused⟩
          · dsimp only at hb
            split at hb
            · exact Option.some_inj.mp hb ▸ ⟨hi, hused⟩
            · exact Option.some_inj.mp hb ▸ hbest b' rfl
  obtain ⟨-, hlink, hbest⟩ := hinv
  split
  · exact ⟨List.isChain_nil, fun _ h => nomatch h⟩
  · next b hb =>
    -- the links lead from unused hits of the array to unused hits of the array
    obtain ⟨hc, hmem⟩ := backtrack_spec (Q := fun x => x < hits.size ∧ used.getD x true = false)
      (fun i j hj hQ => ⟨hlink i j hj, Nat.lt_trans (hlink i j hj).1 hQ.1, (hlink i j hj).2.2.1⟩)
      hits.size b [] (hbest b hb) (List.isChain_singleton b)
    refine ⟨hc, fun x hx => ?_⟩
    rcases hmem x hx with hx | hx
    · exact hx
    · nomatch hx

end Scores

/-- The best chain lists unused hits of the array, each a possible predecessor of the next. -/
theorem bestChain_spec (r : ChainRule) (hits : Array WeightedHit) (used : Array Bool) :
    (r.bestChain hits used).IsChain (r.Steps hits used) ∧
      ∀ i ∈ r.bestChain hits used, i < hits.size ∧ used.getD i true = false :=
  bestChainIn_spec r .double hits used

/-- The best chain lists linked hits, all of them hits of the array. -/
theorem bestChain_linked (r : ChainRule) (hits : Array WeightedHit) (used : Array Bool) :
    (r.bestChain hits used).IsChain (Linked hits) ∧ ∀ i ∈ r.bestChain hits used, i < hits.size :=
  have h := bestChain_spec r hits used
  ⟨h.1.imp fun _ _ hs => hs.linked, fun i hi => (h.2 i hi).1⟩

/-- The chain read back by `bestChain`, as a chain of hits, is drawn from them once it has
`minHits` hits. -/
theorem drawn_bestChain (r : ChainRule) (subjectId : Nat) (reverse : Bool)
    (hits : Array WeightedHit) (used : Array Bool) {minHits : Nat}
    (hmin : minHits ≤ (r.bestChain hits used).length) :
    HitChain.Drawn ⟨subjectId, reverse, ((r.bestChain hits used).map fun i => hits[i]!).toArray⟩
      subjectId reverse hits minHits := by
  obtain ⟨hchain, hlt⟩ := bestChain_linked r hits used
  refine ⟨rfl, rfl, by simpa using hmin, fun h hh => ?_, ?_⟩
  · obtain ⟨i, hi, rfl⟩ := List.mem_map.mp (List.mem_toArray.mp hh)
    rw [getElem!_pos hits i (hlt i hi)]
    exact Array.getElem_mem _
  · rw [List.toList_toArray]
    exact List.isChain_map_of_isChain _ (fun _ _ h => h.2) hchain

/-- Every chain taken by the rounds of `chains` is drawn from the hits. -/
theorem mem_chains {subjectId : Nat} {reverse : Bool} {minHits : Nat} {c : HitChain}
    (hc : c ∈ r.chains subjectId reverse hits minHits) : c.Drawn subjectId reverse hits minHits := by
  unfold chains at hc
  -- each round either stops or adds a chain of at least `minHits` hits
  suffices h : ∀ fuel used acc, (∀ c ∈ acc, c.Drawn subjectId reverse hits minHits) →
      ∀ c ∈ chains.go r subjectId reverse hits minHits fuel used acc,
        c.Drawn subjectId reverse hits minHits from h _ _ [] (fun _ h => nomatch h) c hc
  intro fuel
  induction fuel with
  | zero => simp [chains.go]
  | succ fuel ih =>
    intro used acc hacc
    unfold chains.go
    dsimp only
    split
    · simpa using hacc
    · next hlen =>
      refine ih _ _ fun c hc => ?_
      rcases List.mem_cons.mp hc with rfl | hc
      · exact drawn_bestChain r subjectId reverse hits used (Nat.le_of_not_lt hlen)
      · exact hacc c hc

/-- Every cluster of a subject is a chain drawn from the subject's weighted hits. -/
theorem mem_clusters {t : HitTable} {s : Nat} {reverse : Bool} {minHits : Nat} {c : HitChain}
    (hc : c ∈ r.clusters t s reverse minHits) : c.Drawn s reverse (t.hits s r.k) minHits := by
  have hd := mem_chains hc
  refine ⟨hd.subjectId_eq, hd.reverse_eq, hd.minHits_le, fun h hh => ?_, hd.before⟩
  -- the chains are drawn from the hits sorted by position, a permutation of them
  have := List.mem_mergeSort.mp (List.mem_toArray.mp (hd.mem h hh))
  exact Array.mem_toList_iff.mp this

end ChainRule

namespace HitChain

variable {c : HitChain}

/-- Every hit of the chain ends, after its k-mer, at a 32-bit position. -/
def Fits (c : HitChain) : Prop := ∀ h ∈ c.hits, h.query + h.length < 2 ^ 32

theorem Drawn.fits {t : HitTable} {s k : Nat} {reverse : Bool} {minHits : Nat}
    (hd : c.Drawn s reverse (t.hits s k) minHits) (ht : t.Fits k) : c.Fits := by
  intro h hh
  obtain ⟨-, hlen, x, hx, hq, -⟩ := HitTable.mem_hits (hd.mem h hh)
  have := ht s x hx
  omega

/-- A list of numbers below `n`, each smaller than the next, has at most `n` of them. -/
theorem length_le_of_isChain_lt {l : List Nat} {n : Nat} (hl : l.IsChain (· < ·))
    (hn : ∀ x ∈ l, x < n) : l.length ≤ n := by
  have hnd : l.Nodup := hl.pairwise.imp Nat.ne_of_lt
  calc l.length = l.toFinset.card := (List.toFinset_card_of_nodup hnd).symm
    _ ≤ (Finset.range n).card := Finset.card_le_card fun x hx => by simpa using hn x (by simpa using hx)
    _ = n := Finset.card_range n

/-- A chain holds each of its hits once, so it has no more hits than its subject. -/
theorem Drawn.size_le_hitCount {t : HitTable} {s k : Nat} {reverse : Bool} {minHits : Nat}
    (hd : c.Drawn s reverse (t.hits s k) minHits) : c.hits.size ≤ t.hitCount s := by
  -- the query positions strictly increase, so no hit comes twice
  have hq : (c.hits.toList.map (·.query)).IsChain (· < ·) :=
    List.isChain_map_of_isChain _ (fun _ _ h => h.1) hd.before
  have hnd : c.hits.toList.Nodup := List.Nodup.of_map _ (hq.pairwise.imp Nat.ne_of_lt)
  have hsub : c.hits.toList.Subperm (t.hits s k).toList :=
    hnd.subperm fun h hh => Array.mem_toList_iff.2 (hd.mem h (Array.mem_toList_iff.1 hh))
  calc c.hits.size = c.hits.toList.length := Array.size_eq_length_toList
    _ ≤ (t.hits s k).toList.length := hsub.length_le
    _ ≤ t.hitCount s := t.size_hits_le s k

theorem first_ok (h : 0 < c.hits.size) : c.first = .ok c.hits[0] := by
  simp [first, h]

theorem last_ok (h : 0 < c.hits.size) : c.last = .ok c.hits[c.hits.size - 1] := by
  simp [last, Array.back?_eq_getElem?, Array.getElem?_eq_getElem (Nat.sub_lt h Nat.one_pos)]

/-- A fold in `Except` whose every step succeeds does not fail. -/
theorem foldlM_ne_error {α β ε : Type} {f : β → α → Except ε β} (l : List α)
    (hf : ∀ b, ∀ a ∈ l, ∃ b', f b a = .ok b') : ∀ init e, l.foldlM f init ≠ .error e := by
  induction l with
  | nil => exact fun _ _ h => nomatch h
  | cons a l ih =>
    intro init e
    obtain ⟨b', hb'⟩ := hf init a List.mem_cons_self
    simpa [List.foldlM_cons, hb', bind, Except.bind] using
      ih (fun b x hx => hf b x (List.mem_cons_of_mem a hx)) b' e

theorem weightedCoverage_ok (hc : c.Fits) : ∃ w, c.weightedCoverage = .ok w := by
  unfold weightedCoverage
  dsimp only
  rw [← Array.foldlM_toList]
  simp only [bind, Except.bind, pure, Except.pure]
  split
  · next e heq =>
    refine absurd heq (foldlM_ne_error _ (fun acc h hh => ?_) _ _)
    have := hc h (Array.mem_toList_iff.mp hh)
    simp only [checkedAdd, Nat.pow_eq, if_pos this]
    split <;> exact ⟨_, rfl⟩
  · exact ⟨_, rfl⟩

theorem indelsPerKbp_ok (hne : 0 < c.hits.size) (hc : c.Fits) : ∃ x, c.indelsPerKbp = .ok x := by
  have hlast := hc _ (Array.getElem_mem (Nat.sub_lt hne Nat.one_pos))
  unfold indelsPerKbp
  simp only [last_ok hne, first_ok hne, checkedAdd, Nat.pow_eq, if_pos hlast, bind, Except.bind, pure,
    Except.pure]
  split <;> exact ⟨_, rfl⟩

end HitChain

end OverlapLayout
