import Mathlib
import OverlapLayout.Proofs.Discovery.Chains
/-!
  Chaining takes a chain of the highest score.

  Read in exact numbers (`ScoreNumbers.exact`: each weight read as the real it stands for, and
  sums, products and logarithms exact), the programme of `bestChainIn` returns a chain of the
  highest score (`chainScore`) among the chains of unused hits (`ValidChain`), and returns no
  chain exactly when every hit is used.

  The programme gives each unused hit, in order, the score of its best extension (`relax`,
  `extend`): the hit alone, or the chain ending at one of the 64 hits before it followed by the
  step to it. Its state after `m` hits (`Programmed`) keeps two facts of each of them: the
  score is attained along the parent links, and no chain ending there does better. So the
  chain read back from the best hit is one of the highest score.

  * `linkScore`, `linksScore`, `chainScore`: the exact score of a step and of a chain.
  * `Relaxed`, `Relaxed.weigh`, `extend_spec`: the best extension of one hit.
  * `Programmed`, `Programmed.scoreHit`: the state of the programme, kept at every hit.
  * `Programmed.le_score`, `Programmed.score_backtrack`: what the scores bound and attain.
  * `bestChainIn_optimal`: the chain returned, as a whole.
-/

namespace OverlapLayout

/-- Exact numbers, each weight read as the real `w` gives it. -/
noncomputable def ScoreNumbers.exact (w : Float → ℝ) : ScoreNumbers ℝ where
  ofNat n := n
  ofInt z := z
  log2 := Real.logb 2
  weight h := w h.weight

namespace ChainRule

section Spec

variable (r : ChainRule) (w : Float → ℝ) (hits : Array WeightedHit)

/-- The exact score of the step from hit `j` to hit `i`: the bases it matches,
`min(Δq, Δs, k)`, weighted by hit `i`, less the gap penalty of its drift `d = |Δs - Δq|`:
none for no drift, else `0.01 k d + ½ log₂ (d + 1)`. -/
noncomputable def linkScore (j i : Nat) : ℝ :=
  let dq : Int := (hits[i]!.query : Int) - hits[j]!.query
  let ds : Int := (hits[i]!.subject : Int) - hits[j]!.subject
  let d := (ds - dq).natAbs
  ((min (min dq ds) r.k : Int) : ℝ) * w hits[i]!.weight -
    if d = 0 then 0 else 0.01 * r.k * d + 0.5 * Real.logb 2 (d + 1)

/-- The exact score of the steps from hit `j` along `rest`. -/
noncomputable def linksScore (j : Nat) : List Nat → ℝ
  | [] => 0
  | i :: rest => r.linkScore w hits j i + linksScore i rest

/-- The exact score of a chain of hits: `k` times the weight of its first hit, then the score
of each step. -/
noncomputable def chainScore : List Nat → ℝ
  | [] => 0
  | i :: rest => r.k * w hits[i]!.weight + r.linksScore w hits i rest

/-- A chain that chaining may take: some unused hits of the array, each one of the 64 hits
before the next, before it in both sequences and within the allowed drift of it. -/
structure ValidChain (used : Array Bool) (c : List Nat) : Prop where
  ne_nil : c ≠ []
  mem : ∀ i ∈ c, i < hits.size ∧ used.getD i true = false
  steps : c.IsChain (r.Steps hits used)

end Spec

/-! ## The best extension of one hit -/

section Extend

variable {r : ChainRule} {w : Float → ℝ} {hits : Array WeightedHit} {used : Array Bool}

/-- In exact numbers, the extension `relax` weighs is the score of the chain ending at the
predecessor followed by the exact score of the step. -/
theorem candidate_eq (score : Array ℝ) (j i : Nat) :
    let dq : Int := (hits[i]!.query : Int) - hits[j]!.query
    let ds : Int := (hits[i]!.subject : Int) - hits[j]!.subject
    score.getD j 0 + (ScoreNumbers.exact w).ofInt (min (min dq ds) r.k) *
        (ScoreNumbers.exact w).weight hits[i]! -
      gapCost (.exact w) ((ScoreNumbers.exact w).ofNat r.k) (ds - dq).natAbs =
    score.getD j 0 + r.linkScore w hits j i := by
  simp only [gapCost, linkScore, ScoreNumbers.exact, add_sub_assoc, Nat.pos_iff_ne_zero, ne_eq,
    ite_not]

/-- What `extend` has found for hit `i` after weighing the `m` nearest hits before it: a parent
that may precede `i` and whose extension the score is, or else the score of `i` alone; a
score at least that of `i` alone and of the extension by any of those `m` hits. -/
structure Relaxed (r : ChainRule) (w : Float → ℝ) (hits : Array WeightedHit) (used : Array Bool)
    (score : Array ℝ) (i m : Nat) (e : ℝ × Option Nat) : Prop where
  parent_some : ∀ j, e.2 = some j →
    r.Steps hits used j i ∧ e.1 = score.getD j 0 + r.linkScore w hits j i
  parent_none : e.2 = none → e.1 = r.k * w hits[i]!.weight
  single_le : r.k * w hits[i]!.weight ≤ e.1
  extend_le : ∀ j, r.Steps hits used j i → i - 1 - j < m →
    score.getD j 0 + r.linkScore w hits j i ≤ e.1

theorem relaxed_zero (score : Array ℝ) (i : Nat) :
    Relaxed r w hits used score i 0 ((ScoreNumbers.exact w).ofNat r.k *
      (ScoreNumbers.exact w).weight hits[i]!, none) where
  parent_some _ h := nomatch h
  parent_none _ := rfl
  single_le := le_rfl
  extend_le _ _ h := absurd h (Nat.not_lt_zero _)

/-- Weighing the hit `m + 1` places before `i` keeps `Relaxed`: a hit that cannot precede `i`
changes nothing, and one that can is taken exactly when its extension scores more. -/
theorem Relaxed.weigh {score : Array ℝ} {i m : Nat} {e : ℝ × Option Nat}
    (he : Relaxed r w hits used score i m e) (hm : m < i - (i - lookback))
    (hi : used.getD i true = false) :
    Relaxed r w hits used score i (m + 1) (r.relax (.exact w) hits used score i hits[i]! e m) := by
  obtain ⟨best, parent⟩ := e
  -- the hit weighed is `j`, and no other hit than `j` is newly covered
  have hold : ∀ j, r.Steps hits used j i → i - 1 - j < m + 1 → j ≠ i - 1 - m →
      score.getD j 0 + r.linkScore w hits j i ≤ best := fun j hj hjm hne =>
    he.extend_le j hj (by have := hj.1; omega)
  unfold relax
  dsimp only
  split
  · next hused =>
    refine { he with extend_le := fun j hj hjm => ?_ }
    refine hold j hj hjm fun hji => ?_
    rw [← hji, hj.2.2.1] at hused
    nomatch hused
  split
  · next hpos =>
    refine { he with extend_le := fun j hj hjm => hold j hj hjm fun hji => ?_ }
    obtain ⟨hq, hs⟩ := hj.2.2.2.2.1
    subst hji
    omega
  split
  · next hdrift =>
    refine { he with extend_le := fun j hj hjm => hold j hj hjm fun hji => ?_ }
    subst hji
    exact absurd hj.2.2.2.2.2 (Int.not_le.mpr hdrift)
  next hused hpos hdrift =>
  have hsteps : r.Steps hits used (i - 1 - m) i := by
    simp only [not_or, Int.not_le] at hpos
    refine ⟨by omega, by unfold lookback at hm ⊢; omega, by simpa using hused, hi, ⟨by omega, by omega⟩,
      Int.not_lt.mp hdrift⟩
  rw [candidate_eq]
  split
  · next hlt =>
    refine ⟨fun j hj => ?_, fun h => (nomatch h), le_trans he.single_le hlt.le, fun j hj hjm => ?_⟩
    · obtain rfl := Option.some_inj.mp hj
      exact ⟨hsteps, rfl⟩
    · by_cases hji : j = i - 1 - m
      · rw [hji]
      · exact le_trans (hold j hj hjm hji) hlt.le
  · next hge =>
    refine { he with extend_le := fun j hj hjm => ?_ }
    by_cases hji : j = i - 1 - m
    · rw [hji]
      exact not_lt.mp hge
    · exact hold j hj hjm hji

/-- The best extension of an unused hit: its parent may precede it and gives its score, or it
scores alone; no predecessor's extension, nor the hit alone, scores more. -/
theorem extend_spec (score : Array ℝ) {i : Nat} (hi : used.getD i true = false) :
    Relaxed r w hits used score i (i - (i - lookback))
      (r.extend (.exact w) hits used score i hits[i]!) := by
  unfold extend
  suffices h : ∀ m ≤ i - (i - lookback), Relaxed r w hits used score i m
      ((List.range m).foldl (r.relax (.exact w) hits used score i hits[i]!)
        ((ScoreNumbers.exact w).ofNat r.k * (ScoreNumbers.exact w).weight hits[i]!, none)) from
    h _ le_rfl
  intro m hm
  induction m with
  | zero => exact relaxed_zero score i
  | succ m ih =>
    rw [List.range_succ, List.foldl_append, List.foldl_cons, List.foldl_nil]
    exact (ih (by omega)).weigh (by omega) hi

/-- Every hit that may precede `i` is among those `extend` weighs. -/
theorem Relaxed.extend_le_of_steps {score : Array ℝ} {i : Nat} {e : ℝ × Option Nat}
    (he : Relaxed r w hits used score i (i - (i - lookback)) e) {j : Nat}
    (hj : r.Steps hits used j i) : score.getD j 0 + r.linkScore w hits j i ≤ e.1 :=
  he.extend_le j hj (by have := hj.1; have := hj.2.1; unfold lookback at *; omega)

end Extend

/-! ## The programme, hit by hit -/

section Programme

variable {r : ChainRule} {w : Float → ℝ} {hits : Array WeightedHit} {used : Array Bool}

/-- The state of the programme after the first `m` hits: scores and parents of the unused ones
among them, and the best. A parent may precede its hit and gives its score; a hit without one
scores alone; no hit scores less than alone or than its extension by a hit that may precede
it; the best is an unused hit scoring at least as much as every other, and there is none only
when all `m` hits are used. -/
structure Programmed (r : ChainRule) (w : Float → ℝ) (hits : Array WeightedHit) (used : Array Bool)
    (m : Nat) (acc : Array ℝ × Array (Option Nat) × Option Nat) : Prop where
  size_score : acc.1.size = hits.size
  size_parent : acc.2.1.size = hits.size
  parent_unset : ∀ i, (m ≤ i ∨ used.getD i true = true) → acc.2.1.getD i none = none
  parent_some : ∀ i j, acc.2.1.getD i none = some j →
    r.Steps hits used j i ∧ acc.1.getD i 0 = acc.1.getD j 0 + r.linkScore w hits j i
  parent_none : ∀ i < m, used.getD i true = false → acc.2.1.getD i none = none →
    acc.1.getD i 0 = r.k * w hits[i]!.weight
  single_le : ∀ i < m, used.getD i true = false → r.k * w hits[i]!.weight ≤ acc.1.getD i 0
  extend_le : ∀ i < m, ∀ j, r.Steps hits used j i →
    acc.1.getD j 0 + r.linkScore w hits j i ≤ acc.1.getD i 0
  best_none : acc.2.2 = none → ∀ i < m, used.getD i true = true
  best_some : ∀ b, acc.2.2 = some b → b < m ∧ used.getD b true = false ∧
    ∀ i < m, used.getD i true = false → acc.1.getD i 0 ≤ acc.1.getD b 0

theorem programmed_zero :
    Programmed r w hits used 0 (Array.replicate hits.size 0, Array.replicate hits.size none, none) where
  size_score := Array.size_replicate
  size_parent := Array.size_replicate
  parent_unset i _ := by
    rw [Array.getD_eq_getD_getElem?, Array.getElem?_replicate]
    split <;> rfl
  parent_some i j h := by
    rw [Array.getD_eq_getD_getElem?, Array.getElem?_replicate] at h
    split at h <;> nomatch h
  parent_none i hi := absurd hi (Nat.not_lt_zero i)
  single_le i hi := absurd hi (Nat.not_lt_zero i)
  extend_le i hi := absurd hi (Nat.not_lt_zero i)
  best_none _ i hi := absurd hi (Nat.not_lt_zero i)
  best_some _ h := nomatch h

/-- Past a used hit `m`, an unused hit of the first `m + 1` is one of the first `m`. -/
theorem lt_of_used {m i : Nat} (hm : used.getD m true = true) (hi : i < m + 1)
    (hu : used.getD i true = false) : i < m := by
  by_contra h
  rw [show i = m by omega, hm] at hu
  nomatch hu

/-- A used hit changes nothing and keeps `Programmed`. -/
theorem Programmed.skip {m : Nat} {acc : Array ℝ × Array (Option Nat) × Option Nat}
    (hp : Programmed r w hits used m acc) (hm : used.getD m true = true) :
    Programmed r w hits used (m + 1) acc where
  size_score := hp.size_score
  size_parent := hp.size_parent
  parent_unset i hi := hp.parent_unset i (by rcases hi with hi | hi <;> [exact .inl (by omega); exact .inr hi])
  parent_some := hp.parent_some
  parent_none i hi hu := hp.parent_none i (lt_of_used hm hi hu) hu
  single_le i hi hu := hp.single_le i (lt_of_used hm hi hu) hu
  extend_le i hi j hj := hp.extend_le i (lt_of_used hm hi hj.2.2.2.1) j hj
  best_none hb i hi := if h : i < m then hp.best_none hb i h else by rw [show i = m by omega]; exact hm
  best_some b hb := by
    obtain ⟨hbm, hbu, hle⟩ := hp.best_some b hb
    exact ⟨by omega, hbu, fun i hi hu => hle i (lt_of_used hm hi hu) hu⟩

/-- An unused hit takes its best extension and keeps `Programmed`: its parent's facts are those
of `extend_spec`, the earlier hits keep their scores, and it becomes the best hit exactly when
it scores more than the best so far. -/
theorem Programmed.take {m : Nat} {acc : Array ℝ × Array (Option Nat) × Option Nat}
    (hp : Programmed r w hits used m acc) (hmn : m < hits.size) (hm : used.getD m true = false) :
    Programmed r w hits used (m + 1) (r.scoreHit (.exact w) hits used acc m) := by
  obtain ⟨score, parent, best⟩ := acc
  have he : Relaxed r w hits used score m (m - (m - lookback))
      (r.extend (.exact w) hits used score m hits[m]!) := extend_spec score hm
  unfold scoreHit
  dsimp only
  rw [if_neg (by simp [hm])]
  generalize r.extend (.exact w) hits used score m hits[m]! = e at he ⊢
  obtain ⟨s, p⟩ := e
  dsimp only
  have hsc : ∀ k, (score.set! m s).getD k 0 = if k = m then s else score.getD k 0 :=
    getD_set!_eq score m s 0 (hp.size_score ▸ hmn)
  have hpa : ∀ k, (parent.set! m p).getD k none = if k = m then p else parent.getD k none :=
    getD_set!_eq parent m p none (hp.size_parent ▸ hmn)
  -- a hit with a parent is one of the first `m`, and so is its parent
  have hset : ∀ i j, parent.getD i none = some j → i < m ∧ j < i := fun i j h => by
    refine ⟨Nat.lt_of_not_le fun hi => ?_, (hp.parent_some i j h).1.1⟩
    rw [hp.parent_unset i (.inl hi)] at h
    nomatch h
  have hscore : ∀ k < m, (score.set! m s).getD k 0 = score.getD k 0 := fun k hk => by
    rw [hsc, if_neg (by omega)]
  have hself : (score.set! m s).getD m 0 = s := by rw [hsc, if_pos rfl]
  refine ⟨by simp [Array.set!, hp.size_score], by simp [Array.set!, hp.size_parent], fun i hi => ?_,
    fun i j hij => ?_, fun i hi hu hnone => ?_, fun i hi hu => ?_, fun i hi j hj => ?_, ?_, ?_⟩
  · -- hits after `m`, and used hits, have no parent
    have him : i ≠ m := by rintro rfl; rcases hi with hi | hi <;> [omega; simp [hm] at hi]
    rw [hpa, if_neg him]
    exact hp.parent_unset i (by rcases hi with hi | hi <;> [exact .inl (by omega); exact .inr hi])
  · rw [hpa] at hij
    split at hij
    · next him =>
      subst him
      obtain ⟨hsteps, hval⟩ := he.parent_some j hij
      rw [hself, hscore j hsteps.1]
      exact ⟨hsteps, hval⟩
    · obtain ⟨him, hji⟩ := hset i j hij
      rw [hscore i him, hscore j (by omega)]
      exact hp.parent_some i j hij
  · rw [hpa] at hnone
    split at hnone
    · next him =>
      subst him
      rw [hself]
      exact he.parent_none hnone
    · next him =>
      rw [hscore i (by omega)]
      exact hp.parent_none i (by omega) hu hnone
  · by_cases him : i = m
    · subst him
      rw [hself]
      exact he.single_le
    · rw [hscore i (by omega)]
      exact hp.single_le i (by omega) hu
  · by_cases him : i = m
    · subst him
      rw [hself, hscore j hj.1]
      exact he.extend_le_of_steps hj
    · rw [hscore i (by omega), hscore j (by have := hj.1; omega)]
      exact hp.extend_le i (by omega) j hj
  · cases best <;> dsimp only <;> [exact fun h => nomatch h; (split <;> exact fun h => nomatch h)]
  · intro b hb
    cases best with
    | none =>
      obtain rfl := Option.some_inj.mp hb
      refine ⟨by omega, hm, fun i hi hu => ?_⟩
      by_cases him : i = m
      · rw [him]
      · have := hp.best_none rfl i (by omega)
        simp [hu] at this
    | some b' =>
      obtain ⟨hb'm, hb'u, hle⟩ := hp.best_some b' rfl
      dsimp only at hb
      split at hb
      · next hlt =>
        obtain rfl := Option.some_inj.mp hb
        refine ⟨by omega, hm, fun i hi hu => ?_⟩
        by_cases him : i = m
        · rw [him]
        · rw [hself, hscore i (by omega)]
          rw [hscore b' hb'm] at hlt
          exact le_trans (hle i (by omega) hu) hlt.le
      · next hge =>
        obtain rfl := Option.some_inj.mp hb
        refine ⟨by omega, hb'u, fun i hi hu => ?_⟩
        rw [hscore b' hb'm]
        by_cases him : i = m
        · rw [him, hself]
          rw [hscore b' hb'm] at hge
          exact not_lt.mp hge
        · rw [hscore i (by omega)]
          exact hle i (by omega) hu

/-- After all hits the state is `Programmed` for all of them. -/
theorem programmed_foldl (m : Nat) (hm : m ≤ hits.size) :
    Programmed r w hits used m ((List.range m).foldl (r.scoreHit (.exact w) hits used)
      (Array.replicate hits.size 0, Array.replicate hits.size none, none)) := by
  induction m with
  | zero => exact programmed_zero
  | succ m ih =>
    rw [List.range_succ, List.foldl_append, List.foldl_cons, List.foldl_nil]
    have hp := ih (by omega)
    by_cases hu : used.getD m true = true
    · rw [scoreHit_of_used r _ hits _ hu]
      exact hp.skip hu
    · exact hp.take (by omega) (by simpa using hu)

end Programme

/-! ## What the scores bound and attain -/

section Scores

variable {r : ChainRule} {w : Float → ℝ} {hits : Array WeightedHit} {used : Array Bool}
  {acc : Array ℝ × Array (Option Nat) × Option Nat}

/-- No chain does better than the programme's score of its last hit: a chain starting from a
score at most that of its first hit stays, step after step, at most the score of the hit it
has reached. -/
theorem Programmed.le_score (hp : Programmed r w hits used hits.size acc) :
    ∀ (rest : List Nat) (a : Nat) (x : ℝ), (a :: rest).IsChain (r.Steps hits used) →
      (∀ i ∈ a :: rest, i < hits.size) → x ≤ acc.1.getD a 0 →
      x + r.linksScore w hits a rest ≤ acc.1.getD ((a :: rest).getLast (List.cons_ne_nil a rest)) 0
  | [], a, x, _, _, hx => by simpa [linksScore] using hx
  | b :: rest, a, x, hc, hmem, hx => by
    obtain ⟨hab, hc⟩ := List.isChain_cons_cons.mp hc
    have hb : x + r.linkScore w hits a b ≤ acc.1.getD b 0 :=
      le_trans (by linarith) (hp.extend_le b (hmem b (by simp)) a hab)
    have := Programmed.le_score hp rest b _ hc (fun i hi => hmem i (List.mem_cons_of_mem a hi)) hb
    rw [linksScore, ← add_assoc, List.getLast_cons_cons]
    exact this

/-- The chain read back from a hit along the parent links, followed by `tail`, scores what the
programme gave the hit, then the steps along `tail`: each link adds exactly its step, and the
first hit of the chain has no parent and scores alone. -/
theorem Programmed.score_backtrack (hp : Programmed r w hits used hits.size acc) :
    ∀ (fuel i : Nat) (tail : List Nat), i < fuel → i < hits.size → used.getD i true = false →
      r.chainScore w hits (backtrack acc.2.1 fuel i tail) =
        acc.1.getD i 0 + r.linksScore w hits i tail
  | 0, _, _, h, _, _ => absurd h (Nat.not_lt_zero _)
  | fuel + 1, i, tail, hfuel, hi, hu => by
    unfold backtrack
    split
    · next j hj =>
      obtain ⟨hsteps, hval⟩ := hp.parent_some i j hj
      rw [Programmed.score_backtrack hp fuel j (i :: tail) (by have := hsteps.1; omega)
        (by have := hsteps.1; omega) hsteps.2.2.1, linksScore, hval]
      ring
    · next hnone =>
      rw [chainScore, hp.parent_none i hi hu hnone]

theorem backtrack_ne_nil (parent : Array (Option Nat)) :
    ∀ (fuel i : Nat) (tail : List Nat), backtrack parent (fuel + 1) i tail ≠ []
  | 0, i, tail => by
    unfold backtrack
    split <;> simp [backtrack]
  | fuel + 1, i, tail => by
    unfold backtrack
    split
    · exact backtrack_ne_nil parent fuel _ _
    · simp

end Scores

/-- Chaining, read in exact numbers, takes a chain of the highest score: whatever the hits, the
hits already used and the reading of the weights, the chain returned is empty exactly when
every hit is used, and otherwise it is a chain of unused hits, each one of the 64 before the
next and before it in both sequences within the allowed drift, that scores at least as much as
every such chain. -/
theorem bestChainIn_optimal (r : ChainRule) (w : Float → ℝ) (hits : Array WeightedHit)
    (used : Array Bool) :
    (r.bestChainIn (.exact w) hits used = [] ↔ ∀ i < hits.size, used.getD i true = true) ∧
    (r.bestChainIn (.exact w) hits used ≠ [] →
      r.ValidChain hits used (r.bestChainIn (.exact w) hits used) ∧
      ∀ c, r.ValidChain hits used c →
        r.chainScore w hits c ≤ r.chainScore w hits (r.bestChainIn (.exact w) hits used)) := by
  have hp := @programmed_foldl r w hits used hits.size le_rfl
  unfold bestChainIn
  dsimp only
  generalize (List.range hits.size).foldl _ _ = acc at hp ⊢
  obtain ⟨score, parent, best⟩ := acc
  cases best with
  | none =>
    exact ⟨⟨fun _ => hp.best_none rfl, fun _ => rfl⟩, fun h => absurd rfl h⟩
  | some b =>
    obtain ⟨hb, hbu, hbest⟩ := hp.best_some b rfl
    have hne := backtrack_ne_nil parent (hits.size - 1) b []
    rw [show hits.size - 1 + 1 = hits.size by omega] at hne
    refine ⟨⟨fun h => absurd h hne, fun h => by rw [h b hb] at hbu; nomatch hbu⟩, fun _ => ?_⟩
    -- the links lead from unused hits of the array to unused hits of the array
    obtain ⟨hc, hmem⟩ := backtrack_spec (Q := fun x => x < hits.size ∧ used.getD x true = false)
      (fun i j hj hQ => ⟨(hp.parent_some i j hj).1, Nat.lt_trans (hp.parent_some i j hj).1.1 hQ.1,
        (hp.parent_some i j hj).1.2.2.1⟩) hits.size b [] ⟨hb, hbu⟩ (List.isChain_singleton b)
    refine ⟨⟨hne, fun x hx => (hmem x hx).resolve_right List.not_mem_nil, hc⟩, fun c hc' => ?_⟩
    obtain ⟨a, rest, rfl⟩ := List.exists_cons_of_ne_nil hc'.ne_nil
    have hlast := hc'.mem _ (List.getLast_mem (List.cons_ne_nil a rest))
    have hbound := hp.le_score rest a _ hc'.steps (fun i hi => (hc'.mem i hi).1)
      (hp.single_le a (hc'.mem a List.mem_cons_self).1 (hc'.mem a List.mem_cons_self).2)
    rw [hp.score_backtrack hits.size b [] hb hb hbu, linksScore, add_zero, chainScore]
    exact le_trans hbound (hbest _ hlast.1 hlast.2)

/-- Two unused hits on one diagonal: chaining, in exact numbers, takes a chain, and it is one
chaining may take. -/
theorem bestChainIn_optimal_pair :
    (⟨15, 100, 3⟩ : ChainRule).bestChainIn (.exact fun _ => 1)
        #[⟨0, 10, 110, 15, 1⟩, ⟨0, 20, 120, 15, 1⟩] #[false, false] ≠ [] ∧
      (⟨15, 100, 3⟩ : ChainRule).ValidChain #[⟨0, 10, 110, 15, 1⟩, ⟨0, 20, 120, 15, 1⟩]
        #[false, false] ((⟨15, 100, 3⟩ : ChainRule).bestChainIn (.exact fun _ => 1)
          #[⟨0, 10, 110, 15, 1⟩, ⟨0, 20, 120, 15, 1⟩] #[false, false]) := by
  have hopt := bestChainIn_optimal ⟨15, 100, 3⟩ (fun _ => 1)
    #[⟨0, 10, 110, 15, 1⟩, ⟨0, 20, 120, 15, 1⟩] #[false, false]
  have hne : (⟨15, 100, 3⟩ : ChainRule).bestChainIn (.exact fun _ => 1)
      #[⟨0, 10, 110, 15, 1⟩, ⟨0, 20, 120, 15, 1⟩] #[false, false] ≠ [] :=
    fun he => by simpa using hopt.1.mp he 0 (by decide)
  exact ⟨hne, (hopt.2 hne).1⟩

end ChainRule

end OverlapLayout
