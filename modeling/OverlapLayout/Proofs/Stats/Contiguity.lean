import Mathlib
import OverlapLayout.Stats.NStats
/-!
  The N10 … N90 lengths of a set of lengths.

  With the lengths in non-increasing order and `T` their total, the N(10·(i+1)) length is the
  length at which the running sum first reaches `(i + 1) / 10` of `T` (`IsNValue`, compared
  by integer cross-multiplication as the program does). `NStats.ofLengths` walks the sorted
  lengths once, filling at each length every value whose threshold the running sum has just
  reached (`fill`); the walk keeps `Filled`, so at the end every value is the N-value of its
  rank. When ten times the total fits 64 bits no sum or product overflows.

  * `fill_spec`, `Filled.step`, `walk_spec`: one length, then the whole walk.
  * `IsNValue.le_of_le`: N-values do not grow with the rank.
  * `ofLengths_describes`: the statistics of a list of lengths, as a whole.
-/

namespace OverlapLayout

namespace NStats

/-- `v` is the N-value of rank `i` of the lengths `sorted`, in non-increasing order, of total
`total`: the length of the first element at which ten times the running sum reaches
`(i + 1)` times the total. -/
def IsNValue (sorted : List Nat) (total i v : Nat) : Prop :=
  ∃ j < sorted.length, sorted[j]? = some v ∧ (i + 1) * total ≤ 10 * (sorted.take (j + 1)).sum ∧
    ∀ j' < j, 10 * (sorted.take (j' + 1)).sum < (i + 1) * total

instance (sorted : List Nat) (total i v : Nat) : Decidable (IsNValue sorted total i v) :=
  inferInstanceAs (Decidable (∃ j < sorted.length, _))

/-- Of `[400, 300, 200, 100]`, 300 is the N50 length: 400 covers 40%, 400 and 300 cover 70%. -/
example : IsNValue [400, 300, 200, 100] 1000 4 300 := by decide

/-- What statistics say of a list of lengths: its count, total and longest, and for each rank
below 9 the N-value of every non-increasing ordering of the lengths. -/
structure Describes (lengths : List Nat) (s : NStats) : Prop where
  count_eq : s.count = lengths.length
  total_eq : s.total = lengths.sum
  longest_mem : s.longest ∈ lengths
  le_longest : ∀ l ∈ lengths, l ≤ s.longest
  size_values : s.values.size = 9
  nValue : ∀ sorted : List Nat, sorted.Perm lengths → sorted.Pairwise (· ≥ ·) →
    ∀ i < 9, ∃ v, s.values[i]? = some v ∧ IsNValue sorted s.total i v

/-! ## Filling the values at one length -/

theorem checkedAdd_ok {bits a b : Nat} (h : a + b < 2 ^ bits) : checkedAdd bits a b = .ok (a + b) :=
  if_pos h

theorem checkedMul_ok {bits a b : Nat} (h : a * b < 2 ^ bits) : checkedMul bits a b = .ok (a * b) :=
  if_pos h

/-- At a running sum `acc` with ten times it in 64 bits, `fill` sets the values from `next` on
to `length` while their threshold is reached, and stops at the first that is not, or after
the ninth. -/
theorem fill_spec {total acc : Nat} (length : Nat) (hacc : 10 * acc < 2 ^ 64)
    (htotal : 9 * total < 2 ^ 64) (next : Nat) (values : Array Nat) (hnext : next ≤ 9)
    (hsize : values.size = 9) (hreached : ∀ i < next, (i + 1) * total ≤ 10 * acc) :
    ∃ next' values', fill total acc length next values = .ok (next', values') ∧
      next ≤ next' ∧ next' ≤ 9 ∧ (∀ i < 9, i < next' ↔ (i + 1) * total ≤ 10 * acc) ∧
      values'.size = 9 ∧ ∀ i < 9, values'[i]? = if next ≤ i ∧ i < next' then some length else values[i]? := by
  rw [fill]
  by_cases hn : next < 9
  · have hmul : total * (next + 1) < 2 ^ 64 := by nlinarith
    simp only [dif_pos hn, checkedMul_ok (show acc * 10 < 2 ^ 64 by omega), checkedMul_ok hmul,
      bind, Except.bind]
    by_cases hle : total * (next + 1) ≤ acc * 10
    · rw [if_pos hle]
      obtain ⟨next', values', heq, hle', hn', hreach, hsize', hget⟩ :=
        fill_spec length hacc htotal (next + 1) (values.set! next length) hn
          (by simp [hsize]) fun i hi => if h : i < next then hreached i h else by
            rw [show i = next by omega]; linarith
      refine ⟨next', values', heq, by omega, hn', hreach, hsize', fun i hi => ?_⟩
      rw [hget i hi, Array.set!, Array.getElem?_setIfInBounds]
      by_cases hin : next = i
      · subst hin
        simp [hsize, hn, show next < next' by omega]
      · by_cases hrange : next + 1 ≤ i ∧ i < next'
        · simp only [if_pos hrange, if_pos (show next ≤ i ∧ i < next' by omega)]
        · simp only [if_neg hrange, if_neg hin, if_neg (show ¬(next ≤ i ∧ i < next') by omega)]
    · rw [if_neg hle]
      refine ⟨next, values, rfl, le_refl _, hnext, fun i hi => ⟨fun h => hreached i h, fun h => ?_⟩,
        hsize, fun i _ => by simp⟩
      refine Nat.lt_of_not_le fun hni => hle ?_
      have : (next + 1) * total ≤ (i + 1) * total := Nat.mul_le_mul_right _ (by omega)
      linarith
  · rw [dif_neg hn]
    refine ⟨next, values, rfl, le_refl _, hnext, fun i hi => ⟨fun h => hreached i h, fun _ => by omega⟩,
      hsize, fun i _ => by simp⟩
termination_by 9 - next

/-! ## The walk over the sorted lengths -/

theorem sum_take_le (l : List Nat) (n : Nat) : (l.take n).sum ≤ l.sum := by
  conv_rhs => rw [← List.take_append_drop n l, List.sum_append]
  exact Nat.le_add_right _ _

/-- An N-value of a prefix stays one when the prefix grows: its first element is still first. -/
theorem IsNValue.append {pre : List Nat} {total i v : Nat} (h : IsNValue pre total i v)
    (rest : List Nat) : IsNValue (pre ++ rest) total i v := by
  obtain ⟨j, hj, hv, hreach, hfirst⟩ := h
  have htake : ∀ j' ≤ j, (pre ++ rest).take (j' + 1) = pre.take (j' + 1) := fun j' hj' =>
    List.take_append_of_le_length (by omega)
  refine ⟨j, by simp; omega, by rw [List.getElem?_append_left hj, hv], by rw [htake j le_rfl]; exact hreach,
    fun j' hj' => ?_⟩
  rw [htake j' (by omega)]
  exact hfirst j' hj'

/-- The state of the walk after the lengths `pre`: the running sum; the first `next` values,
whose thresholds it reaches, and once a length is read no other; each of them the N-value of
`pre`. -/
structure Filled (total : Nat) (pre : List Nat) (acc next : Nat) (values : Array Nat) : Prop where
  acc_eq : acc = pre.sum
  size_eq : values.size = 9
  next_le : next ≤ 9
  reached : ∀ i < next, (i + 1) * total ≤ 10 * acc
  unreached : pre ≠ [] → ∀ i < 9, next ≤ i → 10 * acc < (i + 1) * total
  nValue : ∀ i < next, ∃ v, values[i]? = some v ∧ IsNValue pre total i v

theorem filled_nil (total : Nat) : Filled total [] 0 0 (Array.replicate 9 0) where
  acc_eq := rfl
  size_eq := rfl
  next_le := by decide
  reached i hi := absurd hi (Nat.not_lt_zero i)
  unreached h := absurd rfl h
  nValue i hi := absurd hi (Nat.not_lt_zero i)

/-- One length of the walk keeps `Filled`: the values it fills are N-values whose first element
is this length, since the running sum before it stays below their thresholds. -/
theorem Filled.step {total : Nat} {pre : List Nat} {acc next : Nat} {values : Array Nat}
    (hf : Filled total pre acc next values) (length : Nat) (hT : 10 * total < 2 ^ 64)
    (hle : (pre ++ [length]).sum ≤ total) :
    ∃ next' values', fill total (acc + length) length next values = .ok (next', values') ∧
      Filled total (pre ++ [length]) (acc + length) next' values' := by
  have hsum : (pre ++ [length]).sum = acc + length := by simp [hf.acc_eq]
  obtain ⟨next', values', heq, hle', hn', hreach, hsize', hget⟩ :=
    @fill_spec total (acc + length) length (by omega) (by omega) next values hf.next_le hf.size_eq
      fun i hi => Nat.le_trans (hf.reached i hi) (by omega)
  refine ⟨next', values', heq, ⟨hsum.symm, hsize', hn', fun i hi => (hreach i (by omega)).mp hi,
    fun _ i hi hni => Nat.lt_of_not_le fun h => by have := (hreach i hi).mpr h; omega, fun i hi => ?_⟩⟩
  by_cases hold : i < next
  · obtain ⟨v, hv, hnv⟩ := hf.nValue i hold
    refine ⟨v, ?_, hnv.append [length]⟩
    rw [hget i (by omega), if_neg (by omega), hv]
  · refine ⟨length, by rw [hget i (by omega), if_pos ⟨by omega, hi⟩], pre.length, by simp,
      by simp, ?_, fun j' hj' => ?_⟩
    · rw [List.take_of_length_le (by simp), hsum]
      exact (hreach i (by omega)).mp hi
    · have hne : pre ≠ [] := fun h => by simp [h] at hj'
      have hbelow : 10 * acc < (i + 1) * total := hf.unreached hne i (by omega) (by omega)
      have hpre : (pre ++ [length]).take (j' + 1) = pre.take (j' + 1) :=
        List.take_append_of_le_length (by omega)
      rw [hpre]
      have := sum_take_le pre (j' + 1)
      rw [hf.acc_eq] at hbelow
      omega

/-- The walk over the rest of the lengths succeeds and ends with every value filled. -/
theorem walk_spec {total : Nat} (hT : 10 * total < 2 ^ 64) :
    ∀ (rest pre : List Nat) (acc next : Nat) (values : Array Nat), (pre ++ rest).sum = total →
      Filled total pre acc next values →
      ∃ values', walk total rest acc next values = .ok values' ∧
        ∃ next', Filled total (pre ++ rest) total next' values'
  | [], pre, acc, next, values, hsum, hf => ⟨values, rfl, next, by
      rw [List.append_nil] at hsum ⊢
      have hacc : acc = total := hf.acc_eq.trans hsum
      subst hacc
      exact hf⟩
  | length :: rest, pre, acc, next, values, hsum, hf => by
    have hle : (pre ++ [length]).sum ≤ total := by
      simp only [List.sum_append, List.sum_cons, List.sum_nil] at hsum ⊢
      omega
    have hadd : acc + length < 2 ^ 64 := by
      have : acc + length = (pre ++ [length]).sum := by simp [hf.acc_eq]
      omega
    obtain ⟨next', values', heq, hf'⟩ := hf.step length hT hle
    obtain ⟨values'', hwalk, hfinal⟩ := walk_spec hT rest (pre ++ [length]) (acc + length) next'
      values' (by simpa using hsum) hf'
    refine ⟨values'', ?_, by simpa using hfinal⟩
    simp only [walk, checkedAdd_ok hadd, bind, Except.bind, heq]
    exact hwalk

/-- At the end of a walk over some lengths the running sum is the total, which reaches every
threshold, so every value is filled. -/
theorem Filled.complete {total : Nat} {sorted : List Nat} {next : Nat} {values : Array Nat}
    (hf : Filled total sorted total next values) (hne : sorted ≠ []) :
    ∀ i < 9, ∃ v, values[i]? = some v ∧ IsNValue sorted total i v := fun i hi =>
  hf.nValue i <| Nat.lt_of_not_le fun hni => by
    have := hf.unreached hne i hi hni
    have : (i + 1) * total ≤ 10 * total := Nat.mul_le_mul_right _ (by omega)
    omega

/-! ## N-values of sorted lengths -/

section Sorted

variable {sorted : List Nat} {total i v : Nat}

theorem IsNValue.mem (h : IsNValue sorted total i v) : v ∈ sorted := by
  obtain ⟨j, -, hv, -⟩ := h
  exact List.mem_of_getElem? hv

/-- N-values do not grow with the rank: a higher threshold is reached at the same element or a
later one, and the lengths do not grow along the order. -/
theorem IsNValue.le_of_le (hsorted : sorted.Pairwise (· ≥ ·)) {i' v' : Nat}
    (h : IsNValue sorted total i v) (h' : IsNValue sorted total i' v') (hi : i ≤ i') : v' ≤ v := by
  obtain ⟨j, hj, hv, -, hfirst⟩ := h
  obtain ⟨j', hj', hv', hreach', -⟩ := h'
  have hjj : j ≤ j' := Nat.le_of_not_lt fun hlt => by
    have := hfirst j' hlt
    have : (i + 1) * total ≤ (i' + 1) * total := Nat.mul_le_mul_right _ (by omega)
    omega
  rw [List.getElem?_eq_getElem hj, Option.some_inj] at hv
  rw [List.getElem?_eq_getElem hj', Option.some_inj] at hv'
  subst hv hv'
  rcases Nat.lt_or_eq_of_le hjj with hlt | heq
  · exact List.pairwise_iff_getElem.mp hsorted j j' hj hj' hlt
  · simp [heq]

end Sorted

/-- The lengths sorted as `ofLengths` sorts them: a non-increasing ordering of them. -/
theorem mergeSort_nonincreasing (lengths : List Nat) :
    (lengths.mergeSort fun a b => decide (b ≤ a)).Perm lengths ∧
      (lengths.mergeSort fun a b => decide (b ≤ a)).Pairwise (· ≥ ·) := by
  refine ⟨List.mergeSort_perm _ _, ?_⟩
  have := @List.pairwise_mergeSort _ (fun a b : Nat => decide (b ≤ a))
    (fun a b c hab hbc => by simp at *; omega) (fun a b => by simp; omega) lengths
  simpa using this

/-- The non-increasing ordering of a list of lengths is unique. -/
theorem eq_of_nonincreasing {l₁ l₂ : List Nat} (h₁ : l₁.Pairwise (· ≥ ·)) (h₂ : l₂.Pairwise (· ≥ ·))
    (hp : l₁.Perm l₂) : l₁ = l₂ :=
  hp.eq_of_pairwise (fun _ _ _ _ hab hba => Nat.le_antisymm hba hab) h₁ h₂

theorem checkedSum_eq {l : List Nat} (h : l.sum < 2 ^ 64) : checkedSum l = .ok l.sum := by
  induction l with
  | nil => rfl
  | cons x l ih =>
    rw [List.sum_cons] at h
    simp only [checkedSum, ih (by omega), bind, Except.bind, checkedAdd_ok h, List.sum_cons]

theorem ofLengths_nil : ofLengths [] = .ok none := by
  simp [ofLengths]

/-- The statistics of a non-empty list of lengths whose total, times ten, fits 64 bits. -/
theorem ofLengths_ok {lengths : List Nat} (hne : lengths ≠ []) (hT : 10 * lengths.sum < 2 ^ 64) :
    ∃ s, ofLengths lengths = .ok (some s) ∧ Describes lengths s := by
  obtain ⟨hperm, hsorted⟩ := mergeSort_nonincreasing lengths
  unfold ofLengths
  generalize lengths.mergeSort (fun a b => decide (b ≤ a)) = sorted at hperm hsorted ⊢
  have hsum : sorted.sum = lengths.sum := hperm.sum_nat
  obtain _ | ⟨longest, rest⟩ := sorted
  · exact absurd (List.Perm.nil_eq hperm).symm hne
  obtain ⟨values, hwalk, next, hf⟩ := walk_spec (hsum ▸ hT) (longest :: rest) [] 0 0 _
    (by simp) (filled_nil _)
  refine ⟨⟨(longest :: rest).length, (longest :: rest).sum, longest, values⟩, ?_, ?_⟩
  · simp only [checkedSum_eq (show (longest :: rest).sum < 2 ^ 64 by omega), bind, Except.bind,
      hwalk]
  · have hle : ∀ l ∈ longest :: rest, l ≤ longest := fun l hl => by
      rcases List.mem_cons.mp hl with rfl | hl
      · exact le_rfl
      · exact List.rel_of_pairwise_cons hsorted hl
    refine ⟨hperm.length_eq, hsum, hperm.subset List.mem_cons_self,
      fun l hl => hle l (hperm.symm.subset hl), hf.size_eq, fun sorted' hperm' hsorted' => ?_⟩
    rw [eq_of_nonincreasing hsorted' hsorted (hperm'.trans hperm.symm)]
    exact (List.nil_append _ ▸ hf).complete (List.cons_ne_nil _ _)

/-! ## What follows of the statistics -/

namespace Describes

variable {lengths : List Nat} {s : NStats}

theorem exists_nValue (h : Describes lengths s) {i : Nat} (hi : i < 9) :
    ∃ v, s.values[i]? = some v ∧
      IsNValue (lengths.mergeSort fun a b => decide (b ≤ a)) s.total i v :=
  h.nValue _ (mergeSort_nonincreasing lengths).1 (mergeSort_nonincreasing lengths).2 i hi

/-- The values do not grow with the rank. -/
theorem values_nonincreasing (h : Describes lengths s) : s.values.toList.Pairwise (· ≥ ·) := by
  refine List.pairwise_iff_getElem.mpr fun i i' hi hi' hii' => ?_
  have hsize := h.size_values
  simp only [Array.length_toList, hsize] at hi hi'
  obtain ⟨v, hv, hnv⟩ := h.exists_nValue hi
  obtain ⟨v', hv', hnv'⟩ := h.exists_nValue hi'
  rw [Array.getElem?_eq_getElem (by omega), Option.some_inj] at hv hv'
  simp only [Array.getElem_toList, hv, hv']
  exact hnv.le_of_le (mergeSort_nonincreasing lengths).2 hnv' (Nat.le_of_lt hii')

/-- No value passes the longest length. -/
theorem le_longest_of_mem_values (h : Describes lengths s) {v : Nat} (hv : v ∈ s.values) :
    v ≤ s.longest := by
  obtain ⟨i, hi, rfl⟩ := Array.getElem_of_mem hv
  obtain ⟨v', hv', hnv⟩ := h.exists_nValue (h.size_values ▸ hi)
  rw [Array.getElem?_eq_getElem hi, Option.some_inj] at hv'
  rw [hv']
  exact h.le_longest _ ((mergeSort_nonincreasing lengths).1.subset hnv.mem)

theorem values_getElem?_four (h : Describes lengths s) : s.values[4]? = some s.n50 := by
  rw [n50, Array.getD_eq_getD_getElem?, Array.getElem?_eq_getElem (by rw [h.size_values]; decide)]
  rfl

end Describes

/-- The N-statistics of a list of lengths whose total, times ten, fits 64 bits: nothing
overflows; there are none for no lengths; otherwise the count, total and longest are those of
the lengths, and for each rank `i < 9` the value is the length, in non-increasing order, at
which ten times the running sum first reaches `(i + 1)` times the total; so the values do not
grow, none passes the longest, and N50 is the fifth. -/
theorem ofLengths_describes (lengths : List Nat) (hT : 10 * lengths.sum < 2 ^ 64) :
    ∃ r, ofLengths lengths = .ok r ∧ (r = none ↔ lengths = []) ∧
      ∀ s, r = some s → Describes lengths s ∧ s.values.toList.Pairwise (· ≥ ·) ∧
        (∀ v ∈ s.values, v ≤ s.longest) ∧ s.values[4]? = some s.n50 := by
  by_cases hne : lengths = []
  · subst hne
    exact ⟨none, ofLengths_nil, by simp, fun _ h => nomatch h⟩
  obtain ⟨s, hs, hd⟩ := ofLengths_ok hne hT
  refine ⟨some s, hs, by simp [hne], fun s' hs' => ?_⟩
  obtain rfl := Option.some_inj.mp hs'
  exact ⟨hd, hd.values_nonincreasing, fun _ hv => hd.le_longest_of_mem_values hv,
    hd.values_getElem?_four⟩

/-- The sample of the tests, `[100, 200, 300, 400]`: N40 is 400, N50 is 300, N90 is 200. -/
theorem ofLengths_describes_sample :
    10 * [100, 200, 300, 400].sum < 2 ^ 64 ∧
      ∃ r, ofLengths [100, 200, 300, 400] = .ok r ∧ (r = none ↔ [100, 200, 300, 400] = []) ∧
        ∀ s, r = some s → Describes [100, 200, 300, 400] s ∧ s.values.toList.Pairwise (· ≥ ·) ∧
          (∀ v ∈ s.values, v ≤ s.longest) ∧ s.values[4]? = some s.n50 :=
  ⟨by decide, ofLengths_describes _ (by decide)⟩

end NStats

end OverlapLayout
