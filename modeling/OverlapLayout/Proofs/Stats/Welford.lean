import Mathlib
import OverlapLayout.Stats.Running
import OverlapLayout.Proofs.Float.Order
/-!
  Running statistics, read exactly.

  Welford's update keeps, in exact arithmetic, the count, the mean and the sum of squared
  deviations of the values seen (`Moments.Describes`): the mean moves by a share of the new
  value's distance, and the squared deviations grow by what that move adds to the old values and
  the new one (`Describes.push`). The sum of squared deviations is the sum of squares less the
  square of the sum over the count (`sum_sq_sub_mean`), so the step is an identity between sums.
  Over the rational numbers the running moments are thus the mean and the sample variance of
  the values, whatever their order (`Moments.describes_foldl`, `Describes.eq_of_perm`).

  `RunningStats` skips what is not finite, counts the rest and keeps their least and greatest in
  the order of doubles (`RunningStats.Bounds`), where comparing is exact. `ofList_exact` reads the
  statistics of a list of doubles with the arithmetic on their finite values made exact.
-/

namespace OverlapLayout

namespace Moments

variable {α : Type} [Add α] [Sub α] [Mul α] [Div α] [NatCast α]

@[simp] theorem push_count (m : Moments α) (x : α) : (m.push x).count = m.count + 1 := rfl

@[simp] theorem push_mean (m : Moments α) (x : α) :
    (m.push x).mean = m.mean + (x - m.mean) / ((m.count + 1 : Nat) : α) := rfl

@[simp] theorem push_m2 (m : Moments α) (x : α) :
    (m.push x).m2 = m.m2 + (x - m.mean) * (x - (m.push x).mean) := rfl

/-- Each value adds one to the count, whatever the numbers. -/
theorem count_foldl_push (l : List α) (m : Moments α) : (l.foldl push m).count = m.count + l.length := by
  induction l generalizing m with
  | nil => rfl
  | cons x l ih =>
    rw [List.foldl_cons, ih, push_count, List.length_cons]
    omega

section Exact

variable {α : Type} [Field α]

/-- The sum of squared deviations from the mean is the sum of squares less the square of the sum
over the count. -/
theorem sum_sq_sub_mean [CharZero α] (vs : List α) :
    (vs.map fun v => (v - vs.sum / vs.length) ^ 2).sum = (vs.map (· ^ 2)).sum - vs.sum ^ 2 / vs.length := by
  by_cases hv : vs = []
  · subst hv
    simp
  have hn : (vs.length : α) ≠ 0 := by simpa using hv
  set μ := vs.sum / vs.length with hμ
  have hexp : ∀ v : α, (v - μ) ^ 2 = v ^ 2 + (v * -(2 * μ) + μ ^ 2) := fun v => by ring
  simp only [hexp, List.sum_map_add, List.sum_map_mul_right, List.map_id', List.map_const',
    List.sum_replicate, nsmul_eq_mul]
  rw [hμ]
  field_simp
  ring

/-- Welford's update on sums: with `n` values of sum `S` and sum of squares `Q`, a new value `x`
moves the mean `S / n` to `(S + x) / (n + 1)`, and the squared deviations `Q - S² / n` grow by
the product of the new value's deviations from the old mean and from the new one. -/
theorem welford_step [CharZero α] (n : ℕ) (S Q x : α) (hS : n = 0 → S = 0) :
    S / n + (x - S / n) / ((n + 1 : ℕ) : α) = (S + x) / ((n + 1 : ℕ) : α) ∧
      Q - S ^ 2 / n + (x - S / n) * (x - (S + x) / ((n + 1 : ℕ) : α)) =
        Q + x ^ 2 - (S + x) ^ 2 / ((n + 1 : ℕ) : α) := by
  rcases Nat.eq_zero_or_pos n with rfl | hpos
  · rw [hS rfl]
    constructor <;> simp
  · have hn : (n : α) ≠ 0 := Nat.cast_ne_zero.2 hpos.ne'
    have hn1 : (n : α) + 1 ≠ 0 := Nat.cast_add_one_ne_zero n
    push_cast
    constructor
    · field_simp
      ring
    · field_simp
      ring

/-- The moments of the values `vs`: their number, their mean (0 for none) and the sum of their
squared deviations from it. -/
structure Describes (vs : List α) (m : Moments α) : Prop where
  count_eq : m.count = vs.length
  mean_eq : m.mean = vs.sum / vs.length
  m2_eq : m.m2 = (vs.map fun v => (v - vs.sum / vs.length) ^ 2).sum

theorem describes_empty : Describes ([] : List α) empty :=
  ⟨rfl, by simp [empty], by simp [empty]⟩

/-- One update keeps the invariant: through `sum_sq_sub_mean` it is `welford_step` on the sums. -/
theorem Describes.push [CharZero α] {vs : List α} {m : Moments α} (h : Describes vs m) (x : α) :
    Describes (vs ++ [x]) (m.push x) := by
  obtain ⟨hc, hmean, hm2⟩ := h
  rw [sum_sq_sub_mean] at hm2
  -- before the first value the sum is 0, which the step needs where it divides by no values
  have hS : vs.length = 0 → vs.sum = 0 := fun h0 => by rw [List.length_eq_zero_iff.1 h0, List.sum_nil]
  obtain ⟨hμ, hq⟩ := welford_step vs.length vs.sum (vs.map (· ^ 2)).sum x hS
  have hlen : (vs ++ [x]).length = vs.length + 1 := List.length_append
  have hsum : (vs ++ [x]).sum = vs.sum + x := by simp
  have hsq : ((vs ++ [x]).map (· ^ 2)).sum = (vs.map (· ^ 2)).sum + x ^ 2 := by simp
  have hmean' : (m.push x).mean = (vs ++ [x]).sum / (vs ++ [x]).length := by
    rw [push_mean, hmean, hc, hμ, hsum, hlen]
  refine ⟨by rw [push_count, hc, hlen], hmean', ?_⟩
  rw [sum_sq_sub_mean, push_m2, hmean', hm2, hmean, hsum, hsq, hlen]
  exact hq

/-- Updating along more values keeps describing all values seen. -/
theorem Describes.foldl [CharZero α] {vs : List α} {m : Moments α} (h : Describes vs m) :
    ∀ ws : List α, Describes (vs ++ ws) (ws.foldl Moments.push m) := by
  intro ws
  induction ws generalizing vs m with
  | nil => simpa using h
  | cons x ws ih =>
    rw [List.foldl_cons, ← List.singleton_append, ← List.append_assoc]
    exact ih (h.push x)

theorem describes_foldl [CharZero α] (vs : List α) : Describes vs (vs.foldl Moments.push empty) := by
  simpa using describes_empty.foldl vs

/-- The sample variance of described values. -/
theorem Describes.variance {vs : List α} {m : Moments α} (h : Describes vs m) :
    m.variance = if vs.length < 2 then 0 else
      (vs.map fun v => (v - vs.sum / vs.length) ^ 2).sum / ((vs.length - 1 : Nat) : α) := by
  rw [Moments.variance, h.count_eq, h.m2_eq]

/-- Moments describe a multiset of values: two orders of the same values have the same moments. -/
theorem Describes.eq_of_perm [CharZero α] {vs ws : List α} {m m' : Moments α} (h : Describes vs m) (h' : Describes ws m')
    (hp : vs.Perm ws) : m = m' := by
  obtain ⟨c, μ, q⟩ := m
  obtain ⟨c', μ', q'⟩ := m'
  obtain ⟨hc, hμ, hq⟩ := h
  obtain ⟨hc', hμ', hq'⟩ := h'
  dsimp only at hc hμ hq hc' hμ' hq'
  rw [sum_sq_sub_mean] at hq hq'
  rw [hc, hμ, hq, hc', hμ', hq', hp.length_eq, hp.sum_eq, (hp.map _).sum_eq]

end Exact

end Moments

/-! ## Skipping and extremes -/

namespace RunningStats

theorem push_of_isFinite {s : RunningStats} {x : Float} (h : x.isFinite = true) :
    s.push x =
      { moments := s.moments.push x
        least := Float.minNum s.least x
        greatest := Float.maxNum s.greatest x } :=
  if_pos h

theorem push_of_not_isFinite {s : RunningStats} {x : Float} (h : x.isFinite = false) : s.push x = s :=
  if_neg (ne_true_of_eq_false h)

/-- Values that are not finite are skipped: a run reads only the finite ones. -/
theorem foldl_push_filter (xs : List Float) (s : RunningStats) :
    xs.foldl push s = (xs.filter Float.isFinite).foldl push s := by
  induction xs generalizing s with
  | nil => rfl
  | cons x xs ih =>
    cases hx : x.isFinite
    · rw [List.foldl_cons, push_of_not_isFinite hx, ih, List.filter_cons_of_neg (ne_true_of_eq_false hx)]
    · rw [List.foldl_cons, ih, List.filter_cons_of_pos hx, List.foldl_cons]

/-- Along finite values the moments take Welford's update of each. -/
theorem moments_foldl : ∀ (fs : List Float) (s : RunningStats), (∀ x ∈ fs, x.isFinite = true) →
    (fs.foldl push s).moments = fs.foldl Moments.push s.moments
  | [], _, _ => rfl
  | x :: fs, s, hfs => by
    rw [List.foldl_cons, List.foldl_cons, moments_foldl fs _ fun y hy => hfs y (List.mem_cons_of_mem x hy),
      push_of_isFinite (hfs x List.mem_cons_self)]

/-- The least and greatest kept for the finite values `fs`: before any value nothing is below
the least nor above the greatest; after, they are among the values and bound them all. -/
structure Bounds (fs : List Float) (s : RunningStats) : Prop where
  least_empty : fs = [] → ∀ y, ¬s.least < y
  least_mem : fs ≠ [] → s.least ∈ fs
  least_le : ∀ y ∈ fs, s.least ≤ y
  greatest_empty : fs = [] → ∀ y, ¬y < s.greatest
  greatest_mem : fs ≠ [] → s.greatest ∈ fs
  le_greatest : ∀ y ∈ fs, y ≤ s.greatest

section Step

variable {fs : List Float} {a x : Float} (hfs : ∀ y ∈ fs, y.isNaN = false) (hx : x.isNaN = false)
include hfs hx

/-- Taking the smaller of the least so far and a new value that is not NaN. -/
theorem minNum_step (hempty : fs = [] → ∀ y, ¬a < y) (hmem : fs ≠ [] → a ∈ fs) (hle : ∀ y ∈ fs, a ≤ y) :
    Float.minNum a x ∈ fs ++ [x] ∧ ∀ y ∈ fs ++ [x], Float.minNum a x ≤ y := by
  by_cases hf : fs = []
  · -- the first value: nothing was below the least, so the value is taken
    subst hf
    have hmin : Float.minNum a x = x := by
      unfold Float.minNum
      by_cases ha : a.isNaN = true
      · rw [if_pos ha]
      · rw [if_neg ha, if_neg (ne_true_of_eq_false hx), if_neg (hempty rfl x)]
    rw [hmin]
    refine ⟨List.mem_singleton_self x, fun y hy => ?_⟩
    rw [List.nil_append, List.mem_singleton] at hy
    rw [hy]
    exact Float.le_refl_of_isNaN hx
  have ha : a.isNaN = false := hfs a (hmem hf)
  have hmin : Float.minNum a x = if a < x then a else x := by
    unfold Float.minNum
    rw [if_neg (ne_true_of_eq_false ha), if_neg (ne_true_of_eq_false hx)]
  rw [hmin]
  split
  next hlt =>
    refine ⟨List.mem_append_left _ (hmem hf), fun y hy => ?_⟩
    rcases List.mem_append.1 hy with hy | hy
    · exact hle y hy
    · rw [List.mem_singleton.1 hy]
      exact Float.le_of_lt hlt
  next hlt =>
    -- the new value is at most the least so far, so at most every value
    have hxa : x ≤ a := Float.le_of_not_lt ha hx hlt
    refine ⟨List.mem_append_right _ (List.mem_singleton_self x), fun y hy => ?_⟩
    rcases List.mem_append.1 hy with hy | hy
    · exact Float.le_trans_of_isNaN hx ha (hfs y hy) hxa (hle y hy)
    · rw [List.mem_singleton.1 hy]
      exact Float.le_refl_of_isNaN hx

/-- Taking the larger of the greatest so far and a new value that is not NaN. -/
theorem maxNum_step (hempty : fs = [] → ∀ y, ¬y < a) (hmem : fs ≠ [] → a ∈ fs) (hle : ∀ y ∈ fs, y ≤ a) :
    Float.maxNum a x ∈ fs ++ [x] ∧ ∀ y ∈ fs ++ [x], y ≤ Float.maxNum a x := by
  by_cases hf : fs = []
  · -- the first value: nothing was above the greatest, so the value is taken
    subst hf
    have hmax : Float.maxNum a x = x := by
      unfold Float.maxNum
      by_cases ha : a.isNaN = true
      · rw [if_pos ha]
      · rw [if_neg ha, if_neg (ne_true_of_eq_false hx), if_neg (hempty rfl x)]
    rw [hmax]
    refine ⟨List.mem_singleton_self x, fun y hy => ?_⟩
    rw [List.nil_append, List.mem_singleton] at hy
    rw [hy]
    exact Float.le_refl_of_isNaN hx
  have ha : a.isNaN = false := hfs a (hmem hf)
  have hmax : Float.maxNum a x = if x < a then a else x := by
    unfold Float.maxNum
    rw [if_neg (ne_true_of_eq_false ha), if_neg (ne_true_of_eq_false hx)]
  rw [hmax]
  split
  next hlt =>
    refine ⟨List.mem_append_left _ (hmem hf), fun y hy => ?_⟩
    rcases List.mem_append.1 hy with hy | hy
    · exact hle y hy
    · rw [List.mem_singleton.1 hy]
      exact Float.le_of_lt hlt
  next hlt =>
    -- the new value is at least the greatest so far, so at least every value
    have hax : a ≤ x := Float.le_of_not_lt hx ha hlt
    refine ⟨List.mem_append_right _ (List.mem_singleton_self x), fun y hy => ?_⟩
    rcases List.mem_append.1 hy with hy | hy
    · exact Float.le_trans_of_isNaN (hfs y hy) ha hx (hle y hy) hax
    · rw [List.mem_singleton.1 hy]
      exact Float.le_refl_of_isNaN hx

end Step

theorem bounds_empty : Bounds [] ({} : RunningStats) :=
  ⟨fun _ => Float.not_inf_lt, fun h => absurd rfl h, fun _ h => absurd h List.not_mem_nil,
    fun _ => Float.not_lt_negInf, fun h => absurd rfl h, fun _ h => absurd h List.not_mem_nil⟩

/-- A finite value keeps the bounds. -/
theorem Bounds.push {fs : List Float} {s : RunningStats} (h : Bounds fs s)
    (hfs : ∀ y ∈ fs, y.isFinite = true) {x : Float} (hx : x.isFinite = true) : Bounds (fs ++ [x]) (s.push x) := by
  have hfs' : ∀ y ∈ fs, y.isNaN = false := fun y hy => Float.isNaN_eq_false_of_isFinite (hfs y hy)
  have hx' := Float.isNaN_eq_false_of_isFinite hx
  obtain ⟨hmin, hle⟩ := minNum_step hfs' hx' h.least_empty h.least_mem h.least_le
  obtain ⟨hmax, hge⟩ := maxNum_step hfs' hx' h.greatest_empty h.greatest_mem h.le_greatest
  rw [push_of_isFinite hx]
  exact ⟨fun h => absurd h (by simp), fun _ => hmin, hle, fun h => absurd h (by simp), fun _ => hmax, hge⟩

theorem Bounds.foldl {fs : List Float} {s : RunningStats} (h : Bounds fs s) (hfs : ∀ y ∈ fs, y.isFinite = true) :
    ∀ gs : List Float, (∀ y ∈ gs, y.isFinite = true) → Bounds (fs ++ gs) (gs.foldl RunningStats.push s) := by
  intro gs hgs
  induction gs generalizing fs s with
  | nil => simpa using h
  | cons x gs ih =>
    rw [List.foldl_cons, ← List.singleton_append, ← List.append_assoc]
    refine ih (h.push hfs (hgs x List.mem_cons_self)) (fun y hy => ?_) fun y hy => hgs y (List.mem_cons_of_mem x hy)
    rcases List.mem_append.1 hy with hy | hy
    · exact hfs y hy
    · rw [List.mem_singleton.1 hy]
      exact hgs x List.mem_cons_self

/-- What running statistics say of the least and greatest of the finite values `fs`: none before
the first, and after it a value of `fs` at most, or at least, every other. -/
structure Extremes (fs : List Float) (s : RunningStats) : Prop where
  min_eq_none : s.min? = none ↔ fs = []
  min_spec : ∀ a, s.min? = some a → a ∈ fs ∧ ∀ y ∈ fs, a ≤ y
  max_eq_none : s.max? = none ↔ fs = []
  max_spec : ∀ a, s.max? = some a → a ∈ fs ∧ ∀ y ∈ fs, y ≤ a

/-- An answer given once something is counted: none exactly for no values, and otherwise the
value kept. -/
theorem counted_answer {c : Nat} {v : Float} {fs : List Float} {P : Float → Prop} (hc : c = fs.length)
    (hv : fs ≠ [] → v ∈ fs ∧ P v) :
    ((if 0 < c then some v else none) = none ↔ fs = []) ∧
      ∀ a, (if 0 < c then some v else none) = some a → a ∈ fs ∧ P a := by
  have hpos : 0 < c ↔ fs ≠ [] := by
    rw [hc, List.length_pos_iff]
  by_cases hf : fs = []
  · rw [if_neg fun h => hpos.1 h hf]
    exact ⟨iff_of_true rfl hf, fun a ha => by cases ha⟩
  · rw [if_pos (hpos.2 hf)]
    refine ⟨iff_of_false (Option.some_ne_none v) hf, fun a ha => ?_⟩
    cases ha
    exact hv hf

theorem Bounds.extremes {fs : List Float} {s : RunningStats} (h : Bounds fs s) (hc : s.count = fs.length) :
    Extremes fs s := by
  obtain ⟨hmin, hmin'⟩ := counted_answer (P := fun a => ∀ y ∈ fs, a ≤ y) hc
    fun hf => ⟨h.least_mem hf, h.least_le⟩
  obtain ⟨hmax, hmax'⟩ := counted_answer (P := fun a => ∀ y ∈ fs, y ≤ a) hc
    fun hf => ⟨h.greatest_mem hf, h.le_greatest⟩
  exact ⟨hmin, hmin', hmax, hmax'⟩

/-! ## The statistics of a list, read exactly -/

/-- The rational numbers the finite doubles of `xs` stand for, in order. -/
def exactValues (xs : List Float) : List ℚ := (xs.filter Float.isFinite).map Float.exactValue

/-- The moments Welford's update gives over the finite doubles of `xs` when the arithmetic on
them is exact. -/
def exactMoments (xs : List Float) : Moments ℚ := (exactValues xs).foldl Moments.push Moments.empty

theorem count_ofList (xs : List Float) : (ofList xs).count = (xs.filter Float.isFinite).length := by
  rw [count, ofList, foldl_push_filter, moments_foldl _ _ fun x hx => (List.mem_filter.1 hx).2,
    Moments.count_foldl_push]
  exact Nat.zero_add _

theorem extremes_ofList (xs : List Float) : Extremes (xs.filter Float.isFinite) (ofList xs) := by
  have hfs : ∀ y ∈ xs.filter Float.isFinite, y.isFinite = true := fun y hy => (List.mem_filter.1 hy).2
  have hb := bounds_empty.foldl (fun _ h => absurd h List.not_mem_nil) _ hfs
  rw [List.nil_append, ← foldl_push_filter] at hb
  exact hb.extremes (count_ofList xs)

/-- Two answers, each `none` exactly for no values and otherwise a value in relation `r` to all
the values, for two orders of the same values, stand for one number when `r` both ways does. -/
theorem map_exactValue_eq_of_perm {r : Float → Float → Prop} {o o' : Option Float} {fs fs' : List Float}
    (hr : ∀ a ∈ fs, ∀ b ∈ fs, r a b → r b a → a.exactValue = b.exactValue) (hp : fs.Perm fs')
    (hnone : o = none ↔ fs = []) (hnone' : o' = none ↔ fs' = [])
    (hspec : ∀ a, o = some a → a ∈ fs ∧ ∀ y ∈ fs, r a y)
    (hspec' : ∀ a, o' = some a → a ∈ fs' ∧ ∀ y ∈ fs', r a y) :
    o.map Float.exactValue = o'.map Float.exactValue := by
  have hnil : fs = [] ↔ fs' = [] := by
    rw [← List.length_eq_zero_iff, hp.length_eq, List.length_eq_zero_iff]
  cases ho : o with
  | none => rw [hnone'.2 (hnil.1 (hnone.1 ho))]
  | some a =>
    cases ho' : o' with
    | none =>
      have := hnone.2 (hnil.2 (hnone'.1 ho'))
      rw [ho] at this
      cases this
    | some b =>
      -- each is in relation to the other, and both are values
      obtain ⟨ha, hab⟩ := hspec a ho
      obtain ⟨hb, hba⟩ := hspec' b ho'
      have hb' : b ∈ fs := hp.symm.subset hb
      exact congrArg some (hr a ha b hb' (hab b hb') (hba a (hp.subset ha)))

/-- Extremes of two orders of the same values stand for the same numbers. -/
theorem Extremes.exactValue_eq {fs fs' : List Float} {s s' : RunningStats} (h : Extremes fs s) (h' : Extremes fs' s')
    (hfs : ∀ y ∈ fs, y.isFinite = true) (hp : fs.Perm fs') :
    s.min?.map Float.exactValue = s'.min?.map Float.exactValue ∧
      s.max?.map Float.exactValue = s'.max?.map Float.exactValue := by
  have hnan : ∀ y ∈ fs, y.isNaN = false := fun y hy => Float.isNaN_eq_false_of_isFinite (hfs y hy)
  refine ⟨map_exactValue_eq_of_perm (r := (· ≤ ·)) ?_ hp h.min_eq_none h'.min_eq_none h.min_spec h'.min_spec,
    map_exactValue_eq_of_perm (r := fun a y => y ≤ a) ?_ hp h.max_eq_none h'.max_eq_none h.max_spec h'.max_spec⟩
  · exact fun a ha b hb hab hba => Float.exactValue_eq_of_le_of_le (hnan a ha) (hnan b hb) hab hba
  · exact fun a ha b hb hba hab => Float.exactValue_eq_of_le_of_le (hnan a ha) (hnan b hb) hab hba

/-- The statistics of a list of doubles, with the arithmetic on its finite values exact: values
that are not finite are skipped; the count is the number of finite values; Welford's update of
their exact values gives their mean (0 for none) and their sample variance (0 below two
values); the least and greatest kept are their extremes, none before the first; and none of it
depends on the order of the values. -/
theorem ofList_exact (xs : List Float) :
    ofList xs = ofList (xs.filter Float.isFinite) ∧
      (ofList xs).moments = (xs.filter Float.isFinite).foldl Moments.push Moments.empty ∧
      (ofList xs).count = (exactValues xs).length ∧
      Moments.Describes (exactValues xs) (exactMoments xs) ∧
      (exactMoments xs).variance = (if (exactValues xs).length < 2 then 0 else
        ((exactValues xs).map fun v => (v - (exactValues xs).sum / (exactValues xs).length) ^ 2).sum /
          (((exactValues xs).length - 1 : Nat) : ℚ)) ∧
      Extremes (xs.filter Float.isFinite) (ofList xs) ∧
      ∀ ys : List Float, ys.Perm xs → (ofList ys).count = (ofList xs).count ∧ exactMoments ys = exactMoments xs ∧
        (ofList ys).min?.map Float.exactValue = (ofList xs).min?.map Float.exactValue ∧
        (ofList ys).max?.map Float.exactValue = (ofList xs).max?.map Float.exactValue := by
  have hd := Moments.describes_foldl (exactValues xs)
  refine ⟨by rw [ofList, ofList, foldl_push_filter], ?_, ?_, hd, hd.variance,
    extremes_ofList xs, fun ys hp => ?_⟩
  · rw [ofList, foldl_push_filter, moments_foldl _ _ fun x hx => (List.mem_filter.1 hx).2]
  · rw [count_ofList, exactValues, List.length_map]
  · have hpf : (ys.filter Float.isFinite).Perm (xs.filter Float.isFinite) := hp.filter _
    refine ⟨by rw [count_ofList, count_ofList, hpf.length_eq], (Moments.describes_foldl (exactValues ys)).eq_of_perm hd
      (hpf.map _), ?_⟩
    exact (extremes_ofList ys).exactValue_eq (extremes_ofList xs) (fun y hy => (List.mem_filter.1 hy).2) hpf

end RunningStats

end OverlapLayout
