import Mathlib
import OverlapLayout.Proofs.Float.Scale
/-!
  The order of doubles that are not NaN.

  IEEE 754 compares two doubles that are not NaN by sign and, for two finite ones of one sign,
  by exponent and then mantissa, the other way round below zero; the two zeros are equal and
  the infinities lie beyond everything. On the logical model of doubles this is the order of a
  rank in a lexicographic product of integers (`compare_rank`), so on doubles that are not NaN
  `≤` is a total preorder (`le_refl_of_isNaN`, `le_of_not_lt`, `le_trans_of_isNaN`), nothing is
  above the positive infinity nor below the negative one, and two doubles each at most the
  other stand for the same rational number (`exactValue_eq_of_le_of_le`).

  * `UnpackedFloat.rank`, `compare_rank`: the order of unpacked doubles as the order of ranks.
  * `exactValue`: the rational number a finite double stands for.
-/

namespace Float

open Float.Model Float.Model.UnpackedFloat

/-- Where an unpacked double that is not a NaN stands: the negative infinity, the negative
finite ones by decreasing exponent and mantissa, the zeros, the positive finite ones by
exponent and mantissa, the positive infinity. -/
def rank : UnpackedFloat → Lex (ℤ × Lex (ℤ × ℤ))
  | .infinity .negative => toLex (0, toLex (0, 0))
  | .finite .negative m e _ => toLex (1, toLex (-e, -(m : ℤ)))
  | .zero _ => toLex (2, toLex (0, 0))
  | .notANumber => toLex (2, toLex (0, 0))
  | .finite .positive m e _ => toLex (3, toLex (e, (m : ℤ)))
  | .infinity .positive => toLex (4, toLex (0, 0))

theorem compare_toLex (a b c d e f : ℤ) :
    compare (toLex (a, toLex (b, c))) (toLex (d, toLex (e, f))) =
      (compare a d).then ((compare b e).then (compare c f)) :=
  rfl

theorem then_of_lt {a b : ℤ} (h : a < b) (o : Ordering) : (compare a b).then o = .lt := by
  rw [compare_lt_iff_lt.2 h]
  rfl

theorem then_of_gt {a b : ℤ} (h : b < a) (o : Ordering) : (compare a b).then o = .gt := by
  rw [compare_gt_iff_gt.2 h]
  rfl

theorem compare_neg_neg (a b : ℤ) : compare (-a) (-b) = (compare a b).swap := by
  rcases lt_trichotomy a b with h | rfl | h
  · rw [compare_lt_iff_lt.2 h, compare_gt_iff_gt.2 (Int.neg_lt_neg h)]
    rfl
  · rw [compare_eq_iff_eq.2 rfl, compare_eq_iff_eq.2 rfl]
    rfl
  · rw [compare_gt_iff_gt.2 h, compare_lt_iff_lt.2 (Int.neg_lt_neg h)]
    rfl

theorem compare_natCast (a b : ℕ) : compare (a : ℤ) (b : ℤ) = compare a b := by
  rcases lt_trichotomy a b with h | rfl | h
  · rw [compare_lt_iff_lt.2 h, compare_lt_iff_lt.2 (Int.ofNat_lt.2 h)]
  · rw [compare_eq_iff_eq.2 rfl, compare_eq_iff_eq.2 rfl]
  · rw [compare_gt_iff_gt.2 h, compare_gt_iff_gt.2 (Int.ofNat_lt.2 h)]

/-- Two unpacked doubles that are not NaN compare as their ranks. -/
theorem compare_rank {a b : UnpackedFloat} (ha : a.isNaN = false) (hb : b.isNaN = false) :
    a.compare b = some (compare (rank a) (rank b)) := by
  rcases a with ⟨_ | _⟩ | _ | ⟨_ | _⟩ | ⟨_ | _, m, e, hm⟩ <;>
    rcases b with ⟨_ | _⟩ | _ | ⟨_ | _⟩ | ⟨_ | _, m', e', hm'⟩ <;>
    simp_all [UnpackedFloat.isNaN, UnpackedFloat.compare, rank, compare_toLex, then_of_lt,
      then_of_gt, compare_neg_neg, compare_natCast, Ordering.swap_then] <;>
    decide

theorem lt_iff_rank {x y : Float} (hx : x.isNaN = false) (hy : y.isNaN = false) :
    x < y ↔ rank x.toModel.unpack < rank y.toModel.unpack := by
  rw [lt_iff_unpacked, UnpackedFloat.lt, compare_rank hx hy, ← compare_lt_iff_lt]
  simp

theorem le_iff_rank {x y : Float} (hx : x.isNaN = false) (hy : y.isNaN = false) :
    x ≤ y ↔ rank x.toModel.unpack ≤ rank y.toModel.unpack := by
  rw [le_iff_unpacked, UnpackedFloat.le, compare_rank hx hy, ← compare_le_iff_le]
  cases compare (rank x.toModel.unpack) (rank y.toModel.unpack) <;> simp

/-! ## A total preorder on doubles that are not NaN -/

section Preorder

variable {x y z : Float}

theorem le_refl_of_isNaN (hx : x.isNaN = false) : x ≤ x :=
  (le_iff_rank hx hx).2 le_rfl

theorem le_of_not_lt (hx : x.isNaN = false) (hy : y.isNaN = false) (h : ¬x < y) : y ≤ x :=
  (le_iff_rank hy hx).2 (not_lt.1 fun h' => h ((lt_iff_rank hx hy).2 h'))

theorem le_trans_of_isNaN (hx : x.isNaN = false) (hy : y.isNaN = false) (hz : z.isNaN = false)
    (hxy : x ≤ y) (hyz : y ≤ z) : x ≤ z :=
  (le_iff_rank hx hz).2 (((le_iff_rank hx hy).1 hxy).trans ((le_iff_rank hy hz).1 hyz))

end Preorder

theorem isNaN_eq_false_of_isFinite {x : Float} (h : x.isFinite = true) : x.isNaN = false := by
  change x.toModel.unpack.isFinite = true at h
  change x.toModel.unpack.isNaN = false
  cases hu : x.toModel.unpack <;> simp_all [UnpackedFloat.isFinite, UnpackedFloat.isNaN]

theorem unpack_inf : (Float.ofBits 0x7FF0000000000000).toModel.unpack = .infinity .positive :=
  rfl

theorem unpack_negInf : (Float.ofBits 0xFFF0000000000000).toModel.unpack = .infinity .negative :=
  rfl

/-- Nothing is above the positive infinity. -/
theorem not_inf_lt (y : Float) : ¬Float.ofBits 0x7FF0000000000000 < y := by
  rw [lt_iff_unpacked, unpack_inf]
  cases y.toModel.unpack with
  | infinity s => cases s <;> decide
  | notANumber => decide
  | zero s => cases s <;> decide
  | finite s m e hm => cases s <;> simp [UnpackedFloat.lt, UnpackedFloat.compare]

/-- Nothing is below the negative infinity. -/
theorem not_lt_negInf (y : Float) : ¬y < Float.ofBits 0xFFF0000000000000 := by
  rw [lt_iff_unpacked, unpack_negInf]
  cases y.toModel.unpack with
  | infinity s => cases s <;> decide
  | notANumber => decide
  | zero s => cases s <;> decide
  | finite s m e hm => cases s <;> simp [UnpackedFloat.lt, UnpackedFloat.compare]

/-! ## Exact values -/

/-- The rational number an unpacked double stands for; 0 for the infinities and NaN. -/
def unpackedValue : UnpackedFloat → ℚ
  | .finite s m e _ => (s.apply m : ℚ) * 2 ^ e
  | _ => 0

/-- The rational number a finite double stands for; 0 for the infinities and NaN. -/
def exactValue (x : Float) : ℚ := unpackedValue x.toModel.unpack

/-- Unpacked doubles of one rank stand for one number: a rank names a zero of either sign, or
one finite double. -/
theorem unpackedValue_eq_of_rank_eq {a b : UnpackedFloat} (h : rank a = rank b) :
    unpackedValue a = unpackedValue b := by
  rcases a with ⟨_ | _⟩ | _ | ⟨_ | _⟩ | ⟨_ | _, m, e, hm⟩ <;>
    rcases b with ⟨_ | _⟩ | _ | ⟨_ | _⟩ | ⟨_ | _, m', e', hm'⟩ <;>
    simp_all [rank, unpackedValue]

/-- Two doubles, not NaN, each at most the other, stand for the same number. -/
theorem exactValue_eq_of_le_of_le {x y : Float} (hx : x.isNaN = false) (hy : y.isNaN = false)
    (hxy : x ≤ y) (hyx : y ≤ x) : x.exactValue = y.exactValue :=
  unpackedValue_eq_of_rank_eq (le_antisymm ((le_iff_rank hx hy).1 hxy) ((le_iff_rank hy hx).1 hyx))

end Float
