import Mathlib
import OverlapLayout.Stats.Basic
/-!
  Doubles of plus sign.

  IEEE 754 gives a product or a quotient the product of the signs of its operands, whenever
  it is not a NaN, and a double is read back with the sign it was written with. So natural
  numbers read as doubles carry the plus sign, so does a quotient of two of them, and a double
  of plus sign that is not a NaN is at least zero. This bounds a proportion of two counts,
  capped at one, to `[0, 1]`. The statements are about the logical model of doubles that
  gives `+`, `*`, `/` and the comparisons their meaning.

  * `Float.PlusSigned`: a double that is a NaN or carries the plus sign.
  * `plusSigned_ofNat`, `PlusSigned.mul`, `PlusSigned.div`: naturals, products, quotients.
  * `zero_le_of_plusSigned`: such a double, when not a NaN, is at least zero.
  * `minNum_one_mem`: such a double capped at one lies in `[0, 1]`.
-/

namespace Float

open Float.Model Float.Model.UnpackedFloat

/-- An unpacked double is a NaN or carries the plus sign; a zero counts by its sign. -/
def unpackedPlus : UnpackedFloat → Bool
  | .notANumber => true
  | .infinity .positive => true
  | .zero .positive => true
  | .finite .positive .. => true
  | _ => false

@[simp] theorem unpackedPlus_notANumber : unpackedPlus .notANumber = true := rfl

@[simp] theorem unpackedPlus_infinity (s : Sign) :
    unpackedPlus (.infinity s) = true ↔ s = .positive := by
  cases s <;> simp [unpackedPlus]

@[simp] theorem unpackedPlus_zero (s : Sign) : unpackedPlus (.zero s) = true ↔ s = .positive := by
  cases s <;> simp [unpackedPlus]

@[simp] theorem unpackedPlus_finite (s : Sign) (m : Nat) (e : Int) (hm : 0 < m) :
    unpackedPlus (.finite s m e hm) = true ↔ s = .positive := by
  cases s <;> simp [unpackedPlus]

@[simp] theorem positive_div_positive : Sign.positive / Sign.positive = .positive := rfl

@[simp] theorem positive_mul_positive : Sign.positive * Sign.positive = .positive := rfl

/-! ## The sign bit -/

theorem unpackSign_packComponents {spec : Format} {s : Sign} {e m} :
    unpackSign (packComponents spec s e m) = s.toBitVec := by
  ext i hi
  obtain rfl : i = 0 := by omega
  simp [unpackSign, packComponents, BitVec.getLsbD_append, BitVec.getElem_append]

/-- A pattern whose sign bit is clear unpacks to a double of plus sign. -/
theorem unpackedPlus_unpack {spec : Format} {b : BitVec spec.numBits} (h : unpackSign b = 0#1) :
    unpackedPlus (UnpackedFloat.unpack spec b) = true := by
  unfold UnpackedFloat.unpack
  simp only [h, Sign.ofBitVec, if_true]
  split_ifs <;> rfl

/-- A double of plus sign packs to a pattern whose sign bit is clear; the NaN written is the
one of plus sign. -/
theorem unpackSign_pack {spec : Format} {u : UnpackedFloat} (h : unpackedPlus u = true) :
    unpackSign (UnpackedFloat.pack spec u) = 0#1 := by
  unfold UnpackedFloat.pack
  split
  · simp [packedNaN, Sign.toBitVec]
  · next s => cases s <;> simp_all [packedInfinity, Sign.toBitVec]
  · next s => cases s <;> simp_all [packedZero, Sign.toBitVec]
  · next s m e hm =>
    cases s
    · simp at h
    · dsimp only
      split_ifs <;> simp [packedInfinity, Sign.toBitVec]

/-! ## Operations -/

theorem unpackedPlus_roundWithAccuracy {spec : Format} {m : Nat} {e : Int} {acc : Accuracy} :
    unpackedPlus (roundWithAccuracy spec .positive m e acc) = true := by
  unfold roundWithAccuracy
  dsimp only
  split <;> rfl

theorem unpackedPlus_div {spec : Format} {a b : UnpackedFloat} (ha : unpackedPlus a = true)
    (hb : unpackedPlus b = true) : unpackedPlus (UnpackedFloat.div spec a b) = true := by
  unfold UnpackedFloat.div
  split <;> simp_all [unpackedPlus_roundWithAccuracy]

theorem unpackedPlus_mul {spec : Format} {a b : UnpackedFloat} (ha : unpackedPlus a = true)
    (hb : unpackedPlus b = true) : unpackedPlus (UnpackedFloat.mul spec a b) = true := by
  unfold UnpackedFloat.mul
  split <;> simp_all [unpackedPlus_roundWithAccuracy]

theorem unpackedPlus_ofNat (spec : Format) (n : Nat) :
    unpackedPlus (UnpackedFloat.ofNat spec n) = true := by
  unfold UnpackedFloat.ofNat UnpackedFloat.ofInt UnpackedFloat.normalize
  split
  · -- a natural is not below zero
    next h =>
    simp only [Int.compare_eq_lt] at h
    omega
  · rfl
  · exact unpackedPlus_roundWithAccuracy

theorem unpackedPlus_ofScientific (spec : Format) (m : Nat) (e : Int) :
    unpackedPlus (UnpackedFloat.ofScientific spec m e) = true := by
  unfold UnpackedFloat.ofScientific
  split_ifs
  · rfl
  · rfl
  · rfl
  · exact unpackedPlus_mul (by simp) (by simp)
  · exact unpackedPlus_div (by simp) (by simp)

/-! ## Doubles -/

/-- A double that is a NaN or carries the plus sign. -/
def PlusSigned (x : Float) : Prop := unpackedPlus x.toModel.unpack = true

instance : DecidablePred PlusSigned := fun _ => inferInstanceAs (Decidable (unpackedPlus _ = true))

theorem plusSigned_ofModel {u : UnpackedFloat} (h : unpackedPlus u = true) :
    PlusSigned (Float.ofModel (Model.pack u)) :=
  unpackedPlus_unpack (unpackSign_pack h)

theorem PlusSigned.div {x y : Float} (hx : x.PlusSigned) (hy : y.PlusSigned) : (x / y).PlusSigned :=
  plusSigned_ofModel (unpackedPlus_div hx hy)

theorem PlusSigned.mul {x y : Float} (hx : x.PlusSigned) (hy : y.PlusSigned) : (x * y).PlusSigned :=
  plusSigned_ofModel (unpackedPlus_mul hx hy)

theorem plusSigned_one : (Float.ofBits 0x3FF0000000000000).PlusSigned := by decide

/-- A natural number read as a double carries the plus sign, exact or not. -/
theorem plusSigned_ofNat (n : Nat) : (Float.ofNat n).PlusSigned := by
  unfold Float.ofNat
  show (Float.ofScientific n false 0).PlusSigned
  unfold Float.ofScientific
  split
  · exact PlusSigned.mul (plusSigned_ofModel (unpackedPlus_ofNat _ _)) plusSigned_one
  · exact plusSigned_ofModel (unpackedPlus_ofScientific _ _ _)

/-- A double of plus sign that is not a NaN is at least zero. -/
theorem zero_le_of_plusSigned {x : Float} (hx : x.PlusSigned) (hn : x.isNaN = false) :
    (0 : Float) ≤ x := by
  have h0 : (0 : Float).toModel.unpack = .zero .positive := rfl
  show decide ((0 : Float).toModel ≤ x.toModel) = true
  rw [decide_eq_true_eq]
  show UnpackedFloat.le (0 : Float).toModel.unpack x.toModel.unpack = true
  rw [h0]
  unfold PlusSigned at hx
  unfold Float.isNaN Model.isNaN at hn
  generalize x.toModel.unpack = u at hx hn
  cases u with
  | notANumber => simp [UnpackedFloat.isNaN] at hn
  | infinity s => simp at hx; subst hx; rfl
  | zero s => cases s <;> rfl
  | finite s m e hm => simp at hx; subst hx; rfl

theorem le_of_lt {a b : Float} (h : a < b) : a ≤ b := by
  have hlt : decide (a.toModel < b.toModel) = true := h
  show decide (a.toModel ≤ b.toModel) = true
  rw [decide_eq_true_eq] at hlt ⊢
  change UnpackedFloat.lt a.toModel.unpack b.toModel.unpack = true at hlt
  show UnpackedFloat.le a.toModel.unpack b.toModel.unpack = true
  unfold UnpackedFloat.lt at hlt
  unfold UnpackedFloat.le
  generalize UnpackedFloat.compare _ _ = c at hlt ⊢
  rcases c with _ | _ | _ | _ <;> simp_all

/-- A double of plus sign capped at one lies in `[0, 1]`: a NaN gives way to the one. -/
theorem minNum_one_mem {x : Float} (hx : x.PlusSigned) : 0 ≤ x.minNum 1 ∧ x.minNum 1 ≤ 1 := by
  unfold Float.minNum
  split_ifs with hnan hone hlt
  · exact ⟨by decide, by decide⟩
  · exact absurd hone (by decide)
  · exact ⟨zero_le_of_plusSigned hx (by simpa using hnan), le_of_lt hlt⟩
  · exact ⟨by decide, by decide⟩

end Float
