import Mathlib
import OverlapLayout.Proofs.Float.Sign
/-!
  Scaling a double by a ratio in `[0, 1]`.

  Rounding to nearest never carries a value past a double that bounds it from above, so a
  double of plus sign scaled by a ratio between zero and one is never above itself. The
  statements are about the logical model of doubles, read as natural-number arithmetic on
  mantissas and exponents.

  * `ScaledLE`: `M·2^E ≤ m·2^e` with `E ≤ e`, kept by dropping low bits.
  * `shiftRight_mantissa`, `shiftRight_exact`, `roundedMantissa_le`: shifting an extended
    mantissa right divides it by a power of two, with no residue when no bit is lost, and
    rounding adds at most one.
  * `ScaledLE.targetExponent_le`: a value below `m·2^e`, for a double `m·2^e`, targets an
    exponent at most `e`.
  * `roundWithAccuracy_scaledLE`: rounding such a value gives zero or a value below `m·2^e`.
  * `compare_round_ne_lt`: a double is not below such a value rounded, packed and unpacked.
  * `scale_le_one`: a ratio at most one is `mr·2^er` with `mr ≤ 2^(-er)`.
  * `compare_mul_ne_lt`, `not_lt_mul_self`: a double of plus sign is not above itself scaled by a
    ratio in `[0, 1]`.
-/

namespace Float

open Float.Model Float.Model.UnpackedFloat

/-! ## Bounds on shifted mantissas -/

/-- `M·2^E` is at most `m·2^e`, with `E ≤ e`. -/
def ScaledLE (M : Nat) (E : Int) (m : Nat) (e : Int) : Prop :=
  E ≤ e ∧ M ≤ m * 2 ^ (e - E).toNat

/-- Dropping `k` low bits of `M` while raising its exponent by `k`, up to `e`, keeps the bound. -/
theorem ScaledLE.div {M m : Nat} {E e : Int} (h : ScaledLE M E m e) (k : Nat) (hk : E + k ≤ e) :
    ScaledLE (M / 2 ^ k) (E + k) m e := by
  refine ⟨hk, Nat.div_le_of_le_mul ?_⟩
  have hexp : (e - E).toNat = k + (e - (E + k)).toNat := by omega
  calc M ≤ m * 2 ^ (e - E).toNat := h.2
    _ = 2 ^ k * (m * 2 ^ (e - (E + k)).toNat) := by rw [hexp, Nat.pow_add, Nat.mul_left_comm]

theorem shiftRight_mantissa (em : ExtendedMantissa) (k : Nat) :
    (em >>> k).mantissa = em.mantissa / 2 ^ k := by
  induction k with
  | zero => rw [Nat.pow_zero, Nat.div_one]; rfl
  | succ k ih =>
    change (ExtendedMantissa.shiftRightOne (em >>> k)).mantissa = _
    rw [ExtendedMantissa.shiftRightOne, ih, Nat.div_div_eq_div_mul, Nat.pow_succ]

/-- Shifting out bits that are all zero leaves no residue. -/
theorem shiftRight_exact (m k : Nat) (h : 2 ^ k ∣ m) :
    (⟨m, false, false⟩ : ExtendedMantissa) >>> k = ⟨m / 2 ^ k, false, false⟩ := by
  induction k with
  | zero => rw [Nat.pow_zero, Nat.div_one]; rfl
  | succ k ih =>
    change ExtendedMantissa.shiftRightOne ((⟨m, false, false⟩ : ExtendedMantissa) >>> k) = _
    rw [ih (Nat.dvd_trans (Nat.pow_dvd_pow 2 (Nat.le_succ k)) h), ExtendedMantissa.shiftRightOne]
    -- the bit shifted out last is bit `k` of `m`, which is zero
    have hbit : m / 2 ^ k % 2 = 0 := by
      obtain ⟨c, rfl⟩ := h
      rw [Nat.pow_succ, Nat.mul_assoc, Nat.mul_div_cancel_left _ (Nat.two_pow_pos k)]
      simp
    simp [hbit, Nat.div_div_eq_div_mul, Nat.pow_succ]

theorem roundedMantissa_le (em : ExtendedMantissa) : em.roundedMantissa ≤ em.mantissa + 1 := by
  rcases em with ⟨m, _ | _, _ | _⟩ <;>
    simp [ExtendedMantissa.roundedMantissa, ExtendedMantissa.accuracy,
      Accuracy.roundToNearestEven]
  omega

/-! ## Rounding below a double -/

section Rounding

variable {M m : Nat} {E e : Int}

/-- A value at most `m·2^e`, where `m·2^e` is a double, targets an exponent at most `e`. -/
theorem ScaledLE.targetExponent_le (h : ScaledLE M E m e) (hm : m < 2 ^ 53) (he : -1074 ≤ e) :
    Format.binary64.targetExponent (totalExponent M E) ≤ e := by
  have hlog : (M.log2 : Int) + E ≤ 52 + e := by
    by_cases hM : M = 0
    · simp [hM]; have := h.1; omega
    · -- `M < 2^53·2^(e-E)`, so its top bit is below bit `53 + (e - E)`
      have hlt : M < 2 ^ (53 + (e - E).toNat) := by
        calc M ≤ m * 2 ^ (e - E).toNat := h.2
          _ < 2 ^ 53 * 2 ^ (e - E).toNat := Nat.mul_lt_mul_of_pos_right hm (Nat.two_pow_pos _)
          _ = _ := (Nat.pow_add 2 53 _).symm
      have := (Nat.log2_lt hM).2 hlt
      have := h.1
      omega
  simp only [Format.targetExponent, totalExponent, Format.mantissaBits, Format.minExponent]
  omega

theorem le_targetExponent (M : Nat) (E : Int) :
    -1074 ≤ Format.binary64.targetExponent (totalExponent M E) := by
  simp only [Format.targetExponent, Format.mantissaBits, Format.minExponent]
  omega

/-- Shifting to the target exponent keeps a value below `m·2^e`, and lands on an exponent no
lower than the least one. -/
theorem ScaledLE.shiftToTargetExponent (h : ScaledLE M E m e) (hm : m < 2 ^ 53) (he : -1074 ≤ e)
    (acc : Accuracy) :
    let r := shiftToTargetExponent .binary64 M E acc
    r.1 = ExtendedMantissa.ofMantissaAndAccuracy M acc >>> (r.2 - E).toNat ∧ E ≤ r.2 ∧
      -1074 ≤ r.2 ∧ ScaledLE (M / 2 ^ (r.2 - E).toNat) r.2 m e := by
  have ht := h.targetExponent_le hm he
  have hl := le_targetExponent M E
  have hsh : (E + (Format.binary64.targetExponent (totalExponent M E) - E).toNat - E).toNat =
      (Format.binary64.targetExponent (totalExponent M E) - E).toNat := by omega
  dsimp only [UnpackedFloat.shiftToTargetExponent, shiftToExponent]
  rw [hsh]
  exact ⟨rfl, by omega, by omega, h.div _ (by have := h.1; omega)⟩

/-- Rounding a positive value at most `m·2^e`, where `m·2^e` is a double, gives zero or a value
at most `m·2^e` on an exponent no lower than the least one. -/
theorem roundWithAccuracy_scaledLE (h : ScaledLE M E m e) (hm : m < 2 ^ 53) (he : -1074 ≤ e)
    (s : Sign) :
    roundWithAccuracy .binary64 s M E .exact = .zero s ∨
      ∃ F e' hF, roundWithAccuracy .binary64 s M E .exact = .finite s F e' hF ∧ -1074 ≤ e' ∧
        ScaledLE F e' m e := by
  obtain ⟨h₁, hE₁, -, hsc₁⟩ := h.shiftToTargetExponent hm he .exact
  generalize hr : UnpackedFloat.shiftToTargetExponent .binary64 M E .exact = r at h₁ hE₁ hsc₁
  obtain ⟨em, e₁⟩ := r
  dsimp only at h₁ hE₁ hsc₁
  generalize hk : (e₁ - E).toNat = k at h₁ hsc₁
  -- rounding adds at most one, and nothing when the bound is met exactly
  have hround : ScaledLE em.roundedMantissa e₁ m e := by
    refine ⟨hsc₁.1, ?_⟩
    have hq : em.mantissa = M / 2 ^ k := by
      rw [h₁, shiftRight_mantissa]; rfl
    rcases Nat.lt_or_ge (M / 2 ^ k) (m * 2 ^ (e - e₁).toNat) with hlt | hge
    · have := roundedMantissa_le em
      omega
    · -- the bound is met: no bit of `M` was dropped
      have heq : M / 2 ^ k = m * 2 ^ (e - e₁).toNat := Nat.le_antisymm hsc₁.2 hge
      have hexp : (e - E).toNat = (e - e₁).toNat + k := by have := hsc₁.1; have := h.1; omega
      have hM : M = M / 2 ^ k * 2 ^ k := by
        refine Nat.le_antisymm ?_ (Nat.div_mul_le_self M _)
        calc M ≤ m * 2 ^ (e - E).toNat := h.2
          _ = M / 2 ^ k * 2 ^ k := by rw [heq, hexp, Nat.pow_add, Nat.mul_assoc]
      rw [h₁, ExtendedMantissa.ofMantissaAndAccuracy,
        shiftRight_exact M k ⟨M / 2 ^ k, by rw [Nat.mul_comm]; exact hM⟩]
      exact Nat.le_of_eq heq
  obtain ⟨h₂, -, hl₂, hsc₂⟩ := hround.shiftToTargetExponent hm he .exact
  have hfinal : (UnpackedFloat.shiftToTargetExponent .binary64 em.roundedMantissa e₁ .exact).1.mantissa =
      em.roundedMantissa / 2 ^ ((UnpackedFloat.shiftToTargetExponent .binary64 em.roundedMantissa e₁
        .exact).2 - e₁).toNat := by
    rw [h₂, shiftRight_mantissa]; rfl
  unfold roundWithAccuracy
  rw [hr]
  dsimp only
  split
  · exact .inl rfl
  · next hF => exact .inr ⟨_, _, Nat.pos_of_ne_zero hF, rfl, hl₂, by rw [hfinal]; exact hsc₂⟩

end Rounding

/-! ## Packing and unpacking -/

/-- An unpacked finite double has a mantissa below `2^53` and an exponent in `[-1074, 971]`. -/
theorem unpack_finite_bounds {b : BitVec 64} {s : Sign} {m : Nat} {e : Int} {hm : 0 < m}
    (h : UnpackedFloat.unpack .binary64 b = .finite s m e hm) :
    m < 2 ^ 53 ∧ -1074 ≤ e ∧ e ≤ 971 := by
  have hmv : (@unpackMantissa .binary64 b).toNat < 2 ^ 52 := (@unpackMantissa .binary64 b).isLt
  have hev : (@unpackExponent .binary64 b).toNat < 2 ^ 11 := (@unpackExponent .binary64 b).isLt
  have hbias : Format.binary64.exponentBias = 1023 := rfl
  unfold UnpackedFloat.unpack at h
  dsimp only at h
  split_ifs at h with hinf hnan hsub hzero
  · -- subnormal: the exponent field is zero
    simp only [finite.injEq] at h
    obtain ⟨-, rfl, rfl⟩ := h
    rw [hsub, hbias]
    refine ⟨by omega, by simp, by simp⟩
  · -- normal: the exponent field is neither zero nor all ones
    simp only [finite.injEq] at h
    obtain ⟨-, rfl, rfl⟩ := h
    have h0 : (@unpackExponent .binary64 b).toNat ≠ 0 := fun h0 => hsub (BitVec.eq_of_toNat_eq h0)
    have h1 : (@unpackExponent .binary64 b).toNat ≠ 2047 := fun h1 => hinf (BitVec.eq_of_toNat_eq h1)
    refine ⟨(1#1 ++ @unpackMantissa .binary64 b).isLt, ?_, ?_⟩ <;> rw [hbias] <;> omega

/-- Packing a finite double of plus sign on an exponent in `[-1074, 971]` and unpacking it gives
zero, the same double, or a subnormal one with a mantissa no larger. -/
theorem unpack_pack_finite {F : Nat} {e : Int} (hF : 0 < F) (hl : -1074 ≤ e) (hu : e ≤ 971) :
    let u := UnpackedFloat.unpack .binary64 (UnpackedFloat.pack .binary64 (.finite .positive F e hF))
    u = .zero .positive ∨
      ∃ F' e' hF', u = .finite .positive F' e' hF' ∧ ((F' = F ∧ e' = e) ∨ (F' ≤ F ∧ e' = -1074)) := by
  have hbias : Format.binary64.exponentBias = 1023 := rfl
  have hsign : Sign.ofBitVec Sign.positive.toBitVec = .positive := rfl
  dsimp only
  unfold UnpackedFloat.pack
  dsimp only
  rw [hbias, if_neg (by simp; omega)]
  split_ifs with hnorm
  all_goals unfold UnpackedFloat.unpack
  all_goals simp only [unpackExponent_packComponents, unpackMantissa_packComponents,
    Float.unpackSign_packComponents, hsign, hbias, Int.cast_ofNat_Int]
  · -- normal: the exponent field holds `e + 1075`, strictly between zero and all ones
    have hB : (BitVec.ofNat 11 (e + 1023 + 52).toNat).toNat = (e + 1023 + 52).toNat := by
      rw [BitVec.toNat_ofNat]; exact Nat.mod_eq_of_lt (by omega)
    have h1 : BitVec.ofNat 11 (e + 1023 + 52).toNat ≠ -1#11 := fun h => by
      have := congrArg BitVec.toNat h; rw [hB] at this; simp at this; omega
    have h0 : BitVec.ofNat 11 (e + 1023 + 52).toNat ≠ 0#11 := fun h => by
      have := congrArg BitVec.toNat h; rw [hB] at this; simp at this; omega
    rw [if_neg h1, if_neg h0]
    -- the implicit bit is the top bit of `F`
    have hlog : F.log2 = 52 := by simp only [Format.mantissaBits] at hnorm; omega
    have hlo : 2 ^ 52 ≤ F := hlog ▸ Nat.log2_self_le (Nat.ne_of_gt hF)
    have hhi : F < 2 ^ 53 := by have := @Nat.lt_log2_self F; rwa [hlog] at this
    have hval : (1#1 ++ BitVec.ofNat 52 F).toNat = F := by
      simp only [BitVec.toNat_append, BitVec.toNat_ofNat]
      rw [← Nat.shiftLeft_add_eq_or_of_lt (Nat.mod_lt _ (by omega)), Nat.shiftLeft_eq]
      omega
    refine .inr ⟨_, _, by rw [hval]; exact hF, rfl, .inl ⟨hval, ?_⟩⟩
    rw [hB]; omega
  · -- subnormal: the exponent field is zero and the mantissa keeps the low bits of `F`
    rw [if_neg (by decide), if_pos trivial]
    split
    · exact .inl rfl
    · next hz =>
      refine .inr ⟨_, _, Nat.pos_of_ne_zero fun h => hz (BitVec.eq_of_toNat_eq h), rfl, .inr ⟨?_, ?_⟩⟩
      · rw [BitVec.toNat_ofNat]; exact Nat.mod_le _ _
      · simp

theorem unpack_pack_zero (s : Sign) :
    UnpackedFloat.unpack .binary64 (UnpackedFloat.pack .binary64 (.zero s)) = .zero s := by
  cases s <;> rfl

theorem unpack_pack_infinity (s : Sign) :
    UnpackedFloat.unpack .binary64 (UnpackedFloat.pack .binary64 (.infinity s)) = .infinity s := by
  cases s <;> rfl

theorem unpack_pack_notANumber :
    UnpackedFloat.unpack .binary64 (UnpackedFloat.pack .binary64 .notANumber) = .notANumber := rfl

/-! ## Comparing with a rounded value -/

/-- A double `m·2^e` of plus sign is not below a double of plus sign on an exponent no higher,
whose mantissa is no larger when the exponents agree. -/
theorem compare_finite_ne_lt {m F : Nat} {e e' : Int} (hm : 0 < m) (hF : 0 < F) (he : e' ≤ e)
    (hle : e' = e → F ≤ m) :
    UnpackedFloat.compare (.finite .positive m e hm) (.finite .positive F e' hF) ≠ some .lt := by
  simp only [UnpackedFloat.compare, ne_eq, Option.some.injEq]
  rcases Int.lt_or_eq_of_le he with hlt | rfl
  · have : compare e e' = .gt := Int.compare_eq_gt.2 hlt
    simp [this, Ordering.then]
  · have : compare m F ≠ .lt := by
      rw [ne_eq, Nat.compare_eq_lt]; have := hle rfl; omega
    simpa [Ordering.then] using this

/-- A double `m·2^e` of plus sign is not below a value at most `m·2^e` once rounded, packed and
unpacked. -/
theorem compare_round_ne_lt {M m : Nat} {E e : Int} (hm : 0 < m)
    (hb : m < 2 ^ 53 ∧ -1074 ≤ e ∧ e ≤ 971) (h : ScaledLE M E m e) :
    UnpackedFloat.compare (.finite .positive m e hm) (UnpackedFloat.unpack .binary64
      (UnpackedFloat.pack .binary64 (roundWithAccuracy .binary64 .positive M E .exact))) ≠ some .lt := by
  rcases roundWithAccuracy_scaledLE h hb.1 hb.2.1 .positive with hz | ⟨F, e', hF, hr, hl, hsc⟩
  · rw [hz, unpack_pack_zero]
    simp [UnpackedFloat.compare]
  rw [hr]
  have hmF : e' = e → F ≤ m := fun he => by
    have := hsc.2
    rwa [he, Int.sub_self, Int.toNat_zero, Nat.pow_zero, Nat.mul_one] at this
  rcases unpack_pack_finite hF hl (Int.le_trans hsc.1 hb.2.2) with hz | ⟨F', e'', hF', hu, hsame | hsub⟩
  · rw [hz]
    simp [UnpackedFloat.compare]
  · obtain ⟨hF'F, he''⟩ := hsame
    subst hF'F he''
    rw [hu]
    exact compare_finite_ne_lt hm hF' hsc.1 hmF
  · -- a subnormal result sits on the least exponent, where `e'` and `e` meet when equal
    obtain ⟨hF'F, he''⟩ := hsub
    subst he''
    rw [hu]
    refine compare_finite_ne_lt hm hF' hb.2.1 fun he => Nat.le_trans hF'F (hmF ?_)
    have := hsc.1
    omega

/-- A finite double of plus sign at most one is `mr·2^er` with `mr ≤ 2^(-er)`. -/
theorem scale_le_one {mr : Nat} {er : Int} {hmr : 0 < mr} (hmr53 : mr < 2 ^ 53)
    (h1 : UnpackedFloat.le (.finite .positive mr er hmr) (.finite .positive (2 ^ 52) (-52) (by decide))) :
    er ≤ 0 ∧ mr ≤ 2 ^ (-er).toNat := by
  simp only [UnpackedFloat.le, UnpackedFloat.compare, Option.any_some] at h1
  rcases Int.lt_trichotomy er (-52) with hlt | rfl | hgt
  · -- below `2^-52` a mantissa under `2^53` is under `2^(-er)`
    refine ⟨by omega, Nat.le_of_lt (Nat.lt_of_lt_of_le hmr53 (Nat.pow_le_pow_right (by decide) ?_))⟩
    omega
  · have : compare mr (2 ^ 52) ≠ .gt := fun hgt => by
      rw [hgt] at h1
      exact absurd h1 (by decide)
    exact ⟨by decide, by rw [ne_eq, Nat.compare_eq_gt] at this; simpa using this⟩
  · have : compare er (-52) = .gt := Int.compare_eq_gt.2 hgt
    simp [this, Ordering.then] at h1

theorem lt_iff_unpacked (a b : Float) :
    a < b ↔ UnpackedFloat.lt a.toModel.unpack b.toModel.unpack = true := by
  show decide (a.toModel < b.toModel) = true ↔ _
  rw [decide_eq_true_eq]; rfl

theorem le_iff_unpacked (a b : Float) :
    a ≤ b ↔ UnpackedFloat.le a.toModel.unpack b.toModel.unpack = true := by
  show decide (a.toModel ≤ b.toModel) = true ↔ _
  rw [decide_eq_true_eq]; rfl

/-- On the bits of two doubles: the first, of plus sign, does not compare below its product with
the second, a ratio in `[0, 1]`, rounded, packed and unpacked. A zero ratio gives a zero, or a NaN
against an infinity; a finite ratio `mr·2^er` has `mr ≤ 2^(-er)` and scales the mantissa down. -/
theorem compare_mul_ne_lt {a b : BitVec 64}
    (ha : unpackedPlus (UnpackedFloat.unpack .binary64 a) = true)
    (h0 : UnpackedFloat.le (.zero .positive) (UnpackedFloat.unpack .binary64 b) = true)
    (h1 : UnpackedFloat.le (UnpackedFloat.unpack .binary64 b)
      (.finite .positive (2 ^ 52) (-52) (by decide)) = true) :
    UnpackedFloat.compare (UnpackedFloat.unpack .binary64 a)
      (UnpackedFloat.unpack .binary64 (UnpackedFloat.pack .binary64 (UnpackedFloat.mul .binary64
        (UnpackedFloat.unpack .binary64 b) (UnpackedFloat.unpack .binary64 a)))) ≠ some .lt := by
  have hab : ∀ s m e hm, UnpackedFloat.unpack .binary64 a = .finite s m e hm →
      m < 2 ^ 53 ∧ -1074 ≤ e ∧ e ≤ 971 :=
    fun _ _ _ _ h => unpack_finite_bounds h
  have hbb : ∀ s m e hm, UnpackedFloat.unpack .binary64 b = .finite s m e hm →
      m < 2 ^ 53 ∧ -1074 ≤ e ∧ e ≤ 971 :=
    fun _ _ _ _ h => unpack_finite_bounds h
  generalize UnpackedFloat.unpack .binary64 a = u at ha hab
  generalize UnpackedFloat.unpack .binary64 b = v at h0 h1 hbb
  cases v with
  | notANumber => simp [UnpackedFloat.le, UnpackedFloat.compare] at h0
  | infinity s => cases s <;> simp [UnpackedFloat.le, UnpackedFloat.compare] at h0 h1
  | zero s =>
    -- the product is a zero, or a NaN when `u` is infinite
    cases u with
    | notANumber => simp [UnpackedFloat.compare]
    | infinity t => simp [UnpackedFloat.mul, unpack_pack_notANumber, UnpackedFloat.compare]
    | zero t => simp [UnpackedFloat.mul, unpack_pack_zero, UnpackedFloat.compare]
    | finite t m e hm =>
      cases t
      · simp at ha
      · simp [UnpackedFloat.mul, unpack_pack_zero, UnpackedFloat.compare]
  | finite s mr er hmr =>
    cases s
    · simp [UnpackedFloat.le, UnpackedFloat.compare] at h0
    obtain ⟨hmr53, -, -⟩ := hbb _ _ _ _ rfl
    have hr := scale_le_one hmr53 h1
    cases u with
    | notANumber => simp [UnpackedFloat.compare]
    | infinity t =>
      cases t
      · simp at ha
      · simp [UnpackedFloat.mul, unpack_pack_infinity, UnpackedFloat.compare]
    | zero t => simp [UnpackedFloat.mul, unpack_pack_zero, UnpackedFloat.compare]
    | finite t m e hm =>
      cases t
      · simp at ha
      · simp only [UnpackedFloat.mul, positive_mul_positive]
        refine compare_round_ne_lt hm (hab _ _ _ _ rfl) ⟨by omega, ?_⟩
        rw [show e - (er + e) = -er by omega, Nat.mul_comm m]
        exact Nat.mul_le_mul_right m hr.2

/-- A double of plus sign is never below itself scaled by a ratio in `[0, 1]`: the exact product
is at most the double, and rounding to nearest does not carry it past a double above it. -/
theorem not_lt_mul_self {x r : Float} (hx : x.PlusSigned) (h0 : 0 ≤ r) (h1 : r ≤ 1) :
    ¬ x < r * x := by
  have hzero : (0 : Float).toModel.unpack = .zero .positive := rfl
  have hone : (1 : Float).toModel.unpack = .finite .positive (2 ^ 52) (-52) (by decide) := rfl
  rw [le_iff_unpacked, hzero] at h0
  rw [le_iff_unpacked, hone] at h1
  rw [lt_iff_unpacked]
  change UnpackedFloat.lt x.toModel.unpack (UnpackedFloat.unpack .binary64 (UnpackedFloat.pack .binary64
    (UnpackedFloat.mul .binary64 r.toModel.unpack x.toModel.unpack))) ≠ true
  simp only [UnpackedFloat.lt, ne_eq, beq_iff_eq]
  exact compare_mul_ne_lt hx h0 h1

end Float
