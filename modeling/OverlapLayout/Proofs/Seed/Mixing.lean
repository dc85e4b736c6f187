import Mathlib
import OverlapLayout.Seed.Minimizer
import OverlapLayout.Proofs.Seed.Kmer
/-!
  The mixing of k-mer codes is a bijection of the words below its mask.

  With `mask = 2 ^ p - 1`, every step of `mix64` reads its word modulo `2 ^ p` and answers a
  word below `2 ^ p`: the first step is `x ↦ (2 ^ 21 - 1) x - 1`, the multiplying steps
  multiply by odd numbers, and those are invertible modulo `2 ^ p`; the xor steps
  `y ↦ y ^^^ (y >>> a)` are injective and keep a word below `2 ^ p`. So two words mix alike
  exactly when they agree below the mask.

  * `xorShift`, `addShifts`, `mix64_eq`: the steps of the mixing, named.
  * `xor_shiftRight_inj`: `y ↦ y ^^^ (y >>> a)` is injective for `0 < a`.
  * `mix64_eq_mix64_iff`: two words mix alike exactly when they agree modulo `2 ^ p`.
  * `mix64_bijOn_mask`: the mixing is a bijection of the words below `2 ^ p`, reads only the
    bits below the mask, and so never ties two different k-mer codes of a minimizer scheme.
-/

namespace OverlapLayout

/-! ## Words read modulo `2 ^ p` -/

section Residues

variable {p : Nat} {mask : UInt64}

theorem two_pow_dvd_two_pow_64 (hp : p ≤ 64) : 2 ^ p ∣ 2 ^ 64 := Nat.pow_dvd_pow 2 hp

theorem toNat_and_mask (hm : mask.toNat = 2 ^ p - 1) (x : UInt64) :
    (x &&& mask).toNat = x.toNat % 2 ^ p := by
  rw [UInt64.toNat_and, hm, Nat.and_two_pow_sub_one_eq_mod]

theorem toNat_add_mod (hp : p ≤ 64) (x y : UInt64) :
    (x + y).toNat % 2 ^ p = (x.toNat + y.toNat) % 2 ^ p := by
  rw [UInt64.toNat_add, Nat.mod_mod_of_dvd _ (two_pow_dvd_two_pow_64 hp)]

theorem toNat_shiftLeft_mod (hp : p ≤ 64) {a : UInt64} (ha : a.toNat < 64) (x : UInt64) :
    (x <<< a).toNat % 2 ^ p = x.toNat * 2 ^ a.toNat % 2 ^ p := by
  rw [UInt64.toNat_shiftLeft, Nat.mod_eq_of_lt ha, Nat.mod_mod_of_dvd _ (two_pow_dvd_two_pow_64 hp),
    Nat.shiftLeft_eq]

/-- Multiplying by an odd number is injective modulo `2 ^ p`. -/
theorem mod_eq_of_mul_odd {c x y : Nat} (hc : c % 2 = 1) (h : x * c % 2 ^ p = y * c % 2 ^ p) :
    x % 2 ^ p = y % 2 ^ p := by
  have htwo : Nat.Coprime 2 c := by rw [Nat.Coprime, Nat.gcd_rec, hc, Nat.gcd_one_left]
  have hcop : Nat.gcd (2 ^ p) c = 1 := Nat.Coprime.pow_left p htwo
  exact Nat.ModEq.cancel_right_of_coprime hcop h

end Residues

/-! ## The xor steps -/

/-- `y ↦ y ^^^ (y >>> a)` is injective when it shifts at all: the shifted copy is determined
by the result shifted, by induction on the word. -/
theorem xor_shiftRight_inj {a : Nat} (ha : 0 < a) (x : Nat) :
    ∀ y, x ^^^ (x >>> a) = y ^^^ (y >>> a) → x = y := by
  induction x using Nat.strong_induction_on with
  | _ x ih =>
    intro y h
    -- the result shifted right is the same step applied to the shifted words
    have hshift : (x >>> a) ^^^ (x >>> a >>> a) = (y >>> a) ^^^ (y >>> a >>> a) := by
      rw [← Nat.shiftRight_xor_distrib, h, Nat.shiftRight_xor_distrib]
    have hlt : ∀ z : Nat, 0 < z → z >>> a < z := fun z hz => by
      rw [Nat.shiftRight_eq_div_pow]
      exact Nat.div_lt_self hz (Nat.one_lt_two_pow (Nat.pos_iff_ne_zero.1 ha))
    have hsame : x >>> a = y >>> a := by
      rcases Nat.eq_zero_or_pos x with rfl | hx
      · -- from `0 = y ^^^ (y >>> a)` the word `y` equals its own shift, so it is zero
        have hy : y = y >>> a := by
          calc y = (y ^^^ (y >>> a)) ^^^ (y >>> a) := (Nat.xor_xor_cancel_right _ _).symm
            _ = y >>> a := by rw [← h, Nat.zero_shiftRight, Nat.xor_self, Nat.zero_xor]
        rcases Nat.eq_zero_or_pos y with rfl | hy'
        · rfl
        · exact absurd hy (Nat.ne_of_gt (hlt y hy'))
      · exact ih _ (hlt x hx) _ hshift
    calc x = (x ^^^ (x >>> a)) ^^^ (x >>> a) := (Nat.xor_xor_cancel_right _ _).symm
      _ = (y ^^^ (y >>> a)) ^^^ (y >>> a) := by rw [h, hsame]
      _ = y := Nat.xor_xor_cancel_right _ _

/-- A word with a copy of itself shifted right by `a` xored in. -/
def xorShift (a y : UInt64) : UInt64 := y ^^^ (y >>> a)

theorem toNat_xorShift {a : UInt64} (ha : a.toNat < 64) (y : UInt64) :
    (xorShift a y).toNat = y.toNat ^^^ (y.toNat >>> a.toNat) := by
  rw [xorShift, UInt64.toNat_xor, UInt64.toNat_shiftRight, Nat.mod_eq_of_lt ha]

theorem xorShift_inj {a : UInt64} (ha : 0 < a.toNat) (ha' : a.toNat < 64) {y z : UInt64}
    (h : xorShift a y = xorShift a z) : y = z := by
  have h' := congrArg UInt64.toNat h
  rw [toNat_xorShift ha', toNat_xorShift ha'] at h'
  exact UInt64.toNat_inj.1 (xor_shiftRight_inj ha _ _ h')

theorem toNat_xorShift_lt {p : Nat} {a : UInt64} (ha : a.toNat < 64) {y : UInt64}
    (hy : y.toNat < 2 ^ p) : (xorShift a y).toNat < 2 ^ p := by
  rw [toNat_xorShift ha]
  exact Nat.xor_lt_two_pow hy (lt_of_le_of_lt (Nat.shiftRight_le _ _) hy)

/-! ## The multiplying steps -/

/-- A word plus copies of itself shifted left by each of `shifts`, kept below the mask. -/
def addShifts (mask : UInt64) (shifts : List UInt64) (y : UInt64) : UInt64 :=
  shifts.foldl (fun acc a => acc + (y <<< a)) y &&& mask

/-- The sum of a word and its shifted copies is the word times one plus the powers of two. -/
theorem toNat_foldl_shifts_mod {p : Nat} (hp : p ≤ 64) (y : UInt64) (shifts : List UInt64)
    (hs : ∀ a ∈ shifts, a.toNat < 64) :
    ∀ acc : UInt64, (shifts.foldl (fun acc a => acc + (y <<< a)) acc).toNat % 2 ^ p =
      (acc.toNat + y.toNat * (shifts.map fun a => 2 ^ a.toNat).sum) % 2 ^ p := by
  induction shifts with
  | nil => intro acc; simp
  | cons a shifts ih =>
    intro acc
    rw [List.foldl_cons, ih (fun b hb => hs b (List.mem_cons_of_mem a hb)), Nat.add_mod,
      toNat_add_mod hp, Nat.add_mod acc.toNat, toNat_shiftLeft_mod hp (hs a List.mem_cons_self)]
    simp only [List.map_cons, List.sum_cons, Nat.mul_add, ← Nat.add_mod, Nat.add_assoc]

theorem toNat_addShifts {p : Nat} (hp : p ≤ 64) {mask : UInt64} (hm : mask.toNat = 2 ^ p - 1)
    (shifts : List UInt64) (hs : ∀ a ∈ shifts, a.toNat < 64) (y : UInt64) :
    (addShifts mask shifts y).toNat = y.toNat * (1 + (shifts.map fun a => 2 ^ a.toNat).sum) % 2 ^ p := by
  rw [addShifts, toNat_and_mask hm, toNat_foldl_shifts_mod hp y shifts hs, Nat.mul_add, Nat.mul_one]

/-- A multiplying step by an odd number is injective on the words below `2 ^ p`. -/
theorem addShifts_inj {p : Nat} (hp : p ≤ 64) {mask : UInt64} (hm : mask.toNat = 2 ^ p - 1)
    {shifts : List UInt64} (hs : ∀ a ∈ shifts, a.toNat < 64)
    (hodd : (1 + (shifts.map fun a => 2 ^ a.toNat).sum) % 2 = 1) {y z : UInt64}
    (hy : y.toNat < 2 ^ p) (hz : z.toNat < 2 ^ p) (h : addShifts mask shifts y = addShifts mask shifts z) :
    y = z := by
  have h' := congrArg UInt64.toNat h
  rw [toNat_addShifts hp hm shifts hs, toNat_addShifts hp hm shifts hs] at h'
  have := mod_eq_of_mul_odd hodd h'
  rw [Nat.mod_eq_of_lt hy, Nat.mod_eq_of_lt hz] at this
  exact UInt64.toNat_inj.1 this

theorem toNat_addShifts_lt {p : Nat} {mask : UInt64} (hm : mask.toNat = 2 ^ p - 1)
    (shifts : List UInt64) (y : UInt64) : (addShifts mask shifts y).toNat < 2 ^ p := by
  rw [addShifts, toNat_and_mask hm]
  exact Nat.mod_lt _ (Nat.two_pow_pos p)

/-! ## The first step -/

/-- The first step: `x ↦ -1 - x + 2 ^ 21 x`, read modulo `2 ^ p`. -/
theorem toNat_first_step {p : Nat} (hp : p ≤ 64) {mask : UInt64} (hm : mask.toNat = 2 ^ p - 1)
    (x : UInt64) :
    ((~~~x + (x <<< 21)) &&& mask).toNat = (2 ^ 64 - 1 + x.toNat * (2 ^ 21 - 1)) % 2 ^ p := by
  have hx := x.toNat_lt
  have h21 : (21 : UInt64).toNat = 21 := rfl
  rw [toNat_and_mask hm, toNat_add_mod hp, Nat.add_mod, toNat_shiftLeft_mod hp (by decide),
    UInt64.toNat_not, ← Nat.add_mod, h21]
  congr 1
  simp only [UInt64.size]
  omega

/-! ## The whole mixing -/

/-- The mixing as its seven steps. -/
theorem mix64_eq (key mask : UInt64) :
    mix64 key mask = addShifts mask [31] (xorShift 28 (addShifts mask [2, 4]
      (xorShift 14 (addShifts mask [3, 8] (xorShift 24 ((~~~key + (key <<< 21)) &&& mask)))))) :=
  rfl

section Mask

variable {p : Nat} (hp : p ≤ 64) {mask : UInt64} (hm : mask.toNat = 2 ^ p - 1)
include hp hm

/-- Two words mix alike exactly when they agree below the mask. -/
theorem mix64_eq_mix64_iff (x y : UInt64) :
    mix64 x mask = mix64 y mask ↔ x.toNat % 2 ^ p = y.toNat % 2 ^ p := by
  have hfirst := toNat_first_step hp hm
  constructor
  · intro h
    rw [mix64_eq, mix64_eq] at h
    -- peel the steps from the last one back, each injective on the words below `2 ^ p`
    have hlt : ∀ w : UInt64, ((~~~w + (w <<< 21)) &&& mask).toNat < 2 ^ p := fun w => by
      rw [toNat_and_mask hm]; exact Nat.mod_lt _ (Nat.two_pow_pos p)
    have h7 := addShifts_inj hp hm (by simp) (by simp)
      (toNat_xorShift_lt (by decide) (toNat_addShifts_lt hm _ _))
      (toNat_xorShift_lt (by decide) (toNat_addShifts_lt hm _ _)) h
    have h5 := addShifts_inj hp hm (by simp) (by simp)
      (toNat_xorShift_lt (by decide) (toNat_addShifts_lt hm _ _))
      (toNat_xorShift_lt (by decide) (toNat_addShifts_lt hm _ _))
      (xorShift_inj (by decide) (by decide) h7)
    have h3 := addShifts_inj hp hm (by simp) (by simp)
      (toNat_xorShift_lt (by decide) (hlt x)) (toNat_xorShift_lt (by decide) (hlt y))
      (xorShift_inj (by decide) (by decide) h5)
    have h1 := congrArg UInt64.toNat (xorShift_inj (by decide) (by decide) h3)
    rw [hfirst, hfirst] at h1
    -- the first step multiplies by the odd number `2 ^ 21 - 1`
    exact mod_eq_of_mul_odd (by decide) (Nat.ModEq.add_left_cancel' _ h1)
  · intro h
    have h1 : (~~~x + (x <<< 21)) &&& mask = (~~~y + (y <<< 21)) &&& mask := by
      refine UInt64.toNat_inj.1 ?_
      rw [hfirst, hfirst]
      exact Nat.ModEq.add_left _ (Nat.ModEq.mul_right _ h)
    rw [mix64_eq, mix64_eq, h1]

end Mask

theorem toNat_mix64_lt {p : Nat} {mask : UInt64} (hm : mask.toNat = 2 ^ p - 1) (x : UInt64) :
    (mix64 x mask).toNat < 2 ^ p := by
  rw [mix64_eq]
  exact toNat_addShifts_lt hm _ _

theorem toNat_low_mask {p : Nat} (hp : p ≤ 64) : (2 ^ p - 1).toUInt64.toNat = 2 ^ p - 1 := by
  have : 2 ^ p ≤ 2 ^ 64 := Nat.pow_le_pow_right (by decide) hp
  rw [Nat.toUInt64_eq, UInt64.toNat_ofNat']
  exact Nat.mod_eq_of_lt (by omega)

theorem MinimizerScheme.toNat_mask_new (k w : Nat) :
    (MinimizerScheme.new k w).mask.toNat = 2 ^ (2 * (MinimizerScheme.new k w).k) - 1 := by
  have hk : (MinimizerScheme.new k w).k < 32 := by simp only [MinimizerScheme.new]; omega
  have hmask : (MinimizerScheme.new k w).mask = RollingKmer.mask (MinimizerScheme.new k w).k := by
    rw [MinimizerScheme.mask, RollingKmer.mask, if_neg (by omega)]
  rw [hmask, RollingKmer.toNat_mask hk, Nat.pow_mul]

/-- For every `p ≤ 64`, mixing under the mask `2 ^ p - 1` is a bijection of the words below
`2 ^ p` and reads only the bits below the mask; so under the mask `4 ^ k - 1` of a minimizer
scheme two different codes of k-mers never mix to the same key. -/
theorem mix64_bijOn_mask (p : Nat) (hp : p ≤ 64) :
    Set.BijOn (mix64 · (2 ^ p - 1).toUInt64) {x | x.toNat < 2 ^ p} {x | x.toNat < 2 ^ p} ∧
      (∀ x : UInt64,
        mix64 x (2 ^ p - 1).toUInt64 = mix64 (x &&& (2 ^ p - 1).toUInt64) (2 ^ p - 1).toUInt64) ∧
      ∀ (k w : Nat) (a b : UInt64), a.toNat < 4 ^ (MinimizerScheme.new k w).k →
        b.toNat < 4 ^ (MinimizerScheme.new k w).k → a ≠ b →
        mix64 a (MinimizerScheme.new k w).mask ≠ mix64 b (MinimizerScheme.new k w).mask := by
  have hm := toNat_low_mask hp
  refine ⟨?_, fun x => ?_, fun k w a b ha hb hab h => hab ?_⟩
  · have hmaps : Set.MapsTo (mix64 · (2 ^ p - 1).toUInt64) {x | x.toNat < 2 ^ p}
        {x | x.toNat < 2 ^ p} := fun x _ => toNat_mix64_lt hm x
    refine (Set.Finite.injOn_iff_bijOn_of_mapsTo (Set.toFinite _) hmaps).1 fun x hx y hy h => ?_
    have := (mix64_eq_mix64_iff hp hm x y).1 h
    rw [Nat.mod_eq_of_lt hx, Nat.mod_eq_of_lt hy] at this
    exact UInt64.toNat_inj.1 this
  · rw [mix64_eq_mix64_iff hp hm, toNat_and_mask hm, Nat.mod_mod]
  · -- the codes of k-mers are the words below `4 ^ k = 2 ^ (2 k)`
    have hk : 2 * (MinimizerScheme.new k w).k ≤ 64 := by simp only [MinimizerScheme.new]; omega
    have hpow : 4 ^ (MinimizerScheme.new k w).k = 2 ^ (2 * (MinimizerScheme.new k w).k) := by
      rw [Nat.pow_mul]
    rw [hpow] at ha hb
    have := (mix64_eq_mix64_iff hk (MinimizerScheme.toNat_mask_new k w) a b).1 h
    rw [Nat.mod_eq_of_lt ha, Nat.mod_eq_of_lt hb] at this
    exact UInt64.toNat_inj.1 this

/-- Under the mask of twelve bits the mixing permutes the words below `2 ^ 12`. -/
theorem mix64_bijOn_mask_twelve :
    12 ≤ 64 ∧
      (Set.BijOn (mix64 · (2 ^ 12 - 1).toUInt64) {x | x.toNat < 2 ^ 12} {x | x.toNat < 2 ^ 12} ∧
        (∀ x : UInt64, mix64 x (2 ^ 12 - 1).toUInt64 =
          mix64 (x &&& (2 ^ 12 - 1).toUInt64) (2 ^ 12 - 1).toUInt64) ∧
        ∀ (k w : Nat) (a b : UInt64), a.toNat < 4 ^ (MinimizerScheme.new k w).k →
          b.toNat < 4 ^ (MinimizerScheme.new k w).k → a ≠ b →
          mix64 a (MinimizerScheme.new k w).mask ≠ mix64 b (MinimizerScheme.new k w).mask) :=
  ⟨by decide, mix64_bijOn_mask 12 (by decide)⟩

end OverlapLayout
