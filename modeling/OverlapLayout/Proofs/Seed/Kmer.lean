import Mathlib
import OverlapLayout.Seed.Rolling
/-!
  Codes of k-mers as base-4 numbers.

  `spell seq i n` is the number that the `n` bytes of `seq` from `i` spell in
  base 4 (A 0, C 1, G 2, T 3), the first byte most significant.

  * `kmerCode?_slice`, `kmerCode?_slice_eq_none`: the code of a stretch of
    bytes is the number it spells, and exists exactly when every byte of it is
    a nucleotide.
  * `spell_add`, `spell_mod`: a stretch splits into two; modulo `4 ^ n` only
    the last `n` bytes count.
  * `RollingKmer.push_some_min`: reading a nucleotide shifts its code into the
    reader's code, kept modulo `4 ^ min k 32`.
-/

namespace OverlapLayout

theorem Base.code_lt (x : Base) : x.code.toNat < 4 := by
  cases x <;> decide

/-- Shifting a code two places and filling the low bits with a nucleotide, in 64 bits. -/
theorem toNat_shiftLeft_or (c : UInt64) (x : Base) :
    ((c <<< 2) ||| x.code).toNat = (4 * c.toNat + x.code.toNat) % 2 ^ 64 := by
  have hx := x.code_lt
  have h₁ : c.toNat <<< 2 % 2 ^ 64 = (c.toNat % 2 ^ 62) <<< 2 := by
    simp only [Nat.shiftLeft_eq]
    omega
  rw [UInt64.toNat_or, UInt64.toNat_shiftLeft, show (2 : UInt64).toNat % 64 = 2 from rfl, h₁,
    ← Nat.shiftLeft_add_eq_or_of_lt (by omega), Nat.shiftLeft_eq]
  omega

/-! ## Numbers spelled by stretches of bytes -/

/-- The byte at `j` is a nucleotide (so `j` is within the string). -/
def IsBaseAt (seq : Bytes) (j : Nat) : Prop := (seq[j]?.bind Base.ofByte?).isSome

instance (seq : Bytes) (j : Nat) : Decidable (IsBaseAt seq j) :=
  inferInstanceAs (Decidable (_ = true))

theorem IsBaseAt.lt_length {seq : Bytes} {j : Nat} (h : IsBaseAt seq j) : j < seq.length := by
  refine Nat.lt_of_not_le fun hj => ?_
  simp [IsBaseAt, List.getElem?_eq_none hj] at h

/-- The code of the nucleotide at `j`, or 0 if there is none. -/
def digitAt (seq : Bytes) (j : Nat) : Nat :=
  ((seq[j]?.bind Base.ofByte?).map fun x => x.code.toNat).getD 0

/-- The number that the `n` bytes from `i` spell in base 4, the first most significant. -/
def spell (seq : Bytes) (i : Nat) : Nat → Nat
  | 0 => 0
  | n + 1 => spell seq i n * 4 + digitAt seq (i + n)

variable {seq : Bytes}

theorem digitAt_lt (j : Nat) : digitAt seq j < 4 := by
  unfold digitAt
  cases seq[j]?.bind Base.ofByte? with
  | none => decide
  | some x => exact x.code_lt

theorem spell_lt (i n : Nat) : spell seq i n < 4 ^ n := by
  induction n with
  | zero => simp [spell]
  | succ n ih =>
    have : digitAt seq (i + n) < 4 := digitAt_lt _
    rw [spell, Nat.pow_succ]
    omega

theorem spell_add (i m n : Nat) : spell seq i (m + n) = spell seq i m * 4 ^ n + spell seq (i + m) n := by
  induction n with
  | zero => simp [spell]
  | succ n ih =>
    rw [← Nat.add_assoc, spell, ih, spell, Nat.pow_succ, Nat.add_assoc i m n]
    simp only [Nat.add_mul, Nat.mul_assoc, Nat.add_assoc]

/-- Modulo `4 ^ n`, a stretch spells what its last `n` bytes spell. -/
theorem spell_mod (i m n : Nat) : spell seq i (m + n) % 4 ^ n = spell seq (i + m) n := by
  rw [spell_add, Nat.mul_comm, Nat.mul_add_mod, Nat.mod_eq_of_lt (spell_lt _ n)]

/-- Two strings that agree on a stretch spell the same number there. -/
theorem spell_congr {seq' : Bytes} {i i' n : Nat} (h : ∀ t < n, seq[i + t]? = seq'[i' + t]?) :
    spell seq i n = spell seq' i' n := by
  induction n with
  | zero => rfl
  | succ n ih =>
    rw [spell, spell, ih fun t ht => h t (by omega), digitAt, digitAt, h n (by omega)]

/-! ## Codes of stretches -/

/-- The code of a stretch of nucleotides is the number it spells, in 64 bits. -/
theorem kmerCode?_slice {p n : Nat} (h : ∀ t < n, IsBaseAt seq (p + t)) :
    kmerCode? ((seq.drop p).take n) = some (UInt64.ofNat (spell seq p n)) := by
  induction n with
  | zero => rfl
  | succ n ih =>
    obtain ⟨x, hx⟩ := Option.isSome_iff_exists.mp (h n (by omega))
    obtain ⟨b, hb, hbx⟩ := Option.bind_eq_some_iff.mp hx
    rw [List.take_add_one, List.getElem?_drop, hb, kmerCode?, List.foldlM_append, ← kmerCode?,
      ih fun t ht => h t (by omega)]
    simp only [Option.toList_some, List.foldlM_cons, List.foldlM_nil, Option.bind_eq_bind,
      Option.bind_some, hbx, Option.map_some, Option.pure_def, Option.some.injEq]
    apply UInt64.toNat.inj
    rw [toNat_shiftLeft_or, UInt64.toNat_ofNat', UInt64.toNat_ofNat', spell, digitAt, hx]
    simp only [Option.map_some, Option.getD_some]
    omega

/-- A stretch within the string that holds another byte has no code. -/
theorem kmerCode?_slice_eq_none {p n : Nat} (hp : p + n ≤ seq.length)
    (h : ¬∀ t < n, IsBaseAt seq (p + t)) : kmerCode? ((seq.drop p).take n) = none := by
  induction n with
  | zero => exact absurd (fun t ht => absurd ht (Nat.not_lt_zero t)) h
  | succ n ih =>
    have hpn : p + n < seq.length := by omega
    rw [List.take_add_one, List.getElem?_drop, List.getElem?_eq_getElem hpn, kmerCode?,
      List.foldlM_append, ← kmerCode?]
    by_cases hprefix : ∀ t < n, IsBaseAt seq (p + t)
    · -- the last byte is the one that is not a nucleotide
      have hlast : Base.ofByte? seq[p + n] = none := by
        have : ¬IsBaseAt seq (p + n) := fun hb =>
          h fun t ht => if htn : t < n then hprefix t htn else by rwa [show t = n by omega]
        simpa [IsBaseAt, List.getElem?_eq_getElem hpn] using this
      rw [kmerCode?_slice hprefix]
      simp [hlast]
    · rw [ih (by omega) hprefix]
      rfl

/-! ## The rolling reader -/

namespace RollingKmer

theorem toNat_mask {k : Nat} (hk : k < 32) : (mask k).toNat = 4 ^ k - 1 := by
  have h₁ : (2 * k).toUInt64.toNat % 64 = 2 * k := by
    rw [Nat.toUInt64_eq, UInt64.toNat_ofNat']
    omega
  have h₂ : 2 ^ (2 * k) < 2 ^ 64 := Nat.pow_lt_pow_right (by decide) (by omega)
  have hshift : ((1 : UInt64) <<< (2 * k).toUInt64).toNat = 4 ^ k := by
    rw [UInt64.toNat_shiftLeft, h₁, UInt64.toNat_one, Nat.one_shiftLeft, Nat.mod_eq_of_lt h₂,
      Nat.pow_mul]
  have hpos : 0 < 4 ^ k := Nat.pow_pos (by decide)
  rw [mask, if_neg (by omega), UInt64.toNat_sub_of_le _ _ (by
    rw [UInt64.le_iff_toNat_le, hshift, UInt64.toNat_one]; exact hpos), hshift, UInt64.toNat_one]

/-- From `k = 32` on the mask keeps the whole word, `4 ^ 32` values. -/
theorem toNat_mask_min (k : Nat) : (mask k).toNat = 4 ^ min k 32 - 1 := by
  rcases Nat.lt_or_ge k 32 with hk | hk
  · rw [toNat_mask hk, Nat.min_eq_left (Nat.le_of_lt hk)]
  · rw [mask, if_pos hk, Nat.min_eq_right hk]
    rfl

/-- Reading a nucleotide: the code takes it as its last digit, modulo `4 ^ min k 32`, the
run grows by one, and the code is returned once the run has `k` nucleotides. -/
theorem push_some_min {r : RollingKmer} {b : UInt8} {x : Base} (hx : Base.ofByte? b = some x) :
    ∃ code : UInt64, code.toNat = (4 * r.code.toNat + x.code.toNat) % 4 ^ min r.k 32 ∧
      r.push b = (if r.k ≤ r.run + 1 then some code else none, { r with code, run := r.run + 1 }) := by
  refine ⟨((r.code <<< 2) ||| x.code) &&& mask r.k, ?_, by simp only [push, hx]⟩
  have hmin : min r.k 32 ≤ 32 := Nat.min_le_right _ _
  have hdvd : 4 ^ min r.k 32 ∣ 2 ^ 64 :=
    ⟨4 ^ (32 - min r.k 32), by
      rw [← Nat.pow_add, show min r.k 32 + (32 - min r.k 32) = 32 by omega,
        show (2 : Nat) ^ 64 = 4 ^ 32 by decide]⟩
  have hpow : 4 ^ min r.k 32 = 2 ^ (2 * min r.k 32) := by rw [Nat.pow_mul]
  rw [UInt64.toNat_and, toNat_mask_min, toNat_shiftLeft_or, hpow, Nat.and_two_pow_sub_one_eq_mod,
    ← hpow, Nat.mod_mod_of_dvd _ hdvd]

/-- Below `k = 32`, the code is kept modulo `4 ^ k`. -/
theorem push_some {r : RollingKmer} {b : UInt8} {x : Base} (hk : r.k < 32)
    (hx : Base.ofByte? b = some x) :
    ∃ code : UInt64, code.toNat = (4 * r.code.toNat + x.code.toNat) % 4 ^ r.k ∧
      r.push b = (if r.k ≤ r.run + 1 then some code else none, { r with code, run := r.run + 1 }) := by
  obtain ⟨code, hcode, hpush⟩ := push_some_min (r := r) hx
  exact ⟨code, by rwa [Nat.min_eq_left (Nat.le_of_lt hk)] at hcode, hpush⟩

/-- Reading another byte empties the run. -/
theorem push_none {r : RollingKmer} {b : UInt8} (hx : Base.ofByte? b = none) :
    r.push b = (none, r.reset) := by
  simp only [push, hx]

end RollingKmer

end OverlapLayout
