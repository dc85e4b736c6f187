import Mathlib
import OverlapLayout.Seed.Hit
/-!
  Packed hits.

  A hit packs into the word `query · 2 ^ 32 + subject` (`toNat_pack`), and a word unpacks into
  its high and low halves (`unpack_query`, `unpack_subject`). So on pairs of 32-bit positions
  packing and unpacking are inverse bijections, and two packed hits compare as their query
  positions do, then as their subject positions do: the order of the words is the
  lexicographic order of the hits.

  * `toNat_pack`, `unpack_query`, `unpack_subject`: the word of a hit and the halves of a word.
  * `compare_mul_add`: `a · 2 ^ 32 + b` compares as `a`, then as `b`, when `b < 2 ^ 32`.
  * `pack_lexIso`: the two round trips and the order, as a whole.
-/

namespace OverlapLayout

namespace Hit

attribute [ext] Hit

/-- The word of a hit: the query position in the high half, the subject position in the low
one, each taken modulo `2 ^ 32`. -/
theorem toNat_pack (h : Hit) : (pack h).toNat = h.query % 2 ^ 32 * 2 ^ 32 + h.subject % 2 ^ 32 := by
  have hhigh : (h.query.toUInt64 <<< 32).toNat = h.query % 2 ^ 32 * 2 ^ 32 := by
    rw [UInt64.toNat_shiftLeft, Nat.toUInt64_eq, UInt64.toNat_ofNat', Nat.shiftLeft_eq]
    simp only [UInt64.reduceToNat, Nat.reduceMod]
    omega
  have hlow : (h.subject % 2 ^ 32).toUInt64.toNat = h.subject % 2 ^ 32 := by
    rw [Nat.toUInt64_eq, UInt64.toNat_ofNat']
    omega
  rw [pack, Nat.pow_eq, UInt64.toNat_or, hhigh, hlow, Nat.mul_comm, ← Nat.two_pow_add_eq_or_of_lt (Nat.mod_lt _ (by decide))]

theorem unpack_query (c : UInt64) : (unpack c).query = c.toNat / 2 ^ 32 := by
  simp [unpack, UInt64.toNat_shiftRight, Nat.shiftRight_eq_div_pow]

theorem unpack_subject (c : UInt64) : (unpack c).subject = c.toNat % 2 ^ 32 := by
  have h : (0xFFFFFFFF : UInt64).toNat = 2 ^ 32 - 1 := rfl
  simp only [unpack, UInt64.toNat_and, h, Nat.and_two_pow_sub_one_eq_mod]

/-- A hit comes back from its word with its positions taken modulo `2 ^ 32`. -/
theorem unpack_pack_mod (h : Hit) : unpack (pack h) = ⟨h.query % 2 ^ 32, h.subject % 2 ^ 32⟩ := by
  have hw := toNat_pack h
  have hs := Nat.mod_lt h.subject (show 0 < 2 ^ 32 by decide)
  refine Hit.ext ?_ ?_
  · rw [unpack_query, hw]
    dsimp only
    omega
  · rw [unpack_subject, hw]
    dsimp only
    omega

/-- A hit of 32-bit positions comes back from its word. -/
theorem unpack_pack {h : Hit} (hq : h.query < 2 ^ 32) (hs : h.subject < 2 ^ 32) : unpack (pack h) = h := by
  rw [unpack_pack_mod, Nat.mod_eq_of_lt hq, Nat.mod_eq_of_lt hs]

/-- A word comes back from its halves. -/
theorem pack_unpack (c : UInt64) : pack (unpack c) = c := by
  have hc := c.toNat_lt
  apply UInt64.toNat_inj.1
  rw [toNat_pack, unpack_query, unpack_subject]
  omega

theorem unpack_query_lt (c : UInt64) : (unpack c).query < 2 ^ 32 := by
  have hc := c.toNat_lt
  rw [unpack_query]
  omega

theorem unpack_subject_lt (c : UInt64) : (unpack c).subject < 2 ^ 32 :=
  (unpack_subject c) ▸ Nat.mod_lt _ (by decide)

/-- A number with a low half below `2 ^ 32` compares by its high half first. -/
theorem compare_mul_add {a b c d : Nat} (hb : b < 2 ^ 32) (hd : d < 2 ^ 32) :
    compare (a * 2 ^ 32 + b) (c * 2 ^ 32 + d) = (compare a c).then (compare b d) := by
  rw [Nat.compare_eq_ite_lt, Nat.compare_eq_ite_lt a c, Nat.compare_eq_ite_lt b d]
  by_cases hac : a < c
  · rw [if_pos (by omega), if_pos hac]
    rfl
  by_cases hca : c < a
  · rw [if_neg (by omega), if_pos (by omega), if_neg hac, if_pos hca]
    rfl
  · -- equal high halves: the low halves decide
    obtain rfl : a = c := by omega
    simp only [Nat.add_lt_add_iff_left, hac, if_false, Ordering.then]

/-- Packed hits of 32-bit positions compare by query position, then by subject position. -/
theorem compare_pack {h₁ h₂ : Hit} (hq₁ : h₁.query < 2 ^ 32) (hs₁ : h₁.subject < 2 ^ 32)
    (hq₂ : h₂.query < 2 ^ 32) (hs₂ : h₂.subject < 2 ^ 32) :
    compare (pack h₁) (pack h₂) = (compare h₁.query h₂.query).then (compare h₁.subject h₂.subject) := by
  rw [UInt64.compare_eq_toNat_compare_toNat, toNat_pack, toNat_pack, Nat.mod_eq_of_lt hq₁,
    Nat.mod_eq_of_lt hs₁, Nat.mod_eq_of_lt hq₂, Nat.mod_eq_of_lt hs₂]
  exact compare_mul_add hs₁ hs₂

/-- Packing is a bijection from pairs of 32-bit positions onto the words, with unpacking as
its inverse, and it orders the words as the pairs are ordered lexicographically. -/
theorem pack_lexIso :
    (∀ q s : UInt32, unpack (pack ⟨q.toNat, s.toNat⟩) = ⟨q.toNat, s.toNat⟩) ∧
      (∀ c : UInt64, (unpack c).query < 2 ^ 32 ∧ (unpack c).subject < 2 ^ 32 ∧ pack (unpack c) = c) ∧
      ∀ q₁ s₁ q₂ s₂ : UInt32, compare (pack ⟨q₁.toNat, s₁.toNat⟩) (pack ⟨q₂.toNat, s₂.toNat⟩) =
        (compare q₁ q₂).then (compare s₁ s₂) := by
  refine ⟨fun q s => unpack_pack q.toNat_lt s.toNat_lt,
    fun c => ⟨unpack_query_lt c, unpack_subject_lt c, pack_unpack c⟩, fun q₁ s₁ q₂ s₂ => ?_⟩
  rw [compare_pack q₁.toNat_lt s₁.toNat_lt q₂.toNat_lt s₂.toNat_lt,
    UInt32.compare_eq_toNat_compare_toNat, UInt32.compare_eq_toNat_compare_toNat]

end Hit

end OverlapLayout
