import Mathlib
import OverlapLayout.Proofs.Seed.Codec
/-!
  Reverse complements, of byte strings and of codes.

  The reverse complement of a code reads its `k` letters from the last, each replaced by its
  pair; so does the reverse complement of a string, which keeps the bytes that name no
  nucleotide. The two agree on every string of at most 32 nucleotides, so the code of a
  string's reverse strand is computed from the code of the string alone.

  * `mapM_reverseComplement`: read as nucleotides, the reverse complement of a string is the
    reversed string of paired nucleotides.
  * `toNat_reverseComplementCode`: the reverse complement of a code is the number the paired
    letters of its digits spell, last first.
  * `reverseComplement_laws`: the two agree, both are involutions, and a string's second
    reverse complement is the string with its nucleotides in upper case.
-/

namespace OverlapLayout

open Base

/-- A byte with the lower-case letters `a c g t` raised to upper case, and any other byte kept. -/
def raiseNucleotide (b : UInt8) : UInt8 := if b ∈ [97, 99, 103, 116] then b - 32 else b

theorem ofByte?_complementByte (b : UInt8) :
    ofByte? (complementByte b) = (ofByte? b).map complement := by
  unfold complementByte
  cases h : ofByte? b <;> simp [h]

theorem complementByte_complementByte (b : UInt8) :
    complementByte (complementByte b) = raiseNucleotide b := by
  cases h : ofByte? b with
  | some x =>
    have hc : complementByte b = x.complement.toByte := by simp [complementByte, h]
    have hcc : complementByte x.complement.toByte = x.toByte := by
      simp [complementByte, ofByte?_toByte, complement_complement]
    rw [hc, hcc]
    rcases ofByte?_eq_some_iff.mp h with rfl | rfl <;> cases x <;> rfl
  | none =>
    have hb : b ∉ [97, 99, 103, 116] := by
      intro hb
      simp only [List.mem_cons, List.not_mem_nil, or_false] at hb
      rcases hb with rfl | rfl | rfl | rfl <;> nomatch h
    simp [complementByte, h, raiseNucleotide, hb]

theorem reverseComplement_cons (b : UInt8) (s : Bytes) :
    reverseComplement (b :: s) = reverseComplement s ++ [complementByte b] := by
  simp [reverseComplement]

theorem mapM_reverseComplement (s : Bytes) :
    (reverseComplement s).mapM ofByte? = (s.mapM ofByte?).map fun xs => xs.reverse.map complement := by
  induction s with
  | nil => rfl
  | cons b s ih =>
    rw [reverseComplement_cons, List.mapM_append, ih, mapM_ofByte?_cons, List.mapM_cons,
      List.mapM_nil, ofByte?_complementByte]
    cases ofByte? b with
    | none => cases s.mapM ofByte? <;> rfl
    | some x => cases s.mapM ofByte? <;> simp

/-! ## Codes -/

theorem toNat_shiftRight_two (c : UInt64) : (c >>> 2).toNat = c.toNat / 4 := by
  rw [UInt64.toNat_shiftRight, Nat.shiftRight_eq_div_pow]
  rfl

/-- The digits of a code are those of the code shifted two places, then its last digit. -/
theorem digits_succ_last (c : UInt64) {k : Nat} (hk : k < 32) :
    digits c (k + 1) = digits (c >>> 2) k ++ [ofCode c] := by
  refine value_inj (by simp) ?_
  rw [value_digits c (by omega), value_append_singleton, value_digits _ (by omega),
    toNat_shiftRight_two, code_ofCode, Nat.pow_succ', Nat.mod_mul]
  ring

/-- The complemented last digit of a code, as `reverseComplementCode` pushes it. -/
theorem complement_last_digit (c : UInt64) : 3 - (c &&& 3) = (ofCode c).complement.code := by
  apply UInt64.toNat.inj
  have hle : c &&& 3 ≤ 3 := by
    rw [UInt64.le_iff_toNat_le, toNat_and_three]
    exact Nat.le_of_lt_succ (Nat.mod_lt _ (by decide))
  rw [UInt64.toNat_sub_of_le _ _ hle, toNat_and_three, code_complement, code_ofCode]
  rfl

/-- `n` steps of `reverseComplementCode` push the paired letters of the last `n` digits of
`rest`, last first, after `acc`, in 64 bits. -/
theorem toNat_reverseComplementCode_go :
    ∀ (n : Nat) (rest acc : UInt64), n ≤ 32 →
      (reverseComplementCode.go n rest acc).toNat =
        (acc.toNat * 4 ^ n + value ((digits rest n).reverse.map complement)) % 2 ^ 64
  | 0, rest, acc, _ => by simp [reverseComplementCode.go, value, digits, Nat.mod_eq_of_lt acc.toNat_lt]
  | n + 1, rest, acc, hn => by
    rw [reverseComplementCode.go, toNat_reverseComplementCode_go n _ _ (by omega),
      complement_last_digit, toNat_shiftLeft_or, digits_succ_last rest (by omega), List.reverse_append,
      List.reverse_singleton, List.singleton_append, List.map_cons, value, List.length_map,
      List.length_reverse, length_digits, shift_digit_mod]

theorem toNat_reverseComplementCode (c : UInt64) {k : Nat} (hk : k ≤ 32) :
    (reverseComplementCode c k).toNat = value ((digits c k).reverse.map complement) := by
  have hlen : ((digits c k).reverse.map complement).length ≤ 32 := by simpa using hk
  rw [reverseComplementCode, Nat.min_eq_left (by omega), toNat_reverseComplementCode_go k c 0 hk,
    UInt64.toNat_zero, Nat.zero_mul, Nat.zero_add, ← toNat_ofNat_value hlen, UInt64.toNat_ofNat',
    Nat.mod_mod]

theorem reverseComplementCode_value {xs : List Base} (h : xs.length ≤ 32) :
    reverseComplementCode (UInt64.ofNat (value xs)) xs.length =
      UInt64.ofNat (value (xs.reverse.map complement)) := by
  apply UInt64.toNat.inj
  have hlen : (xs.reverse.map complement).length ≤ 32 := by simpa using h
  rw [toNat_reverseComplementCode _ h, digits_value h, toNat_ofNat_value hlen]

/-- Reverse complements of strings and of codes: on a string of at most 32 bytes, the code of
the reverse complement is the reverse complement of the code (and neither exists when a byte
is not a nucleotide); for `k ≤ 32` the reverse complement of codes below `4 ^ k` stays below
`4 ^ k` and undoes itself; and the second reverse complement of any string is the string with
`a c g t` in upper case. -/
theorem reverseComplement_laws :
    (∀ s : Bytes, s.length ≤ 32 →
      kmerCode? (reverseComplement s) = (kmerCode? s).map (reverseComplementCode · s.length)) ∧
    (∀ (k : Nat) (c : UInt64), k ≤ 32 → c.toNat < 4 ^ k →
      (reverseComplementCode c k).toNat < 4 ^ k ∧
        reverseComplementCode (reverseComplementCode c k) k = c) ∧
    (∀ s : Bytes, reverseComplement (reverseComplement s) = s.map raiseNucleotide) := by
  refine ⟨fun s hs => ?_, fun k c hk hc => ?_, fun s => ?_⟩
  · rw [kmerCode?_eq, kmerCode?_eq, mapM_reverseComplement, Option.map_map, Option.map_map]
    cases hxs : s.mapM ofByte? with
    | none => rfl
    | some xs =>
      have hl := (mapM_ofByte?_eq_some hxs).1
      simp only [Option.map_some, Function.comp_apply, ← hl]
      rw [reverseComplementCode_value (hl ▸ hs)]
  · obtain ⟨ys, hys, hlen⟩ : ∃ ys, ys = (digits c k).reverse.map complement ∧ ys.length = k :=
      ⟨_, rfl, by simp⟩
    have hrc : reverseComplementCode c k = UInt64.ofNat (value ys) := by
      apply UInt64.toNat.inj
      rw [toNat_reverseComplementCode c hk, ← hys, toNat_ofNat_value (by omega)]
    have hback : ys.reverse.map complement = digits c k := by
      simp [hys, List.map_reverse, Function.comp_def]
    refine ⟨?_, ?_⟩
    · rw [toNat_reverseComplementCode c hk, ← hys, ← hlen]
      exact value_lt ys
    · rw [hrc, ← hlen, reverseComplementCode_value (by omega), hback, value_digits c hk,
        Nat.mod_eq_of_lt hc, UInt64.ofNat_toNat]
  · simp [reverseComplement, List.map_reverse, Function.comp_def, complementByte_complementByte]

/-- `AACG` and its reverse complement `CGTT`, as codes: the laws at the sample of the tests. -/
theorem reverseComplement_laws_aacg :
    kmerCode? (reverseComplement [65, 65, 67, 71]) = some 111 ∧
      reverseComplementCode 6 4 = 111 ∧ reverseComplementCode 111 4 = 6 :=
  have h := reverseComplement_laws
  have h6 : kmerCode? [65, 65, 67, 71] = some 6 := by decide
  have hrc : reverseComplementCode 6 4 = 111 := by decide
  ⟨by rw [h.1 _ (by decide), h6]; exact congrArg some hrc, hrc,
    hrc ▸ (h.2.1 4 6 (by decide) (by decide)).2⟩

end OverlapLayout
