import Mathlib
import OverlapLayout.Proofs.Seed.Scan
/-!
  Reading k-mer codes back into nucleotides.

  A string of nucleotides is a base-4 number (`Base.value`, the first nucleotide most
  significant), and `Base.digits c k` are the `k` nucleotides that the last `k` base-4 digits
  of a code name, as `decodeKmer` reads them. The two are inverse on strings of at most 32
  nucleotides, the most a 64-bit code holds.

  * `Base.ofByte?_eq_some_iff`: a byte names a nucleotide when it is its upper-case letter or
    the lower-case one.
  * `kmerCode?_eq`: the code of a string is the number its nucleotides spell, in 64 bits.
  * `value_digits`, `digits_value`: reading the digits of a code gives the code modulo
    `4 ^ k`; the digits of a string's number are the string.
  * `kmerCode?_decodeKmer_inverse`: encoding and decoding as a whole.
-/

namespace OverlapLayout

/-- The bytes that name a nucleotide: the letters `A C G T` and `a c g t`. -/
def nucleotideBytes : List UInt8 := [65, 67, 71, 84, 97, 99, 103, 116]

namespace Base

theorem toNat_upperByte (b : UInt8) :
    (upperByte b).toNat = if 97 ≤ b.toNat ∧ b.toNat ≤ 122 then b.toNat - 32 else b.toNat := by
  unfold upperByte
  by_cases h : 97 ≤ b ∧ b ≤ 122
  · have h' : 97 ≤ b.toNat ∧ b.toNat ≤ 122 := h
    rw [if_pos h, if_pos h', UInt8.toNat_sub_of_le _ _ (by simpa [UInt8.le_iff_toNat_le] using (by omega : 32 ≤ b.toNat))]
    rfl
  · have h' : ¬(97 ≤ b.toNat ∧ b.toNat ≤ 122) := h
    rw [if_neg h, if_neg h']

theorem ofByte?_eq_some_iff_upper {b : UInt8} {x : Base} :
    ofByte? b = some x ↔ (upperByte b).toNat = x.toByte.toNat := by
  unfold ofByte?
  cases x <;> split <;> simp_all [toByte]

theorem ofByte?_eq_some_iff {b : UInt8} {x : Base} :
    ofByte? b = some x ↔ b = x.toByte ∨ b = x.toByte + 32 := by
  have hb := b.toNat_lt
  rw [ofByte?_eq_some_iff_upper, toNat_upperByte]
  cases x <;> simp [toByte, UInt8.ext_iff] <;> split_ifs <;> omega

theorem ofByte?_isSome_iff {b : UInt8} : (ofByte? b).isSome ↔ b ∈ nucleotideBytes := by
  simp only [Option.isSome_iff_exists, ofByte?_eq_some_iff, nucleotideBytes]
  constructor
  · rintro ⟨x, h | h⟩ <;> cases x <;> simp [h, toByte]
  · simp only [List.mem_cons, List.not_mem_nil, or_false]
    rintro (h | h | h | h | h | h | h | h)
    exacts [⟨.a, .inl h⟩, ⟨.c, .inl h⟩, ⟨.g, .inl h⟩, ⟨.t, .inl h⟩, ⟨.a, .inr h⟩, ⟨.c, .inr h⟩,
      ⟨.g, .inr h⟩, ⟨.t, .inr h⟩]

theorem upperByte_of_ofByte? {b : UInt8} {x : Base} (h : ofByte? b = some x) :
    upperByte b = x.toByte := by
  rcases ofByte?_eq_some_iff.mp h with rfl | rfl <;> cases x <;> rfl

@[simp] theorem ofByte?_toByte (x : Base) : ofByte? x.toByte = some x := by
  cases x <;> rfl

@[simp] theorem complement_complement (x : Base) : x.complement.complement = x := by
  cases x <;> rfl

theorem code_complement (x : Base) : x.complement.code.toNat = 3 - x.code.toNat := by
  cases x <;> rfl

theorem code_inj {x y : Base} (h : x.code.toNat = y.code.toNat) : x = y := by
  cases x <;> cases y <;> simp_all [code]

/-- The last two bits of a code are its last base-4 digit. -/
theorem toNat_and_three (c : UInt64) : (c &&& 3).toNat = c.toNat % 4 := by
  rw [UInt64.toNat_and, show (3 : UInt64).toNat = 2 ^ 2 - 1 from rfl, Nat.and_two_pow_sub_one_eq_mod]

theorem code_ofCode (c : UInt64) : (ofCode c).code.toNat = c.toNat % 4 := by
  unfold ofCode
  rw [toNat_and_three]
  have : c.toNat % 4 < 4 := Nat.mod_lt c.toNat (by decide)
  generalize c.toNat % 4 = n at this ⊢
  interval_cases n <;> rfl

/-! ## Strings of nucleotides as numbers -/

/-- The number a string of nucleotides spells in base 4, the first most significant. -/
def value : List Base → Nat
  | [] => 0
  | x :: xs => x.code.toNat * 4 ^ xs.length + value xs

theorem value_lt (xs : List Base) : value xs < 4 ^ xs.length := by
  induction xs with
  | nil => simp [value]
  | cons x xs ih =>
    have := Nat.mul_le_mul_right (4 ^ xs.length) (Nat.le_of_lt_succ x.code_lt)
    rw [value, List.length_cons, Nat.pow_succ]
    omega

theorem value_append_singleton (xs : List Base) (x : Base) :
    value (xs ++ [x]) = 4 * value xs + x.code.toNat := by
  induction xs with
  | nil => simp [value]
  | cons y xs ih =>
    rw [List.cons_append, value, ih, value, List.length_append, List.length_singleton, Nat.pow_succ]
    ring

theorem value_inj {xs ys : List Base} (hl : xs.length = ys.length) (h : value xs = value ys) :
    xs = ys := by
  induction xs generalizing ys with
  | nil => exact (List.length_eq_zero_iff.mp hl.symm).symm
  | cons x xs ih =>
    obtain _ | ⟨y, ys⟩ := ys
    · nomatch hl
    have hl : xs.length = ys.length := Nat.succ.inj hl
    have hx := value_lt xs
    have hy := value_lt ys
    rw [value, value, hl] at h
    rw [hl] at hx
    have hd : x.code.toNat = y.code.toNat := by
      have := congrArg (· / 4 ^ ys.length) h
      rwa [Nat.add_comm, Nat.add_mul_div_right _ _ (Nat.pow_pos (by decide)),
        Nat.div_eq_of_lt hx, Nat.add_comm (y.code.toNat * _),
        Nat.add_mul_div_right _ _ (Nat.pow_pos (by decide)), Nat.div_eq_of_lt hy,
        Nat.zero_add, Nat.zero_add] at this
    rw [code_inj hd, ih hl (by rw [hd] at h; omega)]

/-- The `k` nucleotides a code's last `k` base-4 digits name, the first most significant, as
`decodeKmer` reads them. -/
def digits (c : UInt64) (k : Nat) : List Base :=
  (List.range k).reverse.map fun i => ofCode (c >>> (2 * i).toUInt64)

@[simp] theorem length_digits (c : UInt64) (k : Nat) : (digits c k).length = k := by
  simp [digits]

theorem digits_succ (c : UInt64) (k : Nat) :
    digits c (k + 1) = ofCode (c >>> (2 * k).toUInt64) :: digits c k := by
  simp [digits, List.range_succ]

theorem toNat_shiftRight_two_mul (c : UInt64) {i : Nat} (hi : i < 32) :
    (c >>> (2 * i).toUInt64).toNat = c.toNat / 4 ^ i := by
  rw [UInt64.toNat_shiftRight, Nat.toUInt64_eq, UInt64.toNat_ofNat', Nat.shiftRight_eq_div_pow,
    Nat.mod_eq_of_lt (by omega : 2 * i < 2 ^ 64), Nat.mod_eq_of_lt (by omega : 2 * i < 64),
    Nat.pow_mul]

theorem value_digits (c : UInt64) {k : Nat} (hk : k ≤ 32) : value (digits c k) = c.toNat % 4 ^ k := by
  induction k with
  | zero => simp [digits, value, Nat.mod_one]
  | succ k ih =>
    rw [digits_succ, value, ih (by omega), code_ofCode, toNat_shiftRight_two_mul c (by omega),
      length_digits, Nat.mod_pow_succ, Nat.add_comm, Nat.mul_comm]

/-- A code of at most 32 nucleotides is the number they spell. -/
theorem toNat_ofNat_value {xs : List Base} (h : xs.length ≤ 32) :
    (UInt64.ofNat (value xs)).toNat = value xs := by
  rw [UInt64.toNat_ofNat', Nat.mod_eq_of_lt]
  exact Nat.lt_of_lt_of_le (value_lt xs)
    (by rw [show (2 : Nat) ^ 64 = 4 ^ 32 by rfl]; exact Nat.pow_le_pow_right (by decide) h)

theorem digits_value {xs : List Base} (h : xs.length ≤ 32) :
    digits (UInt64.ofNat (value xs)) xs.length = xs := by
  refine value_inj (length_digits _ _) ?_
  rw [value_digits _ h, toNat_ofNat_value h, Nat.mod_eq_of_lt (value_lt xs)]

end Base

open Base

/-! ## Reading bytes as nucleotides -/

theorem mapM_ofByte?_cons (b : UInt8) (s : Bytes) :
    (b :: s).mapM ofByte? = (ofByte? b).bind fun x => (s.mapM ofByte?).map (x :: ·) := by
  simp only [List.mapM_cons, Option.pure_def, Option.bind_eq_bind]
  cases ofByte? b with
  | none => rfl
  | some x => cases s.mapM ofByte? <;> rfl

theorem mapM_ofByte?_isSome_iff {s : Bytes} :
    (s.mapM ofByte?).isSome ↔ ∀ b ∈ s, b ∈ nucleotideBytes := by
  induction s with
  | nil => simp
  | cons b s ih =>
    rw [mapM_ofByte?_cons, List.forall_mem_cons, ← ih, ← ofByte?_isSome_iff]
    cases ofByte? b <;> simp

theorem mapM_ofByte?_eq_some {s : Bytes} {xs : List Base} (h : s.mapM ofByte? = some xs) :
    xs.length = s.length ∧ xs.map toByte = s.map upperByte := by
  induction s generalizing xs with
  | nil => simp_all
  | cons b s ih =>
    rw [mapM_ofByte?_cons] at h
    obtain ⟨x, hx, h⟩ := Option.bind_eq_some_iff.mp h
    obtain ⟨ys, hys, rfl⟩ := Option.map_eq_some_iff.mp h
    obtain ⟨hl, hm⟩ := ih hys
    simp [hl, hm, upperByte_of_ofByte? hx]

theorem mapM_ofByte?_map_toByte (xs : List Base) : (xs.map toByte).mapM ofByte? = some xs := by
  induction xs with
  | nil => rfl
  | cons x xs ih => simp [ih]

/-! ## Codes -/

/-- Shifting a digit `x` into a 64-bit word `a` and then `n` more digits of value `v` is the
same, modulo the word, as shifting them all at once. -/
theorem shift_digit_mod (a x n v : Nat) :
    ((4 * a + x) % 2 ^ 64 * 4 ^ n + v) % 2 ^ 64 = (a * 4 ^ (n + 1) + (x * 4 ^ n + v)) % 2 ^ 64 :=
  calc ((4 * a + x) % 2 ^ 64 * 4 ^ n + v) % 2 ^ 64
      = ((4 * a + x) * 4 ^ n + v) % 2 ^ 64 := ((Nat.mod_modEq _ _).mul_right _).add_right _
    _ = (a * 4 ^ (n + 1) + (x * 4 ^ n + v)) % 2 ^ 64 := by ring_nf

/-- Reading on from the code `c`: the code of the rest is the number the nucleotides of the
rest spell after those of `c`, in 64 bits. -/
theorem foldlM_code (s : Bytes) (c : UInt64) :
    s.foldlM (fun (code : UInt64) b => (ofByte? b).map fun x => (code <<< 2) ||| x.code) c =
      (s.mapM ofByte?).map fun xs => UInt64.ofNat (c.toNat * 4 ^ xs.length + value xs) := by
  induction s generalizing c with
  | nil => simp [value]
  | cons b s ih =>
    rw [List.foldlM_cons, mapM_ofByte?_cons]
    cases ofByte? b with
    | none => rfl
    | some x =>
      simp only [Option.map_some, Option.bind_eq_bind, Option.bind_some, Option.map_map, ih]
      congr 1
      funext xs
      simp only [Function.comp_apply, UInt64.ofNat_eq_iff_mod_eq_toNat, UInt64.toNat_ofNat',
        toNat_shiftLeft_or, List.length_cons, value, shift_digit_mod]

/-- The code of a string is the number its nucleotides spell, in 64 bits, and there is none
when a byte is not a nucleotide. -/
theorem kmerCode?_eq (s : Bytes) :
    kmerCode? s = (s.mapM ofByte?).map fun xs => UInt64.ofNat (value xs) := by
  unfold kmerCode?
  simpa using foldlM_code s 0

/-- Decoding in one piece: room for the `k` letters is taken first, and past 32 letters the
shift by the width fails. -/
theorem decodeKmer_eq (alloc : Allocator) (c : UInt64) (k : Nat) :
    decodeKmer alloc c k =
      if maxCollectionBytes 1 < k then .error .capacityOverflow
      else if k = 0 ∨ alloc.serves k = true then
        if k ≤ 32 then .ok ((digits c k).map toByte) else .error .shiftRightOverflow
      else .error (.allocationFailed k) := by
  unfold decodeKmer
  rw [allocate_eq, Nat.mul_one]
  split_ifs <;> simp [bind, Except.bind, pure, Except.pure, throw, throwThe, MonadExceptOf.throw, digits, *]

theorem decodeKmer_of_le (alloc : Allocator) (c : UInt64) {k : Nat} (hk : k ≤ 32)
    (hserve : alloc.serves k = true) : decodeKmer alloc c k = .ok ((digits c k).map toByte) := by
  have hmax : maxCollectionBytes 1 = 2 ^ 63 - 1 := by decide
  rw [decodeKmer_eq, if_neg (by omega), if_pos (.inr hserve), if_pos hk]

/-- A string of nucleotides has a code, whatever its length, exactly when every byte is one. -/
theorem kmerCode?_isSome_iff (s : Bytes) :
    (∃ c, kmerCode? s = some c) ↔ ∀ b ∈ s, b ∈ nucleotideBytes := by
  rw [← mapM_ofByte?_isSome_iff, kmerCode?_eq, ← Option.isSome_iff_exists, Option.isSome_map]

/-- The code of at most 32 nucleotides is below `4 ^ n` and reads back as the string in upper
case. -/
theorem decodeKmer_kmerCode? (alloc : Allocator) {s : Bytes} {c : UInt64} (hs : s.length ≤ 32)
    (hc : kmerCode? s = some c) :
    c.toNat < 4 ^ s.length ∧
      (alloc.serves s.length = true → decodeKmer alloc c s.length = .ok (s.map upperByte)) := by
  rw [kmerCode?_eq] at hc
  obtain ⟨xs, hxs, rfl⟩ := Option.map_eq_some_iff.mp hc
  obtain ⟨hl, hup⟩ := mapM_ofByte?_eq_some hxs
  rw [← hl] at hs ⊢
  refine ⟨(toNat_ofNat_value hs).symm ▸ value_lt xs, fun hserve => ?_⟩
  rw [decodeKmer_of_le alloc _ hs hserve, digits_value hs, hup]

/-- The letters of any code, `k ≤ 32` of them, have the code's last `k` digits as their code. -/
theorem kmerCode?_digits (c : UInt64) {k : Nat} (hk : k ≤ 32) :
    kmerCode? ((digits c k).map toByte) = some (UInt64.ofNat (c.toNat % 4 ^ k)) := by
  rw [kmerCode?_eq, mapM_ofByte?_map_toByte, Option.map_some, value_digits c hk]

/-- With the room for its letters served, decoding fails exactly past 32 letters. -/
theorem decodeKmer_error_iff (alloc : Allocator) (c : UInt64) {k : Nat}
    (hserve : alloc.serves k = true) : (∃ p, decodeKmer alloc c k = .error p) ↔ 32 < k := by
  rw [decodeKmer_eq]
  by_cases hk : k ≤ 32
  · have hmax : maxCollectionBytes 1 = 2 ^ 63 - 1 := by decide
    rw [if_neg (by omega), if_pos (.inr hserve), if_pos hk]
    simp only [reduceCtorEq, exists_false, false_iff]
    omega
  · refine iff_of_true ?_ (Nat.lt_of_not_le hk)
    split_ifs <;> exact ⟨_, rfl⟩

/-- Reading more than 32 letters fails as a shift by the width exactly when the room for them
fits a collection and is served. -/
theorem decodeKmer_eq_shiftRightOverflow_iff (alloc : Allocator) (c : UInt64) (k : Nat) :
    decodeKmer alloc c k = .error .shiftRightOverflow ↔
      32 < k ∧ k ≤ maxCollectionBytes 1 ∧ alloc.serves k = true := by
  rw [decodeKmer_eq]
  split_ifs with hmax hserve hk
  · simp only [Except.error.injEq, reduceCtorEq, false_iff, not_and]
    omega
  · simp only [false_iff, not_and]
    omega
  · -- past 32 letters a served room means a nonempty request
    simp only [true_iff]
    refine ⟨Nat.lt_of_not_le hk, Nat.le_of_not_lt hmax, ?_⟩
    rcases hserve with h | h
    · omega
    · exact h
  · simp only [Except.error.injEq, reduceCtorEq, false_iff, not_and]
    exact fun _ _ h => hserve (.inr h)

/-- Room for more letters than the largest collection overflows the capacity, whatever the
allocator. -/
theorem decodeKmer_of_overflow (alloc : Allocator) (c : UInt64) {k : Nat}
    (hk : maxCollectionBytes 1 < k) : decodeKmer alloc c k = .error .capacityOverflow := by
  rw [decodeKmer_eq, if_pos hk]

/-- Encoding and decoding k-mers: a string has a code exactly when every byte is a
nucleotide, and a code of at most 32 nucleotides is below `4 ^ n` and, once room for its
letters is served, decodes to the string in upper case; the `k ≤ 32` letters of any code
encode to the code modulo `4 ^ k`; with the room for `k` letters served, decoding fails
exactly for `k > 32`, and then as a shift by the width when the room fits a collection; a room
past the largest collection overflows the capacity whatever the allocator. -/
theorem kmerCode?_decodeKmer_inverse (alloc : Allocator) :
    (∀ s : Bytes, ((∃ c, kmerCode? s = some c) ↔ ∀ b ∈ s, b ∈ nucleotideBytes) ∧
      (s.length ≤ 32 → ∀ c, kmerCode? s = some c →
        c.toNat < 4 ^ s.length ∧
          (alloc.serves s.length = true → decodeKmer alloc c s.length = .ok (s.map upperByte)))) ∧
    (∀ (c : UInt64) (k : Nat), k ≤ 32 → alloc.serves k = true →
      ∃ s, decodeKmer alloc c k = .ok s ∧ kmerCode? s = some (UInt64.ofNat (c.toNat % 4 ^ k))) ∧
    (∀ (c : UInt64) (k : Nat), alloc.serves k = true → ((∃ p, decodeKmer alloc c k = .error p) ↔ 32 < k)) ∧
    (∀ (c : UInt64) (k : Nat),
      decodeKmer alloc c k = .error .shiftRightOverflow ↔
        32 < k ∧ k ≤ maxCollectionBytes 1 ∧ alloc.serves k = true) ∧
    (∀ (c : UInt64) (k : Nat), maxCollectionBytes 1 < k → decodeKmer alloc c k = .error .capacityOverflow) :=
  ⟨fun s => ⟨kmerCode?_isSome_iff s, fun hs _ hc => decodeKmer_kmerCode? alloc hs hc⟩,
    fun c _ hk hserve => ⟨_, decodeKmer_of_le alloc c hk hserve, kmerCode?_digits c hk⟩,
    fun c _ hserve => decodeKmer_error_iff alloc c hserve, decodeKmer_eq_shiftRightOverflow_iff alloc,
    fun c _ hk => decodeKmer_of_overflow alloc c hk⟩

/-- `GATTACA` encodes and decodes back, and the code of `T` read as 33 letters fails as a
shift, with an allocator that serves every request. -/
theorem kmerCode?_decodeKmer_gattaca :
    kmerCode? [71, 65, 84, 84, 65, 67, 65] = some 9156 ∧
      decodeKmer ⟨fun _ => true⟩ 9156 7 = .ok [71, 65, 84, 84, 65, 67, 65] ∧
      decodeKmer ⟨fun _ => true⟩ 3 33 = .error .shiftRightOverflow :=
  have h := kmerCode?_decodeKmer_inverse ⟨fun _ => true⟩
  have hc : kmerCode? [71, 65, 84, 84, 65, 67, 65] = some 9156 := by decide
  ⟨hc, ((h.1 _).2 (by decide) _ hc).2 rfl, (h.2.2.2.1 3 33).mpr ⟨by decide, by decide, rfl⟩⟩

/-- A huge count of letters fails before any shift, even with an allocator that serves every
request: the room for them overflows the capacity. -/
theorem decodeKmer_huge_overflows_capacity :
    32 < 2 ^ 63 ∧ decodeKmer ⟨fun _ => true⟩ 27 (2 ^ 63) = .error .capacityOverflow :=
  ⟨by decide, rfl⟩

end OverlapLayout
