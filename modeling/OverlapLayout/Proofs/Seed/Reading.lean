import Mathlib
import OverlapLayout.Proofs.Seed.Kmer
/-!
  The rolling reader over a whole byte string.

  Reading a string with the run emptied after the bytes at chosen indices, the
  read of a byte answers a code exactly when that byte ends an unbroken run of
  `k` nucleotides (`RunEndsAt`), and the code is then the code of those `k`
  bytes, in 64 bits (`RollingKmer.readAll_answers`).

  * `heldRun`: the length of the run the reader holds after a number of bytes;
    `le_heldRun_iff` says which bytes that run covers.
  * `spell_mod_min`: modulo `4 ^ min k 32`, a run spells what its last `k`
    bytes spell in 64 bits.
  * `RollingKmer.Holds`: after the first `m` bytes the reader holds that run
    and, in the bits its mask keeps, the number the run spells.
    `Holds.push` is the step, `Holds.readFrom` the run.
-/

namespace OverlapLayout

variable {seq : Bytes} {resetAfter : Nat → Bool}

/-- The `n` bytes that end with the one at `i` are nucleotides, read with no reset after any
of them but the last. -/
def RunEndsAt (seq : Bytes) (resetAfter : Nat → Bool) (i n : Nat) : Prop :=
  n ≤ i + 1 ∧ ∀ t < n, IsBaseAt seq (i - t) ∧ (0 < t → resetAfter (i - t) = false)

/-- The length of the run the reader holds after the first `m` bytes. -/
def heldRun (seq : Bytes) (resetAfter : Nat → Bool) : Nat → Nat
  | 0 => 0
  | m + 1 => if resetAfter m then 0 else if IsBaseAt seq m then heldRun seq resetAfter m + 1 else 0

/-- The run held after `m` bytes covers `n` bytes exactly when the `n` bytes before `m` are
nucleotides with no reset after any of them. -/
theorem le_heldRun_iff {m n : Nat} : n ≤ heldRun seq resetAfter m ↔
    n ≤ m ∧ ∀ t < n, IsBaseAt seq (m - 1 - t) ∧ resetAfter (m - 1 - t) = false := by
  induction m generalizing n with
  | zero =>
    simp only [heldRun, Nat.le_zero]
    constructor
    · rintro rfl
      exact ⟨rfl, fun t ht => absurd ht (Nat.not_lt_zero t)⟩
    · exact And.left
  | succ m ih =>
    cases n with
    | zero => exact iff_of_true (Nat.zero_le _) ⟨Nat.zero_le _, fun t ht => absurd ht (Nat.not_lt_zero t)⟩
    | succ n =>
      -- the byte at `m` is the first the run covers, going back
      have hsplit : (∀ t < n + 1, IsBaseAt seq (m + 1 - 1 - t) ∧ resetAfter (m + 1 - 1 - t) = false) ↔
          (IsBaseAt seq m ∧ resetAfter m = false) ∧
            ∀ t < n, IsBaseAt seq (m - 1 - t) ∧ resetAfter (m - 1 - t) = false := by
        constructor
        · intro h
          refine ⟨by simpa using h 0 (Nat.succ_pos n), fun t ht => ?_⟩
          have := h (t + 1) (by omega)
          rwa [show m + 1 - 1 - (t + 1) = m - 1 - t by omega] at this
        · rintro ⟨h0, h⟩ t ht
          cases t with
          | zero => simpa using h0
          | succ t =>
            rw [show m + 1 - 1 - (t + 1) = m - 1 - t by omega]
            exact h t (by omega)
      rw [hsplit, heldRun]
      by_cases hr : resetAfter m = true
      · simp [hr]
      · by_cases hb : IsBaseAt seq m
        · simp only [hr, hb, Bool.false_eq_true, ↓reduceIte, Nat.add_le_add_iff_right, ih,
            true_and]
        · simp [hr, hb]

/-- The run held after the bytes before `i`, with the byte at `i`, covers `k` bytes exactly when
they are an unbroken run. -/
theorem runEndsAt_iff {i k : Nat} (hb : IsBaseAt seq i) :
    RunEndsAt seq resetAfter i k ↔ k ≤ heldRun seq resetAfter i + 1 := by
  cases k with
  | zero => exact iff_of_true ⟨Nat.zero_le _, fun t ht => absurd ht (Nat.not_lt_zero t)⟩ (Nat.zero_le _)
  | succ n =>
    rw [Nat.add_le_add_iff_right, le_heldRun_iff, RunEndsAt]
    constructor
    · rintro ⟨hn, h⟩
      refine ⟨by omega, fun t ht => ?_⟩
      have := h (t + 1) (by omega)
      rw [show i - (t + 1) = i - 1 - t by omega] at this
      exact ⟨this.1, this.2 (Nat.succ_pos t)⟩
    · rintro ⟨hn, h⟩
      refine ⟨by omega, fun t ht => ?_⟩
      cases t with
      | zero => exact ⟨hb, fun h => absurd h (Nat.lt_irrefl 0)⟩
      | succ t =>
        rw [show i - (t + 1) = i - 1 - t by omega]
        exact ⟨(h t (by omega)).1, fun _ => (h t (by omega)).2⟩

/-- Every byte of an unbroken run is a nucleotide. -/
theorem RunEndsAt.isBaseAt {i k : Nat} (h : RunEndsAt seq resetAfter i k) :
    ∀ t < k, IsBaseAt seq (i + 1 - k + t) := by
  intro t ht
  have := (h.2 (k - 1 - t) (by omega)).1
  rwa [show i - (k - 1 - t) = i + 1 - k + t by have := h.1; omega] at this

/-- Modulo `4 ^ min k 32`, a stretch spells what its last `k` bytes spell in 64 bits. -/
theorem spell_mod_min (i a k : Nat) :
    spell seq i (a + k) % 4 ^ min k 32 = spell seq (i + a) k % 2 ^ 64 := by
  rw [← Nat.mod_mod_of_dvd _ (Nat.pow_dvd_pow 4 (Nat.min_le_left k 32)), spell_mod]
  rcases Nat.lt_or_ge k 32 with hk | hk
  · -- a run shorter than 32 fits the word
    have hlt : spell seq (i + a) k < 4 ^ k := spell_lt _ k
    have hword : 4 ^ k ≤ 2 ^ 64 := by
      rw [show (2 : Nat) ^ 64 = 4 ^ 32 by decide]
      exact Nat.pow_le_pow_right (by decide) (Nat.le_of_lt hk)
    rw [Nat.min_eq_left (Nat.le_of_lt hk), Nat.mod_eq_of_lt hlt, Nat.mod_eq_of_lt (by omega)]
  · have h32 : (4 : Nat) ^ 32 = 2 ^ 64 := by decide
    rw [Nat.min_eq_right hk, h32]

namespace RollingKmer

/-- What the read of the byte at `i` answers: the code of the `k` bytes ending there, once the
run held has them. -/
def answerAt (k : Nat) (seq : Bytes) (resetAfter : Nat → Bool) (i : Nat) : Option UInt64 :=
  if IsBaseAt seq i ∧ k ≤ heldRun seq resetAfter i + 1 then kmerCode? ((seq.drop (i + 1 - k)).take k)
  else none

/-- What the byte at `i` answers is a code exactly when the byte ends an unbroken run of `k`
nucleotides, and the code is the code of those `k` bytes. -/
theorem answerAt_eq_some {k i : Nat} {c : UInt64} :
    answerAt k seq resetAfter i = some c ↔ (IsBaseAt seq i ∧ RunEndsAt seq resetAfter i k) ∧
      kmerCode? ((seq.drop (i + 1 - k)).take k) = some c := by
  unfold answerAt
  by_cases hrun : IsBaseAt seq i ∧ RunEndsAt seq resetAfter i k
  · rw [if_pos ⟨hrun.1, (runEndsAt_iff hrun.1).1 hrun.2⟩]
    exact (and_iff_right hrun).symm
  · rw [if_neg fun h => hrun ⟨h.1, (runEndsAt_iff h.1).2 h.2⟩]
    exact iff_of_false (by simp) fun h => hrun h.1

/-- After the first `m` bytes the reader holds the run ending there and, in the bits its mask
keeps, the number that run spells. -/
structure Holds (seq : Bytes) (resetAfter : Nat → Bool) (m : Nat) (r : RollingKmer) : Prop where
  run_eq : r.run = heldRun seq resetAfter m
  code_eq : r.code.toNat = spell seq (m - heldRun seq resetAfter m) (heldRun seq resetAfter m) % 4 ^ min r.k 32

theorem push_k (r : RollingKmer) (b : UInt8) : (r.push b).2.k = r.k := by
  unfold push
  split <;> rfl

theorem holds_new (k : Nat) : Holds seq resetAfter 0 (new k) where
  run_eq := rfl
  code_eq := rfl

/-- An emptied reader holds the empty run that follows a byte that is no nucleotide, or a reset. -/
theorem holds_reset {m : Nat} {r : RollingKmer} (h : heldRun seq resetAfter (m + 1) = 0) :
    Holds seq resetAfter (m + 1) r.reset where
  run_eq := h.symm
  code_eq := by rw [h]; rfl

/-- One read: it answers `answerAt`, and the reader, emptied if the index says so, holds the run
after one more byte. -/
theorem Holds.push {m : Nat} {r : RollingKmer} (h : Holds seq resetAfter m r) (hm : m < seq.length) :
    (r.push seq[m]).1 = answerAt r.k seq resetAfter m ∧
      Holds seq resetAfter (m + 1)
        (if resetAfter m then (r.push seq[m]).2.reset else (r.push seq[m]).2) := by
  have hat : seq[m]? = some seq[m] := List.getElem?_eq_getElem hm
  cases hx : Base.ofByte? seq[m] with
  | none =>
    -- the byte is no nucleotide: no answer, and the run is emptied
    have hb : ¬IsBaseAt seq m := by simp [IsBaseAt, hat, hx]
    have hheld : heldRun seq resetAfter (m + 1) = 0 := by simp [heldRun, hb]
    rw [push_none hx]
    refine ⟨by simp [answerAt, hb], ?_⟩
    split
    · exact holds_reset hheld
    · exact holds_reset hheld
  | some x =>
    have hb : IsBaseAt seq m := by simp [IsBaseAt, hat, hx]
    obtain ⟨code, hcode, hpush⟩ := push_some_min (r := r) hx
    rw [hpush]
    have hle : heldRun seq resetAfter m ≤ m := (le_heldRun_iff.1 (Nat.le_refl _)).1
    -- the code now holds the run with the byte at `m` as its last digit
    have hspell : code.toNat = spell seq (m - heldRun seq resetAfter m) (heldRun seq resetAfter m + 1) %
        4 ^ min r.k 32 := by
      rw [hcode, h.code_eq, ← Nat.mod_add_mod, Nat.mul_mod_mod, Nat.mod_add_mod, spell, digitAt,
        show m - heldRun seq resetAfter m + heldRun seq resetAfter m = m by omega, hat]
      simp only [Option.bind_some, hx, Option.map_some, Option.getD_some]
      rw [Nat.mul_comm]
    refine ⟨?_, ?_⟩
    · simp only [answerAt, hb, true_and, h.run_eq]
      split
      · rename_i hk
        -- the answer is the code of the last `k` bytes
        have hrun : RunEndsAt seq resetAfter m r.k := (runEndsAt_iff hb).2 hk
        rw [kmerCode?_slice hrun.isBaseAt]
        congr 1
        apply UInt64.toNat.inj
        rw [hspell, UInt64.toNat_ofNat',
          show heldRun seq resetAfter m + 1 = (heldRun seq resetAfter m + 1 - r.k) + r.k by omega,
          spell_mod_min, show m - heldRun seq resetAfter m + (heldRun seq resetAfter m + 1 - r.k) =
            m + 1 - r.k by omega]
      · rfl
    · split
      · rename_i hr
        exact holds_reset (by simp [heldRun, hr])
      · rename_i hr
        have hheld : heldRun seq resetAfter (m + 1) = heldRun seq resetAfter m + 1 := by
          simp [heldRun, hr, hb]
        refine ⟨by rw [hheld, h.run_eq], ?_⟩
        rw [hheld, show m + 1 - (heldRun seq resetAfter m + 1) = m - heldRun seq resetAfter m by omega]
        exact hspell

theorem readFrom_cons_fst (r : RollingKmer) (i : Nat) (b : UInt8) (bs : Bytes) :
    (readFrom resetAfter r i (b :: bs)).1 = (r.push b).1 ::
      (readFrom resetAfter (if resetAfter i then (r.push b).2.reset else (r.push b).2) (i + 1) bs).1 :=
  rfl

/-- Reading on from `m`, the reads answer `answerAt` byte after byte. -/
theorem Holds.readFrom {m : Nat} {r : RollingKmer} (h : Holds seq resetAfter m r) :
    (readFrom resetAfter r m (seq.drop m)).1 =
      (List.range' m (seq.length - m)).map (answerAt r.k seq resetAfter) := by
  obtain ⟨n, hn⟩ : ∃ n, n = seq.length - m := ⟨_, rfl⟩
  induction n generalizing m r with
  | zero =>
    rw [List.drop_eq_nil_of_le (by omega), ← hn]
    rfl
  | succ n ih =>
    have hm : m < seq.length := by omega
    obtain ⟨hans, hnext⟩ := h.push hm
    have hk : (if resetAfter m then (r.push seq[m]).2.reset else (r.push seq[m]).2).k = r.k := by
      split <;> exact push_k r seq[m]
    rw [List.drop_eq_getElem_cons hm, readFrom_cons_fst, ← hn, List.range'_succ, List.map_cons, hans,
      ih hnext (by omega), hk, show seq.length - (m + 1) = n by omega]

theorem readAll_eq_map (k : Nat) (seq : Bytes) (resetAfter : Nat → Bool) :
    (readAll k seq resetAfter).1 = (List.range seq.length).map (answerAt k seq resetAfter) := by
  rw [List.range_eq_range']
  exact (@holds_new seq resetAfter k).readFrom

/-- The read of the byte at `i` answers a code exactly when that byte ends an unbroken run of
`k` nucleotides, and the code is then the code of those `k` bytes. -/
theorem readAll_answers (k : Nat) (seq : Bytes) (resetAfter : Nat → Bool) :
    (readAll k seq resetAfter).1.length = seq.length ∧
      (∀ i, (∃ c, (readAll k seq resetAfter).1[i]? = some (some c)) ↔
        IsBaseAt seq i ∧ RunEndsAt seq resetAfter i k) ∧
      ∀ i c, (readAll k seq resetAfter).1[i]? = some (some c) →
        kmerCode? ((seq.drop (i + 1 - k)).take k) = some c := by
  -- past the string there is neither a read nor a nucleotide
  have hat : ∀ i c, (readAll k seq resetAfter).1[i]? = some (some c) ↔
      answerAt k seq resetAfter i = some c := by
    intro i c
    rw [readAll_eq_map, List.getElem?_map]
    by_cases hi : i < seq.length
    · simp [List.getElem?_range hi]
    · have hb : ¬IsBaseAt seq i := fun hb => hi hb.lt_length
      rw [List.getElem?_eq_none (by simpa using hi)]
      simp [answerAt, hb]
  refine ⟨by simp [readAll_eq_map], fun i => ⟨?_, ?_⟩, fun i c h => ?_⟩
  · rintro ⟨c, hc⟩
    exact (answerAt_eq_some.1 ((hat i c).1 hc)).1
  · rintro ⟨hb, hrun⟩
    refine ⟨UInt64.ofNat (spell seq (i + 1 - k) k), (hat i _).2 (answerAt_eq_some.2 ⟨⟨hb, hrun⟩, ?_⟩)⟩
    exact kmerCode?_slice hrun.isBaseAt
  · exact (answerAt_eq_some.1 ((hat i c).1 h)).2

/-- Pairs from `ATCG` with the run emptied after `T`: `AT` is code 3, `C` starts a new run,
and `CG` is code 6. -/
example : (readAll 2 [65, 84, 67, 71] fun i => i == 1).1 = [none, some 3, none, some 6] := by
  decide

end RollingKmer

end OverlapLayout
