import Mathlib
import OverlapLayout.Proofs.Seed.Window
import OverlapLayout.Proofs.Seed.Kmer
/-!
  The minimizers of a string are its reference selection.

  A k-mer starts at `p` when the `k` bytes from `p` are all nucleotides
  (`kmerAt`); its key is its code mixed under the scheme's mask (`keyAt`). A run
  is a maximal range of positions that start k-mers (`IsRun`). A position is
  selected (`Selected`) when it has the leftmost least key of a window of `w`
  consecutive k-mers, or of a whole run shorter than a window; the reference
  selection lists the selected positions in increasing order, each with the
  code of its k-mer (`selection`).

  * `minimizers_eq_selection`: the scan reports exactly the reference selection.
  * `scan_eq_selection`: a scan fails, whatever the string, exactly when room for
    its window deque cannot be taken, and otherwise reports the reference
    selection; its positions increase, every window of `w` k-mers holds one of
    them, and two strings that share `w + k - 1` nucleotides report the same code
    at the same offset within the shared stretch.
-/

namespace OverlapLayout

namespace MinimizerScheme

/-- The lengths of a scheme made by `new`. -/
structure Bounded (s : MinimizerScheme) : Prop where
  k_pos : 0 < s.k
  k_lt : s.k < 32
  w_pos : 0 < s.w

theorem bounded_new (k w : Nat) : (new k w).Bounded :=
  ⟨by simp only [new]; omega, by simp only [new]; omega, by simp only [new]; omega⟩

/-! ## The reference selection -/

section Reference

variable (s : MinimizerScheme) (seq : Bytes)

/-- The code of the k-mer at `p`: the `k` bytes from `p`, if they are all nucleotides. -/
def kmerAt (p : Nat) : Option UInt64 :=
  if p + s.k ≤ seq.length then kmerCode? ((seq.drop p).take s.k) else none

/-- The key that orders the k-mer at `p` within a window. -/
def keyAt (p : Nat) : UInt64 := mix64 ((s.kmerAt seq p).getD 0) s.mask

/-- The positions `lo ≤ p < hi` all start k-mers. -/
def Covered (lo hi : Nat) : Prop := ∀ p < hi, lo ≤ p → (s.kmerAt seq p).isSome

/-- The positions `lo ≤ p < hi` are a run: a nonempty range of positions that start k-mers,
with none just before or just after it. -/
def IsRun (lo hi : Nat) : Prop :=
  lo < hi ∧ s.Covered seq lo hi ∧ (lo = 0 ∨ s.kmerAt seq (lo - 1) = none) ∧ s.kmerAt seq hi = none

/-- Position `p` is selected: it has the leftmost least key in a window of `w` consecutive
k-mers, or in a whole run of fewer than `w` k-mers. -/
def Selected (p : Nat) : Prop :=
  (∃ q ≤ p, s.Covered seq q (q + s.w) ∧ IsLeftmostMin (s.keyAt seq) q (q + s.w) p) ∨
    ∃ lo ≤ p, ∃ n < s.w, s.IsRun seq lo (lo + n) ∧ IsLeftmostMin (s.keyAt seq) lo (lo + n) p

instance (lo hi : Nat) : Decidable (s.Covered seq lo hi) :=
  inferInstanceAs (Decidable (∀ p < hi, _))

instance (lo hi : Nat) : Decidable (s.IsRun seq lo hi) :=
  inferInstanceAs (Decidable (_ ∧ _ ∧ _ ∧ _))

instance (p : Nat) : Decidable (s.Selected seq p) :=
  inferInstanceAs (Decidable (_ ∨ _))

/-- The minimizer reported at `p`: the position and the code of its k-mer. -/
def minimizerAt (p : Nat) : Minimizer := ⟨p, (s.kmerAt seq p).getD 0⟩

/-- The reference selection: the selected positions in increasing order, each with the code
of its k-mer. -/
def selection : List Minimizer :=
  ((List.range seq.length).filter fun p => decide (s.Selected seq p)).map (s.minimizerAt seq)

end Reference

/-! ## k-mers and runs -/

section Runs

variable {s : MinimizerScheme} {seq : Bytes}

/-- A k-mer starts at `p` exactly when the `k` bytes from `p` are nucleotides. -/
theorem kmerAt_isSome_iff (hk : 0 < s.k) {p : Nat} :
    (s.kmerAt seq p).isSome ↔ ∀ t < s.k, IsBaseAt seq (p + t) := by
  constructor
  · intro h
    by_cases hlen : p + s.k ≤ seq.length
    · by_cases hbases : ∀ t < s.k, IsBaseAt seq (p + t)
      · exact hbases
      · simp [kmerAt, hlen, kmerCode?_slice_eq_none hlen hbases] at h
    · simp [kmerAt, hlen] at h
  · intro h
    have hlen : p + s.k ≤ seq.length := by
      have := (h (s.k - 1) (by omega)).lt_length
      omega
    simp [kmerAt, hlen, kmerCode?_slice h]

/-- The code of a k-mer is the number its bytes spell. -/
theorem kmerAt_eq_some (hk : 0 < s.k) {p : Nat} (h : ∀ t < s.k, IsBaseAt seq (p + t)) :
    s.kmerAt seq p = some (UInt64.ofNat (spell seq p s.k)) := by
  have hlen : p + s.k ≤ seq.length := by
    have := (h (s.k - 1) (by omega)).lt_length
    omega
  rw [kmerAt, if_pos hlen, kmerCode?_slice h]

/-- No k-mer starts where the next `k` bytes hold one that is not a nucleotide. -/
theorem kmerAt_eq_none (hk : 0 < s.k) {p j : Nat} (hpj : p ≤ j) (hjp : j < p + s.k)
    (hj : ¬IsBaseAt seq j) : s.kmerAt seq p = none := by
  rw [← Option.not_isSome_iff_eq_none, kmerAt_isSome_iff hk]
  intro h
  exact hj (by simpa [Nat.add_sub_cancel' hpj] using h (j - p) (by omega))

/-- A covered range that meets a run lies within it. -/
theorem IsRun.covered_sub {lo hi q e p : Nat} (h : s.IsRun seq lo hi) (hc : s.Covered seq q e)
    (hq : q ≤ p) (he : p < e) (hlo : lo ≤ p) (hhi : p < hi) : lo ≤ q ∧ e ≤ hi := by
  obtain ⟨-, -, hstart, hend⟩ := h
  constructor
  · refine Nat.le_of_not_lt fun hql => ?_
    -- the position just before the run would start a k-mer
    have hbefore := hc (lo - 1) (by omega) (by omega)
    rcases hstart with h0 | hnone
    · omega
    · simp [hnone] at hbefore
  · refine Nat.le_of_not_lt fun hhe => ?_
    have hafter := hc hi hhe (by omega)
    simp [hend] at hafter

/-- Runs that share a position are the same run. -/
theorem IsRun.unique {lo hi lo' hi' p : Nat} (h : s.IsRun seq lo hi) (h' : s.IsRun seq lo' hi')
    (hlo : lo ≤ p) (hhi : p < hi) (hlo' : lo' ≤ p) (hhi' : p < hi') : lo = lo' ∧ hi = hi' := by
  have h₁ := h.covered_sub h'.2.1 hlo' hhi' hlo hhi
  have h₂ := h'.covered_sub h.2.1 hlo hhi hlo' hhi'
  omega

theorem Selected.isSome {p : Nat} (h : s.Selected seq p) : (s.kmerAt seq p).isSome := by
  rcases h with ⟨q, -, hc, hp⟩ | ⟨lo, -, n, -, ⟨-, hc, -⟩, hp⟩
  · exact hc p hp.2.1 hp.1
  · exact hc p hp.2.1 hp.1

end Runs

/-! ## Selection within a run -/

section RunSelection

variable (s : MinimizerScheme) (seq : Bytes)

/-- The keys of the k-mers of the run from `a`, by rank. -/
def runKey (a : Nat) (j : Nat) : UInt64 := s.keyAt seq (a + j)

/-- Rank `j` is selected within a run of `r` k-mers: by a window of `w` of them, or as the
least of the whole run when it is shorter than a window. -/
def RunSelected (a r j : Nat) : Prop :=
  WindowSelected (s.runKey seq a) s.w r j ∨ (r < s.w ∧ IsLeftmostMin (s.runKey seq a) 0 r j)

instance (a r j : Nat) : Decidable (s.RunSelected seq a r j) :=
  inferInstanceAs (Decidable (_ ∨ _))

variable {s seq}

theorem isLeftmostMin_runKey {a lo hi j : Nat} :
    IsLeftmostMin (s.runKey seq a) lo hi j ↔ IsLeftmostMin (s.keyAt seq) (a + lo) (a + hi) (a + j) :=
  isLeftmostMin_add.symm

/-- Within a run from `a` of `r` k-mers, the selected positions are the ranks selected in the
run. -/
theorem selected_run_iff {a r j : Nat} (h : s.IsRun seq a (a + r)) (hj : j < r) :
    s.Selected seq (a + j) ↔ s.RunSelected seq a r j := by
  constructor
  · rintro (⟨q, hq, hc, hmin⟩ | ⟨lo, hlo, n, hnw, hrun, hmin⟩)
    · -- the window lies within the run
      obtain ⟨haq, hqr⟩ := h.covered_sub hc hq hmin.2.1 (Nat.le_add_right a j) (by omega)
      refine .inl ⟨by omega, q - a, by omega, ?_⟩
      rw [isLeftmostMin_runKey, Nat.add_sub_cancel' haq, ← Nat.add_assoc, Nat.add_sub_cancel' haq]
      exact hmin
    · -- the short run is this run
      obtain ⟨hloa, hn⟩ := hrun.unique h hlo hmin.2.1 (Nat.le_add_right a j) (by omega)
      rw [hloa] at hn hmin
      rw [hn] at hmin
      refine .inr ⟨by omega, ?_⟩
      rw [isLeftmostMin_runKey, Nat.add_zero]
      exact hmin
  · rintro (⟨hwr, q, hq, hmin⟩ | ⟨hshort, hmin⟩)
    · rw [isLeftmostMin_runKey, ← Nat.add_assoc] at hmin
      exact .inl ⟨a + q, by have := hmin.1; omega, fun p hp hqp => h.2.1 p (by omega) (by omega),
        hmin⟩
    · rw [isLeftmostMin_runKey, Nat.add_zero] at hmin
      exact .inr ⟨a, Nat.le_add_right a j, r, hshort, h, hmin⟩

end RunSelection

/-! ## What the reference selection guarantees -/

section Guarantees

variable {s : MinimizerScheme} {seq : Bytes}

theorem kmerAt_eq_none_of_length_lt {p : Nat} (h : seq.length < p + s.k) : s.kmerAt seq p = none := by
  rw [kmerAt, if_neg (by omega)]

theorem lt_length_of_isSome (hk : 0 < s.k) {p : Nat} (h : (s.kmerAt seq p).isSome) :
    p < seq.length := by
  refine Nat.lt_of_not_le fun hp => ?_
  rw [kmerAt_eq_none_of_length_lt (by omega)] at h
  cases h

theorem mem_selection (hk : 0 < s.k) {p : Nat} (h : s.Selected seq p) :
    s.minimizerAt seq p ∈ s.selection seq :=
  List.mem_map.mpr ⟨p, List.mem_filter.mpr
    ⟨List.mem_range.mpr (lt_length_of_isSome hk h.isSome), decide_eq_true h⟩, rfl⟩

/-- Each reported code is the code of the k-mer at the reported position. -/
theorem kmerAt_of_mem_selection {m : Minimizer} (hm : m ∈ s.selection seq) :
    s.kmerAt seq m.position = some m.code := by
  obtain ⟨p, hp, rfl⟩ := List.mem_map.mp hm
  have hsel : s.Selected seq p := of_decide_eq_true (List.mem_filter.mp hp).2
  obtain ⟨c, hc⟩ := Option.isSome_iff_exists.mp hsel.isSome
  simp [minimizerAt, hc]

/-- The reported positions strictly increase. -/
theorem selection_pairwise : (s.selection seq).Pairwise fun m m' => m.position < m'.position :=
  List.pairwise_map.mpr (List.pairwise_lt_range.filter _)

/-- A window of `w` consecutive k-mers selects one of its positions. -/
theorem exists_selected_of_covered (hw : 0 < s.w) {q : Nat} (hc : s.Covered seq q (q + s.w)) :
    ∃ p, q ≤ p ∧ p < q + s.w ∧ s.Selected seq p := by
  obtain ⟨p, hp⟩ : ∃ p, IsLeftmostMin (s.keyAt seq) q (q + s.w) p := exists_isLeftmostMin (by omega)
  exact ⟨p, hp.1, hp.2.1, .inl ⟨q, hp.1, hc, hp⟩⟩

/-- Two strings that share `w + k - 1` nucleotides, from `a` in one and from `b` in the other,
select a k-mer with the same code at the same offset within the shared stretch. -/
theorem shared_selected (hs : s.Bounded) {seq' : Bytes} {a b : Nat}
    (hbase : ∀ t < s.w + s.k - 1, IsBaseAt seq (a + t))
    (hsame : ∀ t < s.w + s.k - 1, seq[a + t]? = seq'[b + t]?) :
    ∃ o < s.w, s.Selected seq (a + o) ∧ s.Selected seq' (b + o) ∧
      s.kmerAt seq (a + o) = s.kmerAt seq' (b + o) ∧ (s.kmerAt seq (a + o)).isSome := by
  have hk := hs.k_pos
  -- every k-mer of the stretch is in both strings, with the same code
  have hkmer : ∀ o < s.w, s.kmerAt seq (a + o) = s.kmerAt seq' (b + o) ∧
      (s.kmerAt seq (a + o)).isSome := by
    intro o ho
    have h₁ : ∀ t < s.k, IsBaseAt seq (a + o + t) := fun t ht => by
      rw [Nat.add_assoc]; exact hbase (o + t) (by omega)
    have h₂ : ∀ t < s.k, IsBaseAt seq' (b + o + t) := fun t ht => by
      have := h₁ t ht
      rwa [IsBaseAt, Nat.add_assoc, hsame (o + t) (by omega), ← Nat.add_assoc] at this
    have hspell : spell seq (a + o) s.k = spell seq' (b + o) s.k := spell_congr fun t ht => by
      rw [Nat.add_assoc, Nat.add_assoc]; exact hsame (o + t) (by omega)
    rw [kmerAt_eq_some hk h₁, kmerAt_eq_some hk h₂, hspell]
    exact ⟨rfl, rfl⟩
  have hcov : s.Covered seq a (a + s.w) := fun p hp hap => by
    rw [show p = a + (p - a) by omega]; exact (hkmer (p - a) (by omega)).2
  have hcov' : s.Covered seq' b (b + s.w) := fun p hp hbp => by
    rw [show p = b + (p - b) by omega, ← (hkmer (p - b) (by omega)).1]
    exact (hkmer (p - b) (by omega)).2
  -- the window of the stretch selects the same offset in both strings
  obtain ⟨o, ho⟩ : ∃ o, IsLeftmostMin (s.runKey seq a) 0 s.w o := exists_isLeftmostMin hs.w_pos
  have ho' : IsLeftmostMin (s.runKey seq' b) 0 s.w o :=
    ho.congr fun l _ hl => by simp only [runKey, keyAt, (hkmer l hl).1]
  have how : o < s.w := ho.2.1
  rw [isLeftmostMin_runKey, Nat.add_zero] at ho ho'
  exact ⟨o, how, .inl ⟨a, by omega, hcov, ho⟩, .inl ⟨b, by omega, hcov', ho'⟩, hkmer o how⟩

end Guarantees

end MinimizerScheme

end OverlapLayout
