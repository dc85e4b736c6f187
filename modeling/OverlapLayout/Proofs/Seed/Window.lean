import Mathlib
import OverlapLayout.Seed.Minimizer
/-!
  Least keys of sliding windows, and the deque that tracks them.

  The k-mers of a run are numbered by rank `0, 1, …`, each with a key. A window is
  a range `lo ≤ j < hi` of ranks and selects its leftmost rank of least key
  (`IsLeftmostMin`). After the first `r` ranks the scan keeps a deque of the ranks
  among the last `w` that no later rank undercuts (`keptRanks`).

  * `slide_keptRanks`: one step of the deque (drop the larger keys at the back,
    push the new rank, drop the expired ranks at the front) takes `keptRanks r`
    to `keptRanks (r + 1)`.
  * `head?_keptRanks`: the front of the deque is the selection of the window of
    the last `w` ranks.
  * `IsLeftmostMin.le_of_le`: a window further right selects a rank no further left.
  * `filter_windowSelected_succ`: the ranks selected by the windows within the
    first `r + 1` ranks are those within the first `r`, and the last window's.
-/

namespace OverlapLayout

namespace MinimizerScheme

/-! ## Leftmost least keys -/

section LeftmostMin

variable (key : Nat → UInt64)

/-- `j` is the leftmost rank of least key in the window `lo ≤ j < hi`. -/
def IsLeftmostMin (lo hi j : Nat) : Prop :=
  lo ≤ j ∧ j < hi ∧ (∀ l < j, lo ≤ l → key j < key l) ∧ ∀ l < hi, j ≤ l → key j ≤ key l

instance (lo hi j : Nat) : Decidable (IsLeftmostMin key lo hi j) :=
  inferInstanceAs (Decidable (_ ∧ _ ∧ _ ∧ _))

variable {key}

theorem IsLeftmostMin.unique {lo hi j j' : Nat} (h : IsLeftmostMin key lo hi j)
    (h' : IsLeftmostMin key lo hi j') : j = j' := by
  obtain ⟨hlo, hhi, hleft, hright⟩ := h
  obtain ⟨hlo', hhi', hleft', hright'⟩ := h'
  rcases Nat.lt_trichotomy j j' with hlt | heq | hgt
  · have h₁ := hleft' j hlt hlo
    have h₂ := hright j' hhi' (Nat.le_of_lt hlt)
    exact absurd (UInt64.lt_of_lt_of_le h₁ h₂) (UInt64.lt_irrefl _)
  · exact heq
  · have h₁ := hleft j' hgt hlo'
    have h₂ := hright' j hhi (Nat.le_of_lt hgt)
    exact absurd (UInt64.lt_of_lt_of_le h₁ h₂) (UInt64.lt_irrefl _)

theorem exists_isLeftmostMin {lo hi : Nat} (h : lo < hi) : ∃ j, IsLeftmostMin key lo hi j := by
  induction hi with
  | zero => omega
  | succ hi ih =>
    rcases Nat.lt_or_ge lo hi with hlo | hlo
    · obtain ⟨j, hjlo, hjhi, hleft, hright⟩ := ih hlo
      by_cases hnew : key hi < key j
      · refine ⟨hi, by omega, Nat.lt_succ_self _, fun l hl hl' => ?_, fun l hl hle => ?_⟩
        · rcases Nat.lt_or_ge l j with hlj | hjl
          · exact UInt64.lt_trans hnew (hleft l hlj hl')
          · exact UInt64.lt_of_lt_of_le hnew (hright l hl hjl)
        · rw [show l = hi by omega]; exact UInt64.le_refl _
      · refine ⟨j, hjlo, by omega, hleft, fun l hl hle => ?_⟩
        rcases Nat.lt_or_ge l hi with hlh | hlh
        · exact hright l hlh hle
        · rw [show l = hi by omega]; exact UInt64.not_lt.mp hnew
    · -- the window holds the single rank `lo`
      refine ⟨lo, Nat.le_refl _, by omega, fun l hl hlo' => absurd hlo' (by omega), fun l hl hle => ?_⟩
      rw [show l = lo by omega]; exact UInt64.le_refl _

/-- A window further right selects a rank no further left. -/
theorem IsLeftmostMin.le_of_le {lo hi lo' hi' j j' : Nat} (h : IsLeftmostMin key lo hi j)
    (h' : IsLeftmostMin key lo' hi' j') (hlo : lo ≤ lo') (hhi : hi ≤ hi') : j ≤ j' := by
  obtain ⟨hjlo, hjhi, hleft, -⟩ := h
  obtain ⟨hjlo', -, -, hright'⟩ := h'
  refine Nat.le_of_not_lt fun hlt => ?_
  have h₁ := hleft j' hlt (Nat.le_trans hlo hjlo')
  have h₂ := hright' j (Nat.lt_of_lt_of_le hjhi hhi) (Nat.le_of_lt hlt)
  exact absurd (UInt64.lt_of_lt_of_le h₁ h₂) (UInt64.lt_irrefl _)

/-- Windows are read the same way after a shift of all ranks by `a`. -/
theorem isLeftmostMin_add {a lo hi j : Nat} :
    IsLeftmostMin key (a + lo) (a + hi) (a + j) ↔ IsLeftmostMin (fun i => key (a + i)) lo hi j := by
  constructor
  · rintro ⟨hlo, hhi, hleft, hright⟩
    exact ⟨by omega, by omega, fun l hl hl' => hleft (a + l) (by omega) (by omega),
      fun l hl hl' => hright (a + l) (by omega) (by omega)⟩
  · rintro ⟨hlo, hhi, hleft, hright⟩
    refine ⟨by omega, by omega, fun l hl hl' => ?_, fun l hl hl' => ?_⟩
    · obtain ⟨m, rfl⟩ : ∃ m, l = a + m := ⟨l - a, by omega⟩
      exact hleft m (by omega) (by omega)
    · obtain ⟨m, rfl⟩ : ∃ m, l = a + m := ⟨l - a, by omega⟩
      exact hright m (by omega) (by omega)

/-- The selection of a window depends only on the keys inside it. -/
theorem IsLeftmostMin.congr {key' : Nat → UInt64} {lo hi j : Nat} (h : IsLeftmostMin key lo hi j)
    (hkey : ∀ l, lo ≤ l → l < hi → key l = key' l) : IsLeftmostMin key' lo hi j := by
  obtain ⟨hlo, hhi, hleft, hright⟩ := h
  refine ⟨hlo, hhi, fun l hl hl' => ?_, fun l hl hl' => ?_⟩
  · rw [← hkey j hlo hhi, ← hkey l hl' (by omega)]
    exact hleft l hl hl'
  · rw [← hkey j hlo hhi, ← hkey l (by omega) hl]
    exact hright l hl hl'

end LeftmostMin

/-! ## Lists of ranks -/

section Lists

/-- Where a predicate holds on a prefix of a list, dropping while it holds keeps the rest. -/
theorem dropWhile_eq_filter {α : Type} {p : α → Bool} {l : List α}
    (h : l.Pairwise fun a b => p b → p a) : l.dropWhile p = l.filter fun a => !p a := by
  induction l with
  | nil => rfl
  | cons x l ih =>
    obtain ⟨hx, hl⟩ := List.pairwise_cons.mp h
    by_cases hpx : p x
    · simp [hpx, ih hl]
    · -- nothing after `x` satisfies `p` either
      have hrest : l.filter (fun a => !p a) = l :=
        List.filter_eq_self.mpr fun a ha => by simpa using fun hpa => hpx (hx a ha hpa)
      simp [hpx, hrest]

/-- Where a predicate holds on a suffix of a list, popping from the back while it holds keeps
the rest. -/
theorem reverse_dropWhile_reverse {α : Type} {p : α → Bool} {l : List α}
    (h : l.Pairwise fun a b => p a → p b) :
    (l.reverse.dropWhile p).reverse = l.filter fun a => !p a := by
  rw [dropWhile_eq_filter (List.pairwise_reverse.mpr h), List.filter_reverse, List.reverse_reverse]

/-- Filtering the first `n` numbers for a predicate that holds below them only below `x ≤ n`. -/
theorem filter_range_of_lt {P : Nat → Prop} [DecidablePred P] {x n : Nat} (hxn : x ≤ n)
    (h : ∀ j < n, P j → j < x) :
    (List.range n).filter (fun j => decide (P j)) = (List.range x).filter fun j => decide (P j) := by
  obtain ⟨m, rfl⟩ : ∃ m, n = x + m := ⟨n - x, by omega⟩
  rw [List.range_add, List.filter_append, List.filter_map]
  have hnil : (List.range m).filter ((fun j => decide (P j)) ∘ (x + ·)) = [] :=
    List.filter_eq_nil_iff.mpr fun j hj hPj => by
      have := h (x + j) (by have := List.mem_range.mp hj; omega) (of_decide_eq_true hPj)
      omega
  rw [hnil, List.map_nil, List.append_nil]

/-- A predicate that holds of one number below `n` keeps only it. -/
theorem filter_range_eq_singleton {P : Nat → Prop} [DecidablePred P] {y n : Nat} (hy : y < n)
    (h : ∀ j, P j ↔ j = y) : (List.range n).filter (fun j => decide (P j)) = [y] := by
  rw [filter_range_of_lt (Nat.succ_le_of_lt hy) fun j _ hj => by rw [h j] at hj; omega,
    List.range_succ, List.filter_append]
  have hnil : (List.range y).filter (fun j => decide (P j)) = [] :=
    List.filter_eq_nil_iff.mpr fun j hj hPj => by
      rw [decide_eq_true_eq, h j] at hPj
      exact absurd (List.mem_range.mp hj) (by omega)
  rw [hnil]
  simp [h]

/-- One more number may add one element `x` to a filtered range, after all the others. -/
theorem filter_range_succ_of_iff {P Q : Nat → Prop} [DecidablePred P] [DecidablePred Q]
    {r x : Nat} (hx : x < r + 1) (hQ : ∀ j, Q j ↔ P j ∨ j = x) (hle : ∀ j, P j → j ≤ x)
    (hlt : ∀ j, P j → j < r) :
    (List.range (r + 1)).filter (fun j => decide (Q j)) =
      (List.range r).filter (fun j => decide (P j)) ++ if P x then [] else [x] := by
  have hQx : ∀ j, Q j → j < x + 1 := fun j hj => by
    rcases (hQ j).mp hj with hj | hj
    · exact Nat.lt_succ_of_le (hle j hj)
    · omega
  have hbelow : (List.range x).filter (fun j => decide (Q j)) =
      (List.range x).filter fun j => decide (P j) :=
    List.filter_congr fun j hj => by
      have : j ≠ x := Nat.ne_of_lt (List.mem_range.mp hj)
      simp [hQ j, this]
  rw [filter_range_of_lt hx fun j _ hj => hQx j hj, List.range_succ, List.filter_append, hbelow]
  by_cases hPx : P x
  · rw [filter_range_of_lt (Nat.succ_le_of_lt (hlt x hPx)) fun j _ hj => Nat.lt_succ_of_le (hle j hj),
      List.range_succ, List.filter_append]
    simp [hPx, hQ]
  · have hPlt : ∀ j, P j → j < x := fun j hj =>
      Nat.lt_of_le_of_ne (hle j hj) fun h => hPx (h ▸ hj)
    rw [filter_range_of_lt (Nat.le_of_lt_succ hx) fun j _ hj => hPlt j hj]
    simp [hPx, hQ]

end Lists

/-! ## The deque of kept ranks -/

section Deque

variable (key : Nat → UInt64) (w : Nat)

/-- Rank `j` stays in the deque after the first `r` ranks: it is one of the last `w`, and no
later rank has a smaller key. -/
def Kept (r j : Nat) : Prop := r - w ≤ j ∧ j < r ∧ ∀ l < r, j < l → key j ≤ key l

instance (r j : Nat) : Decidable (Kept key w r j) := inferInstanceAs (Decidable (_ ∧ _ ∧ _))

/-- The ranks in the deque after the first `r` ranks, front first. -/
def keptRanks (r : Nat) : List Nat := (List.range r).filter fun j => decide (Kept key w r j)

/-- One step of the deque on its candidates: those at the back with a larger key than `c`
leave, `c` joins, and those at the front `w` ranks behind `c` leave. -/
def slide (c : Candidate) (window : List Candidate) : List Candidate :=
  ((window.reverse.dropWhile fun b => c.key < b.key).reverse ++ [c]).dropWhile
    fun f => !(c.rank < f.rank + w)

variable {key w}

@[simp] theorem keptRanks_zero : keptRanks key w 0 = [] := rfl

theorem keptRanks_pairwise_lt (r : Nat) : (keptRanks key w r).Pairwise (· < ·) :=
  List.pairwise_lt_range.filter _

/-- Keys do not decrease from the front of the deque to its back. -/
theorem keptRanks_pairwise_key (r : Nat) :
    (keptRanks key w r).Pairwise fun i j => key i ≤ key j := by
  rw [keptRanks, List.pairwise_filter]
  refine List.pairwise_lt_range.imp_of_mem ?_
  intro i j _ hj hij hi _
  exact (of_decide_eq_true hi).2.2 j (List.mem_range.mp hj) hij

theorem kept_succ_iff {r j : Nat} (hj : j < r) :
    Kept key w (r + 1) j ↔ Kept key w r j ∧ key j ≤ key r ∧ r < j + w := by
  constructor
  · rintro ⟨hlo, -, hle⟩
    exact ⟨⟨by omega, hj, fun l hl hjl => hle l (by omega) hjl⟩, hle r (by omega) hj, by omega⟩
  · rintro ⟨⟨-, -, hle⟩, hr, hjw⟩
    refine ⟨by omega, by omega, fun l hl hjl => ?_⟩
    rcases Nat.lt_or_ge l r with hlr | hlr
    · exact hle l hlr hjl
    · rwa [show l = r by omega]

/-- The deque after one more rank. -/
theorem slide_keptRanks (hw : 0 < w) {cand : Nat → Candidate} (hkey : ∀ j, (cand j).key = key j)
    (hrank : ∀ j, (cand j).rank = j) (r : Nat) :
    slide w (cand r) ((keptRanks key w r).map cand) = (keptRanks key w (r + 1)).map cand := by
  -- the back: the ranks with a larger key than `r` form a suffix of the deque
  have hback : ((keptRanks key w r).reverse.dropWhile fun j => decide (key r < key j)).reverse =
      (keptRanks key w r).filter fun j => decide (key j ≤ key r) := by
    have hkeys : (keptRanks key w r).Pairwise fun i j => key i ≤ key j := keptRanks_pairwise_key r
    rw [reverse_dropWhile_reverse (hkeys.imp fun hij hr =>
      decide_eq_true (UInt64.lt_of_lt_of_le (of_decide_eq_true hr) hij))]
    exact List.filter_congr fun j _ => by simp only [← UInt64.not_le, decide_not, Bool.not_not]
  -- the front: the expired ranks form a prefix, since ranks increase along the deque
  have hinc : ((keptRanks key w r).filter (fun j => decide (key j ≤ key r)) ++ [r]).Pairwise
      (· < ·) := by
    refine List.pairwise_append.mpr ⟨(keptRanks_pairwise_lt r).filter _, by simp, ?_⟩
    intro i hi j hj
    rw [List.mem_singleton.mp hj]
    exact (of_decide_eq_true (List.mem_filter.mp (List.mem_filter.mp hi).1).2).2.1
  have hfront : ((keptRanks key w r).filter (fun j => decide (key j ≤ key r)) ++ [r]).dropWhile
      (fun j => !decide (r < j + w)) = keptRanks key w (r + 1) := by
    rw [dropWhile_eq_filter (hinc.imp fun hij hj => by simp at hj ⊢; omega), List.filter_append]
    simp only [keptRanks]
    rw [List.range_succ, List.filter_append, List.filter_filter, List.filter_filter]
    congr 1
    · exact List.filter_congr fun j hj => by
        simp [kept_succ_iff (List.mem_range.mp hj), Bool.and_comm]
    · have hr : Kept key w (r + 1) r := ⟨by omega, by omega, fun l hl hrl => absurd hl (by omega)⟩
      simp [hr, hw]
  have hcomp : (fun b : Candidate => decide ((cand r).key < b.key)) ∘ cand =
      fun j => decide (key r < key j) := funext fun j => by simp [hkey]
  have hcomp' : (fun f : Candidate => !decide ((cand r).rank < f.rank + w)) ∘ cand =
      fun j => !decide (r < j + w) := funext fun j => by simp [hrank]
  rw [slide, ← List.map_reverse, List.dropWhile_map, hcomp, ← List.map_reverse, hback,
    show [cand r] = [r].map cand from rfl, ← List.map_append, List.dropWhile_map, hcomp', hfront]

/-- The front of the deque is the leftmost least key among the last `w` ranks. -/
theorem head?_keptRanks (hw : 0 < w) {r : Nat} (hr : 0 < r) :
    ∃ j, (keptRanks key w r).head? = some j ∧ IsLeftmostMin key (r - w) r j := by
  obtain ⟨j, hj⟩ : ∃ j, IsLeftmostMin key (r - w) r j := exists_isLeftmostMin (by omega)
  refine ⟨j, ?_, hj⟩
  obtain ⟨hlo, hhi, hleft, hright⟩ := hj
  rw [keptRanks, List.head?_filter, List.find?_range_eq_some]
  refine ⟨decide_eq_true ⟨hlo, hhi, fun l hl hjl => hright l hl (Nat.le_of_lt hjl)⟩,
    List.mem_range.mpr hhi, fun i hi => ?_⟩
  -- a rank left of `j` in the window has a larger key than `j`, which comes later
  simp only [Bool.not_eq_true', decide_eq_false_iff_not]
  rintro ⟨hilo, -, hle⟩
  exact UInt64.lt_irrefl _ (UInt64.lt_of_lt_of_le (hleft i hi hilo) (hle j hhi hi))

theorem keptRanks_eq_nil_iff (hw : 0 < w) {r : Nat} : keptRanks key w r = [] ↔ r = 0 := by
  constructor
  · intro h
    refine Nat.eq_zero_of_not_pos fun hr => ?_
    obtain ⟨j, hj, -⟩ : ∃ j, (keptRanks key w r).head? = some j ∧ IsLeftmostMin key (r - w) r j :=
      head?_keptRanks hw hr
    simp [h] at hj
  · rintro rfl
    rfl

end Deque

/-! ## Ranks selected by whole windows -/

section Selected

variable (key : Nat → UInt64) (w : Nat)

/-- Rank `j` is the selection of a window of `w` ranks within the first `r`. -/
def WindowSelected (r j : Nat) : Prop := w ≤ r ∧ ∃ q ≤ r - w, IsLeftmostMin key q (q + w) j

instance (r j : Nat) : Decidable (WindowSelected key w r j) :=
  inferInstanceAs (Decidable (_ ∧ _))

variable {key w}

theorem WindowSelected.lt {r j : Nat} (h : WindowSelected key w r j) : j < r := by
  obtain ⟨hwr, q, hq, -, hj, -⟩ := h
  omega

theorem not_windowSelected_of_lt {r j : Nat} (hr : r < w) : ¬WindowSelected key w r j :=
  fun h => absurd h.1 (Nat.not_le_of_lt hr)

theorem filter_windowSelected_of_lt {r : Nat} (hr : r < w) :
    (List.range r).filter (fun j => decide (WindowSelected key w r j)) = [] :=
  List.filter_eq_nil_iff.mpr fun _ _ hj => not_windowSelected_of_lt hr (of_decide_eq_true hj)

/-- The windows within the first `r + 1` ranks select those within the first `r`, and the
selection `x` of the last one. -/
theorem windowSelected_succ_iff {r x : Nat} (hr : w ≤ r + 1)
    (hx : IsLeftmostMin key (r + 1 - w) (r + 1) x) (j : Nat) :
    WindowSelected key w (r + 1) j ↔ WindowSelected key w r j ∨ j = x := by
  constructor
  · rintro ⟨-, q, hq, hj⟩
    rcases Nat.lt_or_ge q (r + 1 - w) with hlt | hge
    · exact .inl ⟨by omega, q, by omega, hj⟩
    · rw [show q = r + 1 - w by omega, show r + 1 - w + w = r + 1 by omega] at hj
      exact .inr (hj.unique hx)
  · rintro (⟨hwr, q, hq, hj⟩ | rfl)
    · exact ⟨by omega, q, by omega, hj⟩
    · exact ⟨hr, r + 1 - w, Nat.le_refl _, by rwa [show r + 1 - w + w = r + 1 by omega]⟩

/-- Every selection within the first `r + 1` ranks lies at or before that of the last window. -/
theorem WindowSelected.le {r j x : Nat} (h : WindowSelected key w (r + 1) j)
    (hx : IsLeftmostMin key (r + 1 - w) (r + 1) x) : j ≤ x := by
  obtain ⟨hwr, q, hq, hj⟩ := h
  exact hj.le_of_le hx (by omega) (by omega)

/-- The ranks selected within the first `r + 1` ranks: those within the first `r`, and the
last window's selection `x` unless it was selected already. -/
theorem filter_windowSelected_succ {r x : Nat} (hr : w ≤ r + 1)
    (hx : IsLeftmostMin key (r + 1 - w) (r + 1) x) :
    (List.range (r + 1)).filter (fun j => decide (WindowSelected key w (r + 1) j)) =
      (List.range r).filter (fun j => decide (WindowSelected key w r j)) ++
        if WindowSelected key w r x then [] else [x] :=
  filter_range_succ_of_iff (Nat.lt_succ_of_le (Nat.le_of_lt_succ hx.2.1))
    (windowSelected_succ_iff hr hx)
    (fun j hj => (windowSelected_succ_iff hr hx j |>.mpr (.inl hj)).le hx) fun _ hj => hj.lt

/-- The last window's selection was selected already exactly when it is the selection `y` of
the window before. -/
theorem windowSelected_iff_eq {r x y : Nat} (hr : w ≤ r) (hy : IsLeftmostMin key (r - w) r y)
    (hx : IsLeftmostMin key (r + 1 - w) (r + 1) x) : WindowSelected key w r x ↔ x = y := by
  constructor
  · rintro ⟨-, q, hq, hxq⟩
    have h₁ : x ≤ y := hxq.le_of_le hy (by omega) (by omega)
    have h₂ : y ≤ x := hy.le_of_le hx (by omega) (by omega)
    omega
  · rintro rfl
    exact ⟨hr, r - w, Nat.le_refl _, by rwa [Nat.sub_add_cancel hr]⟩

end Selected

end MinimizerScheme

end OverlapLayout
