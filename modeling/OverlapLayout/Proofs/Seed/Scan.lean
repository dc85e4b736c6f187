import Mathlib
import OverlapLayout.Proofs.Seed.Selection
import OverlapLayout.Proofs.Memory
/-!
  The window scan reports the reference selection.

  The scan reads a string byte by byte. `Scanned i a st` describes its state after the
  first `i` bytes, whose last run of nucleotides starts at `a`: the reader holds the
  number that this run spells, modulo `4 ^ k`; the deque holds the kept ranks of the
  run's k-mers (`keptRanks`); and the reports are the selected positions before `a`,
  then the selections of the whole windows of the run so far.

  * `Scanned.step`: reading one more byte keeps the description.
  * `Scanned.close`: closing the run where no more of its k-mers start reports the
    selection up to there.
  * `minimizers_eq_selection`: the scan of a whole string shorter than `2 ^ 32`, whose
    starts are their own 32-bit words, reports its reference selection.
  * `reserveWindow_eq`, `scan_reports_selection`: the room for the deque, and the scan as a
    whole: the selection when the room is taken, an overflow when it cannot be.
-/

namespace OverlapLayout

namespace MinimizerScheme

/-! ## The deque as a list -/

section Arrays

theorem toList_popWhile {α : Type} (W : Array α) (p : α → Bool) :
    (W.popWhile p).toList = (W.toList.reverse.dropWhile p).reverse := by
  cases W with
  | mk l => simp

theorem drop_findIdx? {α : Type} (l : List α) (q : α → Bool) :
    l.drop ((l.findIdx? q).getD l.length) = l.dropWhile fun a => !q a := by
  induction l with
  | nil => rfl
  | cons x l ih =>
    by_cases hq : q x
    · simp [List.findIdx?_cons, hq]
    · rw [List.findIdx?_cons, if_neg hq, List.dropWhile_cons, if_pos (by simpa using hq), ← ih]
      cases l.findIdx? q <;> rfl

/-- Dropping the front up to the first candidate that satisfies `q`. -/
theorem toList_extract_findIdx? {α : Type} (V : Array α) (q : α → Bool) :
    (V.extract ((V.findIdx? q).getD V.size) V.size).toList = V.toList.dropWhile fun a => !q a := by
  cases V with
  | mk l =>
    simp only [Array.toList_extract, List.findIdx?_toArray, List.size_toArray]
    rw [List.extract_eq_take_drop, List.take_of_length_le (by simp), drop_findIdx?]

/-- A candidate the deque keeps after a push was in it before, or is the one pushed. -/
theorem mem_of_mem_slid {α : Type} {W : Array α} {c x : α} {p q : α → Bool}
    (hx : x ∈ (((W.popWhile p).push c).extract ((((W.popWhile p).push c).findIdx? q).getD
      ((W.popWhile p).push c).size) ((W.popWhile p).push c).size).toList) :
    x ∈ W.toList ∨ x = c := by
  rw [toList_extract_findIdx?] at hx
  have hx := (List.dropWhile_sublist _).subset hx
  rw [Array.toList_push, List.mem_append, toList_popWhile, List.mem_reverse,
    List.mem_singleton] at hx
  exact hx.imp_left fun h => List.mem_reverse.mp ((List.dropWhile_sublist _).subset h)

end Arrays

/-! ## One byte of the scan -/

section Steps

variable (s : MinimizerScheme)

/-- The scan after it reads the candidate `c` of a k-mer: the deque slides, the run grows by
one, and once the run fills a window the front is reported. -/
def advance (st : Scan) (c : Candidate) : Scan :=
  let st := { st with window := (slide s.w c st.window.toList).toArray, run := st.run + 1 }
  if s.w ≤ st.run then st.emitFront else st

variable {s} {st : Scan} {i : Nat} {b : UInt8}

/-- A byte that is not a nucleotide closes the run and empties the reader. -/
theorem step_of_none (hx : Base.ofByte? b = none) :
    s.step st i b = s.finishRun { st with roller := st.roller.reset } := by
  simp [step, RollingKmer.push_none hx, hx]

/-- A nucleotide that does not complete a k-mer only feeds the reader. -/
theorem step_of_short {x : Base} (hk : st.roller.k < 32) (hx : Base.ofByte? b = some x)
    (hrun : st.roller.run + 1 < st.roller.k) :
    ∃ code : UInt64, code.toNat = (4 * st.roller.code.toNat + x.code.toNat) % 4 ^ st.roller.k ∧
      s.step st i b = { st with roller := { st.roller with code, run := st.roller.run + 1 } } := by
  obtain ⟨code, hcode, hpush⟩ := RollingKmer.push_some (b := b) hk hx
  refine ⟨code, hcode, ?_⟩
  simp [step, hpush, if_neg (Nat.not_le_of_lt hrun), hx]

/-- A nucleotide that completes a k-mer feeds its candidate to the deque. -/
theorem step_of_kmer {x : Base} (hk : st.roller.k < 32) (hx : Base.ofByte? b = some x)
    (hrun : st.roller.k ≤ st.roller.run + 1) :
    ∃ code : UInt64, code.toNat = (4 * st.roller.code.toNat + x.code.toNat) % 4 ^ st.roller.k ∧
      s.step st i b = s.advance { st with roller := { st.roller with code, run := st.roller.run + 1 } }
        ⟨mix64 code s.mask, st.run, (i + 1 - s.k) % Nat.pow 2 32, code⟩ := by
  obtain ⟨code, hcode, hpush⟩ := RollingKmer.push_some (b := b) hk hx
  refine ⟨code, hcode, ?_⟩
  simp only [step, hpush, if_pos hrun, advance]
  -- the two states differ only in how their deques are written
  have hwindow : ∀ W : Array Candidate, ∀ c : Candidate,
      (((W.popWhile fun back => decide (c.key < back.key)).push c).extract
        ((((W.popWhile fun back => decide (c.key < back.key)).push c).findIdx? fun front =>
          decide (c.rank < front.rank + s.w)).getD ((W.popWhile fun back => decide (c.key < back.key)).push c).size)
        ((W.popWhile fun back => decide (c.key < back.key)).push c).size).toList =
      slide s.w c W.toList := by
    intro W c
    simp only [toList_extract_findIdx?, Array.toList_push, toList_popWhile, slide]
  have hc := hwindow st.window ⟨mix64 code s.mask, st.run, (i + 1 - s.k) % Nat.pow 2 32, code⟩
  split
  · congr 2
    exact Array.ext' hc
  · congr 1
    exact Array.ext' hc

theorem emitFront_of_head? {f : Candidate} (hf : st.window.toList.head? = some f)
    (hne : st.lastEmitted ≠ some f.position) :
    st.emitFront = { st with lastEmitted := some f.position, out := st.out.push ⟨f.position, f.code⟩ } := by
  have h0 : st.window[0]? = some f := by
    rw [← Array.getElem?_toList, ← List.head?_eq_getElem?, hf]
  simp [Scan.emitFront, h0, hne]

theorem emitFront_of_head?_eq {f : Candidate} (hf : st.window.toList.head? = some f)
    (heq : st.lastEmitted = some f.position) : st.emitFront = st := by
  have h0 : st.window[0]? = some f := by
    rw [← Array.getElem?_toList, ← List.head?_eq_getElem?, hf]
  simp [Scan.emitFront, h0, heq]

theorem advance_of_lt {c : Candidate} (hwr : st.run + 1 < s.w) :
    s.advance st c = { st with window := (slide s.w c st.window.toList).toArray, run := st.run + 1 } := by
  simp [advance, Nat.not_le_of_lt hwr]

theorem advance_of_le {c : Candidate} (hwr : s.w ≤ st.run + 1) :
    s.advance st c =
      { st with window := (slide s.w c st.window.toList).toArray, run := st.run + 1 }.emitFront := by
  simp [advance, hwr]

/-- Closing a run leaves the reader alone. -/
theorem finishRun_roller (r : RollingKmer) :
    s.finishRun { st with roller := r } = { s.finishRun st with roller := r } := by
  unfold finishRun Scan.emitFront
  by_cases hc : 0 < st.run ∧ st.run < s.w
  · simp only [if_pos hc]
    cases st.window[0]? with
    | none => rfl
    | some f => by_cases hl : st.lastEmitted = some f.position <;> simp [hl]
  · simp only [if_neg hc]

/-- Reporting the front changes only the reports. -/
theorem Scan.emitFront_frame (st : Scan) :
    st.emitFront.roller = st.roller ∧ st.emitFront.window = st.window ∧ st.emitFront.run = st.run := by
  unfold Scan.emitFront
  split
  · exact ⟨rfl, rfl, rfl⟩
  · split <;> exact ⟨rfl, rfl, rfl⟩

/-- Taking a candidate slides the deque and grows the run; reports aside, nothing else
changes. -/
theorem advance_frame (c : Candidate) :
    (s.advance st c).roller = st.roller ∧
      (s.advance st c).window = (slide s.w c st.window.toList).toArray ∧
      (s.advance st c).run = st.run + 1 := by
  by_cases hw : s.w ≤ st.run + 1
  · rw [advance_of_le hw]
    exact Scan.emitFront_frame _
  · rw [advance_of_lt (Nat.lt_of_not_le hw)]
    exact ⟨rfl, rfl, rfl⟩

end Steps

/-! ## The state after a prefix -/

section Invariant

variable (s : MinimizerScheme) (seq : Bytes)

/-- The candidate of the k-mer of rank `j` in the run from `a`. -/
def candAt (a j : Nat) : Candidate :=
  ⟨s.keyAt seq (a + j), j, a + j, (s.kmerAt seq (a + j)).getD 0⟩

/-- The scan after the first `i` bytes of `seq`, whose last run of nucleotides starts at `a`. -/
structure Scanned (i a : Nat) (st : Scan) : Prop where
  start_le : a ≤ i
  start : a = 0 ∨ ¬IsBaseAt seq (a - 1)
  bases : ∀ j, a ≤ j → j < i → IsBaseAt seq j
  roller_k : st.roller.k = s.k
  roller_run : st.roller.run = i - a
  roller_code : st.roller.code.toNat = spell seq a (i - a) % 4 ^ s.k
  run : st.run = i - a + 1 - s.k
  window : st.window.toList = (keptRanks (s.runKey seq a) s.w st.run).map (s.candAt seq a)
  out : st.out.toList =
    ((List.range a).filter fun p => decide (s.Selected seq p)).map (s.minimizerAt seq) ++
      ((List.range st.run).filter fun j => decide (WindowSelected (s.runKey seq a) s.w st.run j)).map
        fun j => s.minimizerAt seq (a + j)
  last_full : s.w ≤ st.run →
    ∃ y, IsLeftmostMin (s.runKey seq a) (st.run - s.w) st.run y ∧ st.lastEmitted = some (a + y)
  last_short : st.run < s.w → ∀ p, st.lastEmitted = some p → p < a

variable {s seq} {st : Scan} {i a : Nat}

theorem scanned_init (hs : s.Bounded) : s.Scanned seq 0 0 { roller := RollingKmer.new s.k } where
  start_le := Nat.le_refl 0
  start := .inl rfl
  bases := fun j _ hj => absurd hj (Nat.not_lt_zero j)
  roller_k := rfl
  roller_run := rfl
  roller_code := by simp [RollingKmer.new, spell]
  run := by have := hs.k_pos; show 0 = 0 - 0 + 1 - s.k; omega
  window := rfl
  out := rfl
  last_full := fun h => absurd h (by have := hs.w_pos; show ¬s.w ≤ 0; omega)
  last_short := fun _ p hp => by cases hp

/-- The k-mers of the run so far all start within the bytes read. -/
theorem Scanned.covered (hs : s.Bounded) (h : s.Scanned seq i a st) :
    s.Covered seq a (a + st.run) := by
  intro p hp hap
  rw [kmerAt_isSome_iff hs.k_pos]
  intro t ht
  have := h.run
  exact h.bases (p + t) (by omega) (by omega)

theorem Scanned.before_run (hs : s.Bounded) (h : s.Scanned seq i a st) :
    a = 0 ∨ s.kmerAt seq (a - 1) = none := by
  rcases h.start with h0 | hnb
  · exact .inl h0
  · exact .inr (kmerAt_eq_none hs.k_pos (Nat.le_refl _) (by have := hs.k_pos; omega) hnb)

/-- Closing the run where none of its k-mers start any more reports the selected positions
up to there. -/
theorem Scanned.close (hs : s.Bounded) (h : s.Scanned seq i a st) {n : Nat}
    (hn : a + st.run ≤ n) (hend : s.kmerAt seq (a + st.run) = none)
    (hnone : ∀ p < n, a + st.run ≤ p → s.kmerAt seq p = none) :
    (s.finishRun st).out.toList =
        ((List.range n).filter fun p => decide (s.Selected seq p)).map (s.minimizerAt seq) ∧
      ∀ p, (s.finishRun st).lastEmitted = some p → p < n := by
  -- the selected positions below `n` are those before the run and those of the run
  have hbelow : ∀ p < n, s.Selected seq p → p < a + st.run := fun p hp hsel =>
    Nat.lt_of_not_le fun hge => by
      have := hsel.isSome
      rw [hnone p hp hge] at this
      cases this
  have hcut : (List.range n).filter (fun p => decide (s.Selected seq p)) =
      (List.range a).filter (fun p => decide (s.Selected seq p)) ++
        ((List.range st.run).filter fun j => decide (s.Selected seq (a + j))).map (a + ·) := by
    rw [filter_range_of_lt hn hbelow, List.range_add, List.filter_append, List.filter_map]
    rfl
  rw [hcut, List.map_append, List.map_map]
  rcases Nat.eq_zero_or_pos st.run with hr | hr
  · -- no k-mer in the run: nothing more to report
    have hfin : s.finishRun st = { st with window := #[], run := 0 } := by simp [finishRun, hr]
    rw [hfin]
    refine ⟨by simp [h.out, hr], fun p hp => ?_⟩
    have := h.last_short (by rw [hr]; exact hs.w_pos) p hp
    omega
  have hrun : s.IsRun seq a (a + st.run) := ⟨by omega, h.covered hs, h.before_run hs, hend⟩
  have hsel : (List.range st.run).filter (fun j => decide (s.Selected seq (a + j))) =
      (List.range st.run).filter fun j => decide (s.RunSelected seq a st.run j) :=
    List.filter_congr fun j hj => decide_eq_decide.mpr (selected_run_iff hrun (List.mem_range.mp hj))
  rw [hsel]
  by_cases hwr : s.w ≤ st.run
  · -- the run filled a window, and every selection in it was reported
    have hfin : s.finishRun st = { st with window := #[], run := 0 } := by
      simp [finishRun, Nat.not_lt.mpr hwr]
    have hrs : (List.range st.run).filter (fun j => decide (s.RunSelected seq a st.run j)) =
        (List.range st.run).filter fun j => decide (WindowSelected (s.runKey seq a) s.w st.run j) :=
      List.filter_congr fun j _ => by simp [RunSelected, Nat.not_lt.mpr hwr]
    rw [hfin, hrs]
    refine ⟨by simp [h.out], fun p hp => ?_⟩
    obtain ⟨y, hy, hlast⟩ := h.last_full hwr
    have hpy : p = a + y := by rw [hlast] at hp; exact (Option.some.inj hp).symm
    have := hy.2.1
    omega
  · -- a run shorter than a window reports its least k-mer as it closes
    have hwr' : st.run < s.w := Nat.lt_of_not_le hwr
    obtain ⟨y, hhead, hy⟩ : ∃ y, (keptRanks (s.runKey seq a) s.w st.run).head? = some y ∧
        IsLeftmostMin (s.runKey seq a) (st.run - s.w) st.run y := head?_keptRanks hs.w_pos hr
    rw [Nat.sub_eq_zero_of_le (Nat.le_of_lt hwr')] at hy
    have hrs : (List.range st.run).filter (fun j => decide (s.RunSelected seq a st.run j)) = [y] :=
      filter_range_eq_singleton hy.2.1 fun j =>
        ⟨fun hj => (hj.resolve_left (not_windowSelected_of_lt hwr')).2.unique hy, fun hj => by
          rw [hj]; exact .inr ⟨hwr', hy⟩⟩
    have hfront : st.window.toList.head? = some (s.candAt seq a y) := by
      rw [h.window, List.head?_map, hhead]
      rfl
    have hne : st.lastEmitted ≠ some (s.candAt seq a y).position := fun heq => by
      have : a + y < a := h.last_short hwr' _ heq
      omega
    have hfin : s.finishRun st = { st.emitFront with window := #[], run := 0 } := by
      simp [finishRun, hr, hwr']
    rw [hfin, emitFront_of_head? hfront hne, hrs]
    refine ⟨?_, fun p hp => ?_⟩
    · simp [h.out, filter_windowSelected_of_lt hwr', candAt, minimizerAt]
    · have hpy : p = a + y := by simpa [candAt] using hp.symm
      have := hy.2.1
      omega

end Invariant

/-! ## Reading one byte keeps the description -/

section Step

variable {s : MinimizerScheme} {seq : Bytes} {st : Scan} {i a : Nat}

theorem digitAt_of_getElem {j : Nat} (hj : j < seq.length) {x : Base}
    (hx : Base.ofByte? seq[j] = some x) : digitAt seq j = x.code.toNat := by
  simp [digitAt, List.getElem?_eq_getElem hj, hx]

/-- The reader after one more nucleotide holds the number of the longer run. -/
theorem spell_succ_mod {c d t M : Nat} (hc : c = spell seq a t % M) (hd : digitAt seq (a + t) = d) :
    (4 * c + d) % M = spell seq a (t + 1) % M := by
  rw [hc, spell, ← hd, Nat.add_mod, Nat.mul_mod, Nat.mod_mod, ← Nat.mul_mod, ← Nat.add_mod,
    Nat.mul_comm]

/-- A byte that is not a nucleotide closes the run; the next run starts after it. -/
theorem Scanned.step_break (hs : s.Bounded) (h : s.Scanned seq i a st) (hi : i < seq.length)
    (hb : Base.ofByte? seq[i] = none) : s.Scanned seq (i + 1) (i + 1) (s.step st i seq[i]) := by
  have hk := hs.k_pos
  have hsr := h.run
  have hai := h.start_le
  have hnb : ¬IsBaseAt seq i := by simp [IsBaseAt, List.getElem?_eq_getElem hi, hb]
  -- every k-mer from the end of the run up to `i` holds byte `i`
  have hnone : ∀ p < i + 1, a + st.run ≤ p → s.kmerAt seq p = none := fun p hp hap =>
    kmerAt_eq_none hk (by omega) (by omega) hnb
  obtain ⟨hout, hlast⟩ := h.close hs (by omega) (hnone _ (by omega) (Nat.le_refl _)) hnone
  rw [step_of_none hb, finishRun_roller]
  exact {
    start_le := Nat.le_refl _
    start := .inr (by simpa using hnb)
    bases := fun j h₁ h₂ => absurd h₂ (by omega)
    roller_k := h.roller_k
    roller_run := by simp [RollingKmer.reset]
    roller_code := by simp [RollingKmer.reset, spell]
    run := by show 0 = i + 1 - (i + 1) + 1 - s.k; omega
    window := rfl
    out := by rw [show (s.finishRun st).run = 0 from rfl]; simpa using hout
    last_full := fun hw => absurd hw (by show ¬s.w ≤ 0; have := hs.w_pos; omega)
    last_short := fun _ => hlast }

/-- The reader after one more nucleotide holds the number that the longer run spells. -/
theorem Scanned.read_base (h : s.Scanned seq i a st) (hi : i < seq.length) {x : Base}
    (hx : Base.ofByte? seq[i] = some x) {code : UInt64}
    (hcode : code.toNat = (4 * st.roller.code.toNat + x.code.toNat) % 4 ^ st.roller.k) :
    (∀ j, a ≤ j → j < i + 1 → IsBaseAt seq j) ∧ code.toNat = spell seq a (i + 1 - a) % 4 ^ s.k := by
  have hai := h.start_le
  refine ⟨fun j h₁ h₂ => if hj : j < i then h.bases j h₁ hj else ?_, ?_⟩
  · rw [show j = i by omega]
    simp [IsBaseAt, List.getElem?_eq_getElem hi, hx]
  · rw [hcode, h.roller_k, show i + 1 - a = i - a + 1 by omega]
    exact spell_succ_mod h.roller_code (by
      rw [show a + (i - a) = i by omega]; exact digitAt_of_getElem hi hx)

/-- A nucleotide that completes no k-mer lengthens the run and nothing else. -/
theorem Scanned.step_short (hs : s.Bounded) (h : s.Scanned seq i a st) (hi : i < seq.length)
    {x : Base} (hx : Base.ofByte? seq[i] = some x) (hrun : st.roller.run + 1 < st.roller.k) :
    s.Scanned seq (i + 1) a (s.step st i seq[i]) := by
  have hrk := h.roller_k
  have hrr := h.roller_run
  have hsr := h.run
  have hai := h.start_le
  obtain ⟨code, hcode, hstep⟩ := step_of_short (i := i) (by rw [hrk]; exact hs.k_lt) hx hrun
  obtain ⟨hbases, hcode'⟩ := h.read_base hi hx hcode
  rw [hstep]
  exact {
    start_le := by omega
    start := h.start
    bases := hbases
    roller_k := hrk
    roller_run := by show st.roller.run + 1 = i + 1 - a; omega
    roller_code := hcode'
    run := by show st.run = i + 1 - a + 1 - s.k; omega
    window := h.window
    out := h.out
    last_full := h.last_full
    last_short := h.last_short }

/-- The reports once the deque takes the k-mer of rank `st.run`: the selection of the window
it completes is reported, unless it was the last one reported. -/
theorem Scanned.advance_reports (hs : s.Bounded) (h : s.Scanned seq i a st) (r : RollingKmer) :
    (s.advance { st with roller := r } (s.candAt seq a st.run)).out.toList =
        ((List.range a).filter fun p => decide (s.Selected seq p)).map (s.minimizerAt seq) ++
          ((List.range (st.run + 1)).filter fun j =>
            decide (WindowSelected (s.runKey seq a) s.w (st.run + 1) j)).map
            (fun j => s.minimizerAt seq (a + j)) ∧
      (s.w ≤ st.run + 1 → ∃ y, IsLeftmostMin (s.runKey seq a) (st.run + 1 - s.w) (st.run + 1) y ∧
        (s.advance { st with roller := r } (s.candAt seq a st.run)).lastEmitted = some (a + y)) ∧
      (st.run + 1 < s.w →
        ∀ p, (s.advance { st with roller := r } (s.candAt seq a st.run)).lastEmitted = some p → p < a) := by
  have hwindow : slide s.w (s.candAt seq a st.run) st.window.toList =
      (keptRanks (s.runKey seq a) s.w (st.run + 1)).map (s.candAt seq a) := by
    rw [h.window]
    exact slide_keptRanks hs.w_pos (fun _ => rfl) (fun _ => rfl) st.run
  by_cases hwr : s.w ≤ st.run + 1
  · obtain ⟨y, hhead, hy⟩ : ∃ y, (keptRanks (s.runKey seq a) s.w (st.run + 1)).head? = some y ∧
        IsLeftmostMin (s.runKey seq a) (st.run + 1 - s.w) (st.run + 1) y :=
      head?_keptRanks hs.w_pos (Nat.succ_pos _)
    -- the window's selection `y` was selected before exactly when it was the last report
    have hdone : WindowSelected (s.runKey seq a) s.w st.run y ↔ st.lastEmitted = some (a + y) := by
      by_cases hw : s.w ≤ st.run
      · obtain ⟨y', hy', hlast⟩ := h.last_full hw
        rw [windowSelected_iff_eq hw hy' hy, hlast, Option.some.injEq, Nat.add_left_cancel_iff,
          eq_comm]
      · have hlt : st.run < s.w := Nat.lt_of_not_le hw
        refine ⟨fun hsel => absurd hsel (not_windowSelected_of_lt hlt), fun hlast => ?_⟩
        have := h.last_short hlt _ hlast
        omega
    have hfront : ({ st with roller := r, window := (slide s.w (s.candAt seq a st.run)
        st.window.toList).toArray, run := st.run + 1 } : Scan).window.toList.head? =
          some (s.candAt seq a y) := by
      show (slide s.w (s.candAt seq a st.run) st.window.toList).toArray.toList.head? = _
      rw [List.toList_toArray, hwindow, List.head?_map, hhead]
      rfl
    rw [advance_of_le (show s.w ≤ ({ st with roller := r } : Scan).run + 1 from hwr)]
    by_cases hlast : st.lastEmitted = some (a + y)
    · rw [emitFront_of_head?_eq hfront hlast]
      refine ⟨?_, fun _ => ⟨y, hy, hlast⟩, fun hlt => absurd hwr (by omega)⟩
      show st.out.toList = _
      rw [h.out, filter_windowSelected_succ hwr hy, if_pos (hdone.mpr hlast), List.append_nil]
    · rw [emitFront_of_head? hfront hlast]
      refine ⟨?_, fun _ => ⟨y, hy, rfl⟩, fun hlt => absurd hwr (by omega)⟩
      show (st.out.push _).toList = _
      rw [Array.toList_push, h.out, filter_windowSelected_succ hwr hy, if_neg (mt hdone.mp hlast)]
      simp [candAt, minimizerAt]
  · have hlt : st.run + 1 < s.w := Nat.lt_of_not_le hwr
    rw [advance_of_lt (show ({ st with roller := r } : Scan).run + 1 < s.w from hlt)]
    refine ⟨?_, fun hle => absurd hle hwr, fun _ => h.last_short (by omega)⟩
    show st.out.toList = _
    rw [h.out, filter_windowSelected_of_lt hlt, filter_windowSelected_of_lt (by omega)]

/-- A nucleotide that completes a k-mer: the deque takes its candidate, the k-mer of the next
rank in the run. -/
theorem Scanned.step_kmer (hs : s.Bounded) (h : s.Scanned seq i a st) (hi : i < seq.length)
    (hlen : seq.length < 2 ^ 32) {x : Base} (hx : Base.ofByte? seq[i] = some x)
    (hrun : st.roller.k ≤ st.roller.run + 1) :
    s.Scanned seq (i + 1) a (s.step st i seq[i]) := by
  have hrk := h.roller_k
  have hrr := h.roller_run
  have hsr := h.run
  have hai := h.start_le
  obtain ⟨code, hcode, hstep⟩ := step_of_kmer (i := i) (by rw [hrk]; exact hs.k_lt) hx hrun
  obtain ⟨hbases, hcode'⟩ := h.read_base hi hx hcode
  -- the k-mer just read starts at rank `st.run` of the run, and its code is the reader's
  have hkmer : s.kmerAt seq (a + st.run) = some code := by
    rw [kmerAt_eq_some hs.k_pos fun t ht => hbases _ (by omega) (by omega), ← spell_mod a st.run s.k,
      show st.run + s.k = i + 1 - a by omega, ← hcode', UInt64.ofNat_toNat]
  -- a start inside a string shorter than `2 ^ 32` is its own 32-bit word
  have hcand : (⟨mix64 code s.mask, st.run, (i + 1 - s.k) % Nat.pow 2 32, code⟩ : Candidate) =
      s.candAt seq a st.run := by
    rw [Nat.pow_eq, Nat.mod_eq_of_lt (by omega)]
    simp only [candAt, keyAt, hkmer, Option.getD_some, show i + 1 - s.k = a + st.run by omega]
  generalize hR : ({ st.roller with code, run := st.roller.run + 1 } : RollingKmer) = R at hstep
  obtain ⟨hout, hfull, hshort⟩ := h.advance_reports hs R
  obtain ⟨hroller, hwindow, hrun'⟩ := @advance_frame s { st with roller := R } (s.candAt seq a st.run)
  rw [hstep, hcand]
  exact {
    start_le := by omega
    start := h.start
    bases := hbases
    roller_k := by rw [hroller, ← hR]; exact hrk
    roller_run := by rw [hroller, ← hR]; show st.roller.run + 1 = i + 1 - a; omega
    roller_code := by rw [hroller, ← hR]; exact hcode'
    run := by rw [hrun']; show st.run + 1 = i + 1 - a + 1 - s.k; omega
    window := by
      rw [hwindow, hrun', List.toList_toArray, h.window]
      exact slide_keptRanks hs.w_pos (fun _ => rfl) (fun _ => rfl) st.run
    out := by rw [hrun']; exact hout
    last_full := by rw [hrun']; exact hfull
    last_short := by rw [hrun']; exact hshort }

/-- Reading one more byte keeps the description, of the same run or of a new one. -/
theorem Scanned.step (hs : s.Bounded) (h : s.Scanned seq i a st) (hi : i < seq.length)
    (hlen : seq.length < 2 ^ 32) : ∃ a', s.Scanned seq (i + 1) a' (s.step st i seq[i]) := by
  cases hx : Base.ofByte? seq[i] with
  | none => exact ⟨i + 1, h.step_break hs hi hx⟩
  | some x =>
    by_cases hrun : st.roller.run + 1 < st.roller.k
    · exact ⟨a, h.step_short hs hi hx hrun⟩
    · exact ⟨a, h.step_kmer hs hi hlen hx (Nat.le_of_not_lt hrun)⟩

end Step

/-! ## The scan of a whole string -/

section Run

variable {s : MinimizerScheme}

/-- The scan of the first `i` bytes of a string is described by `Scanned`. -/
theorem scanned_take (hs : s.Bounded) {seq : Bytes} (hlen : seq.length < 2 ^ 32) {i : Nat}
    (hi : i ≤ seq.length) :
    ∃ a, s.Scanned seq i a ((seq.take i).zipIdx.foldl (fun st (b, i) => s.step st i b)
      { roller := RollingKmer.new s.k }) := by
  induction i with
  | zero => exact ⟨0, scanned_init hs⟩
  | succ i ih =>
    obtain ⟨a, ha⟩ := ih (by omega)
    have hlt : i < seq.length := by omega
    rw [List.take_add_one, List.getElem?_eq_getElem hlt, Option.toList_some, List.zipIdx_append,
      List.foldl_append, List.length_take, Nat.min_eq_left (Nat.le_of_lt hlt), Nat.zero_add,
      List.zipIdx_singleton, List.foldl_cons, List.foldl_nil]
    exact ha.step hs hlt hlen

/-- The scan of a string shorter than `2 ^ 32` reports its reference selection. -/
theorem minimizers_eq_selection (hs : s.Bounded) {seq : Bytes} (hlen : seq.length < 2 ^ 32) :
    (s.minimizers seq).toList = s.selection seq := by
  obtain ⟨a, h⟩ := scanned_take hs hlen (Nat.le_refl _)
  rw [List.take_length] at h
  have hk := hs.k_pos
  have hsr := h.run
  have hai := h.start_le
  -- no k-mer starts past the last full one
  have hnone : ∀ p, a + (seq.zipIdx.foldl (fun st (b, i) => s.step st i b)
      ({ roller := RollingKmer.new s.k } : Scan)).run ≤ p → s.kmerAt seq p = none :=
    fun p hp => kmerAt_eq_none_of_length_lt (p := p) (by omega)
  obtain ⟨hout, -⟩ := h.close hs (n := seq.length) (by omega) (hnone _ (Nat.le_refl _))
    fun p _ hp => hnone p hp
  -- an empty deque means an empty run, which closing leaves as it is
  have hclose : ∀ st : Scan, s.Scanned seq seq.length a st →
      (if st.window.isEmpty then st else s.finishRun st).out = (s.finishRun st).out := by
    intro st hst
    split
    · next hempty =>
      have hr : st.run = 0 := by
        rw [Array.isEmpty_iff, ← Array.toList_eq_nil_iff, hst.window, List.map_eq_nil_iff,
          keptRanks_eq_nil_iff hs.w_pos] at hempty
        exact hempty
      simp [finishRun, hr]
    · rfl
  rw [minimizers, hclose _ h, hout]
  rfl

end Run

/-! ## Reported words -/

section Words

variable {s : MinimizerScheme} {n : Nat} {st : Scan}

/-- After `n` bytes the scan has made at most `n` reports, and every start it holds or has
reported is a 32-bit word, whatever the string. -/
structure Words (n : Nat) (st : Scan) : Prop where
  window : ∀ c ∈ st.window.toList, c.position < 2 ^ 32
  out : ∀ m ∈ st.out.toList, m.position < 2 ^ 32
  size : st.out.size ≤ n

theorem Words.mono (h : Words n st) {n' : Nat} (hn : n ≤ n') : Words n' st :=
  ⟨h.window, h.out, Nat.le_trans h.size hn⟩

/-- Reporting the front adds one report, of a start the deque holds. -/
theorem Words.emitFront (h : Words n st) : Words (n + 1) st.emitFront := by
  unfold Scan.emitFront
  split
  · exact h.mono (Nat.le_succ n)
  · next f hf =>
    split
    · exact h.mono (Nat.le_succ n)
    · have hfm : f ∈ st.window.toList := Array.mem_toList_iff.mpr (Array.mem_of_getElem? hf)
      refine ⟨h.window, fun m hm => ?_, by simpa using h.size⟩
      rw [Array.toList_push, List.mem_append, List.mem_singleton] at hm
      rcases hm with hm | rfl
      · exact h.out m hm
      · exact h.window f hfm

theorem Words.finishRun (h : Words n st) : Words (n + 1) (s.finishRun st) := by
  have h' : Words (n + 1) (if 0 < st.run ∧ st.run < s.w then st.emitFront else st) := by
    split
    · exact h.emitFront
    · exact h.mono (Nat.le_succ n)
  exact ⟨by simp [MinimizerScheme.finishRun], h'.out, h'.size⟩

/-- One byte adds at most one report, and the candidate it brings starts at a 32-bit word. -/
theorem Words.step (h : Words n st) (i : Nat) (b : UInt8) : Words (n + 1) (s.step st i b) := by
  unfold MinimizerScheme.step
  split
  · -- no k-mer completes: the run may close
    have hr : ∀ roller, Words n { st with roller } := fun _ => ⟨h.window, h.out, h.size⟩
    split
    · exact (hr _).finishRun
    · exact (hr _).mono (Nat.le_succ n)
  · next code roller _ =>
    -- the deque keeps some of its candidates and takes the new one, a 32-bit start
    have hc : (i + 1 - s.k) % Nat.pow 2 32 < 2 ^ 32 := by
      rw [Nat.pow_eq]
      exact Nat.mod_lt _ (by decide)
    dsimp only
    split
    · refine Words.emitFront ⟨fun x hx => ?_, h.out, h.size⟩
      rcases mem_of_mem_slid hx with hx | rfl
      · exact h.window x hx
      · exact hc
    · refine Words.mono ?_ (Nat.le_succ n)
      refine ⟨fun x hx => ?_, h.out, h.size⟩
      rcases mem_of_mem_slid hx with hx | rfl
      · exact h.window x hx
      · exact hc

/-- Reading bytes adds at most one report per byte. -/
theorem Words.foldl (h : Words n st) (l : List (UInt8 × Nat)) :
    Words (n + l.length) (l.foldl (fun st (b, i) => s.step st i b) st) := by
  induction l generalizing n st with
  | nil => exact h
  | cons x l ih =>
    obtain ⟨b, i⟩ := x
    exact (ih (h.step (s := s) i b)).mono (by simp only [List.length_cons]; omega)

/-- The scan of any string reports starts that are 32-bit words, at most one more than it has
bytes. -/
theorem minimizers_words (s : MinimizerScheme) (seq : Bytes) :
    (∀ m ∈ s.minimizers seq, m.position < 2 ^ 32) ∧ (s.minimizers seq).size ≤ seq.length + 1 := by
  have h := (show Words 0 ({ roller := RollingKmer.new s.k } : Scan) from
    ⟨by simp, by simp, by simp⟩).foldl (s := s) seq.zipIdx
  rw [List.length_zipIdx, Nat.zero_add] at h
  generalize hst : seq.zipIdx.foldl (fun st (b, i) => s.step st i b)
    ({ roller := RollingKmer.new s.k } : Scan) = st at h
  have hmin : s.minimizers seq = (if st.window.isEmpty then st else s.finishRun st).out := by
    rw [← hst]
    rfl
  -- closing the last run may add one more report
  have hfin : Words (seq.length + 1) (if st.window.isEmpty then st else s.finishRun st) := by
    split
    · exact h.mono (Nat.le_succ _)
    · exact h.finishRun
  rw [hmin]
  exact ⟨fun m hm => hfin.out m (Array.mem_toList_iff.mpr hm), hfin.size⟩

end Words

/-! ## The scan and its room -/

section Scan

variable {s : MinimizerScheme}

/-- The room for the deque, `w + 1` candidates of 32 bytes: a count past a word overflows the
sum, a size past the largest collection the capacity, and otherwise the room is taken when the
allocator serves it. -/
theorem reserveWindow_eq (alloc : Allocator) (s : MinimizerScheme) :
    s.reserveWindow alloc =
      if 2 ^ 64 ≤ s.w + 1 then .error .addOverflow
      else if maxCollectionBytes 8 < 32 * (s.w + 1) then .error .capacityOverflow
      else if alloc.serves (32 * (s.w + 1)) = true then .ok ()
      else .error (.allocationFailed (32 * (s.w + 1))) := by
  unfold reserveWindow checkedAdd
  rw [Nat.pow_eq]
  by_cases hadd : 2 ^ 64 ≤ s.w + 1
  · rw [if_neg (Nat.not_lt_of_le hadd), if_pos hadd]
    rfl
  · rw [if_pos (Nat.lt_of_not_le hadd), if_neg hadd]
    show allocate alloc (s.w + 1) candidateBytes 8 = _
    rw [allocate_eq, candidateBytes, Nat.mul_comm (s.w + 1) 32]
    by_cases hmax : maxCollectionBytes 8 < 32 * (s.w + 1)
    · rw [if_pos hmax, if_pos hmax]
    · rw [if_neg hmax, if_neg hmax]
      -- the room is never empty, so the allocator decides
      by_cases hserve : alloc.serves (32 * (s.w + 1)) = true
      · rw [if_pos (Or.inr hserve), if_pos hserve]
      · have hpos : ¬(32 * (s.w + 1) = 0 ∨ alloc.serves (32 * (s.w + 1)) = true) := by
          rintro (h | h)
          · omega
          · exact hserve h
        rw [if_neg hpos, if_neg hserve]

/-- Room that fits a collection and is served is taken: its count is far below a word. -/
theorem reserveWindow_of_serves {alloc : Allocator} (hfit : 32 * (s.w + 1) ≤ maxCollectionBytes 8)
    (hserve : alloc.serves (32 * (s.w + 1)) = true) : s.reserveWindow alloc = .ok () := by
  have hmax : maxCollectionBytes 8 < 2 ^ 63 := by decide
  rw [reserveWindow_eq, if_neg (by omega), if_neg (Nat.not_lt_of_le hfit), if_pos hserve]

/-- Room past the largest collection is refused whatever the allocator, as an overflow of the
count or of the capacity. -/
theorem reserveWindow_of_overflow (alloc : Allocator) (hover : maxCollectionBytes 8 < 32 * (s.w + 1)) :
    s.reserveWindow alloc = .error (if 2 ^ 64 ≤ s.w + 1 then .addOverflow else .capacityOverflow) := by
  rw [reserveWindow_eq]
  split_ifs with hadd
  · rfl
  · rfl

/-- The scan reports the minimizers once the room for its deque is taken. -/
theorem scan_eq_ok_iff (alloc : Allocator) (s : MinimizerScheme) (seq : Bytes) (out : Array Minimizer) :
    s.scan alloc seq = .ok out ↔ s.reserveWindow alloc = .ok () ∧ out = s.minimizers seq := by
  unfold scan
  cases s.reserveWindow alloc with
  | error e => simp [bind, Except.bind]
  | ok u =>
    cases u
    simp only [bind, Except.bind, pure, Except.pure, Except.ok.injEq, true_and]
    exact eq_comm

/-- A scan that does not start stops where the room for its deque stops it. -/
theorem scan_eq_error (alloc : Allocator) (s : MinimizerScheme) (seq : Bytes) {p : Panic}
    (h : s.reserveWindow alloc = .error p) : s.scan alloc seq = .error p := by
  simp [scan, h, bind, Except.bind]

/-- Every window of `w` k-mers holds a reported position. -/
theorem exists_mem_selection_of_covered (hs : s.Bounded) {seq : Bytes} {q : Nat}
    (hc : s.Covered seq q (q + s.w)) :
    ∃ m ∈ s.selection seq, q ≤ m.position ∧ m.position < q + s.w := by
  obtain ⟨p, hqp, hpq, hsel⟩ := exists_selected_of_covered hs.w_pos hc
  exact ⟨s.minimizerAt seq p, mem_selection hs.k_pos hsel, hqp, hpq⟩

/-- A stretch of `w + k - 1` nucleotides shared by two strings gives both a report with
the same code at the same offset in it. -/
theorem shared_minimizer (hs : s.Bounded) {seq seq' : Bytes} {a b : Nat}
    (hbase : ∀ t < s.w + s.k - 1, IsBaseAt seq (a + t))
    (hsame : ∀ t < s.w + s.k - 1, seq[a + t]? = seq'[b + t]?) :
    ∃ o < s.w, ∃ c, ⟨a + o, c⟩ ∈ s.selection seq ∧ ⟨b + o, c⟩ ∈ s.selection seq' := by
  obtain ⟨o, ho, hsel, hsel', hcode, -⟩ := shared_selected hs hbase hsame
  refine ⟨o, ho, (s.kmerAt seq (a + o)).getD 0, mem_selection hs.k_pos hsel, ?_⟩
  rw [hcode]
  exact mem_selection hs.k_pos hsel'

/-- The scan with k-mer length `k` and window length `w` of a string shorter than `2 ^ 32`
reports, when it returns, the reference selection; it returns when the room for its deque,
`w + 1` candidates of 32 bytes, fits a collection and is served, and stops on an overflow,
before it reads anything, when that room passes the largest collection. The selection has
strictly increasing positions, each with the code of the `k` bytes there; every window of `w`
k-mers holds one of its positions; and a stretch of `w + k - 1` nucleotides shared by two
strings gives both a report with the same code at the same offset in it. -/
theorem scan_reports_selection (alloc : Allocator) (k w : Nat) (seq : Bytes)
    (hlen : seq.length < 2 ^ 32) :
    let s := new k w
    (∀ out, s.scan alloc seq = .ok out → out.toList = s.selection seq) ∧
      (32 * (s.w + 1) ≤ maxCollectionBytes 8 → alloc.serves (32 * (s.w + 1)) = true →
        ∃ out, s.scan alloc seq = .ok out) ∧
      (maxCollectionBytes 8 < 32 * (s.w + 1) →
        s.scan alloc seq = .error (if 2 ^ 64 ≤ s.w + 1 then .addOverflow else .capacityOverflow)) ∧
      (s.selection seq).Pairwise (fun m m' => m.position < m'.position) ∧
      (∀ m ∈ s.selection seq, s.kmerAt seq m.position = some m.code) ∧
      (∀ q, s.Covered seq q (q + s.w) →
        ∃ m ∈ s.selection seq, q ≤ m.position ∧ m.position < q + s.w) ∧
      ∀ (seq' : Bytes) (a b : Nat), (∀ t < s.w + s.k - 1, IsBaseAt seq (a + t)) →
        (∀ t < s.w + s.k - 1, seq[a + t]? = seq'[b + t]?) →
        ∃ o < s.w, ∃ c, ⟨a + o, c⟩ ∈ s.selection seq ∧ ⟨b + o, c⟩ ∈ s.selection seq' := by
  intro s
  have hs : s.Bounded := bounded_new k w
  refine ⟨fun out h => ?_, fun hfit hserve => ?_, fun hover => ?_, selection_pairwise,
    fun _ hm => kmerAt_of_mem_selection hm, fun _ hc => exists_mem_selection_of_covered hs hc,
    fun _ _ _ hbase hsame => shared_minimizer hs hbase hsame⟩
  · rw [((scan_eq_ok_iff alloc s seq out).mp h).2, minimizers_eq_selection hs hlen]
  · exact ⟨_, (scan_eq_ok_iff alloc s seq _).mpr ⟨reserveWindow_of_serves hfit hserve, rfl⟩⟩
  · exact scan_eq_error alloc s seq (reserveWindow_of_overflow alloc hover)

/-- The scan of a short nucleotide string, with an allocator that serves every request,
returns its reference selection. -/
theorem scan_reports_selection_acgt :
    [65, 67, 71, 84, 65, 67, 71].length < 2 ^ 32 ∧
      ∃ out, (new 3 2).scan ⟨fun _ => true⟩ [65, 67, 71, 84, 65, 67, 71] = .ok out ∧
        out.toList = (new 3 2).selection [65, 67, 71, 84, 65, 67, 71] := by
  have hlen : [65, 67, 71, 84, 65, 67, 71].length < 2 ^ 32 := by decide
  obtain ⟨hsel, hok, -⟩ := scan_reports_selection ⟨fun _ => true⟩ 3 2 [65, 67, 71, 84, 65, 67, 71] hlen
  obtain ⟨out, hout⟩ := hok (by decide) rfl
  exact ⟨hlen, out, hout, hsel out hout⟩

/-- A window too large for the room of its deque stops the scan, even of the empty string and
with an allocator that serves every request. -/
theorem scan_huge_window_overflows :
    (new 5 (2 ^ 62)).scan ⟨fun _ => true⟩ [] = .error .capacityOverflow :=
  rfl

end Scan

end MinimizerScheme

end OverlapLayout
