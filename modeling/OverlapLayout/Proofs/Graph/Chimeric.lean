import Mathlib
import OverlapLayout.Proofs.Graph.Invariant
/-!
  Which hosts chimeric detection flags.

  The reads lying in a host are intervals of it, clamped to its length. `depthChanges` is a
  difference array of them: the running sum of its entries up to a position is the number of
  reads covering that position (`depthBefore_add`). `scanGaps` walks the positions with that
  running depth and checks the flanks only at the first admissible position of each uncovered
  stretch. That is enough because a read that starts before it ends cannot end or start
  strictly inside an uncovered stretch, so the flank counts stay the same along it
  (`flanksDeep_eq_of_uncovered`).

  * `GapAt`, `HasGap`: a position away from both ends, covered by no read, with at least
    `depth` reads wholly on each side; and enough reads for such a gap to count.
  * `hasInternalGap_eq`: the test answers exactly `HasGap` when every read starts before it
    ends and twice the depth fits a word.
  * `detectChimeric_flags`: detection flags, in increasing order, exactly the hosts not yet
    chimeric, of known length, whose reads leave such a gap, and changes no other part of the
    graph.
-/

namespace OverlapLayout

namespace AssemblyGraph

/-! ## The running depth -/

/-- Read `c` covers position `p` of a host of length `length`, its place clamped to the host. -/
def Covers (length : Nat) (c : Containment) (p : Nat) : Prop :=
  min c.hostStart length ≤ p ∧ p < min c.hostEnd length

instance (length : Nat) (c : Containment) (p : Nat) : Decidable (Covers length c p) :=
  inferInstanceAs (Decidable (_ ∧ _))

/-- The number of reads covering position `p`. -/
def coverDepth (records : Array Containment) (length p : Nat) : Nat :=
  records.toList.countP fun c => Covers length c p

/-- The number of reads covering the position before `p`, and 0 before the first. -/
def depthBefore (records : Array Containment) (length : Nat) : Nat → Nat
  | 0 => 0
  | p + 1 => coverDepth records length p

/-- The reads whose clamped place is not empty and starts at `q`. -/
def startsAt (records : List Containment) (length q : Nat) : Nat :=
  records.countP fun c => min c.hostStart length = q ∧ min c.hostStart length < min c.hostEnd length

/-- The reads whose clamped place is not empty and ends at `q`. -/
def stopsAt (records : List Containment) (length q : Nat) : Nat :=
  records.countP fun c => min c.hostEnd length = q ∧ min c.hostStart length < min c.hostEnd length

/-- One read's change to the difference array. -/
def depthStep (length : Nat) (delta : Array Int) (c : Containment) : Array Int :=
  let start := min c.hostStart length
  let stop := min c.hostEnd length
  if start < stop then (delta.modify start (· + 1)).modify stop (· - 1) else delta

theorem depthChanges_eq (records : Array Containment) (length : Nat) :
    depthChanges records length =
      records.toList.foldl (depthStep length) (Array.replicate (length + 1) 0) := by
  rw [Array.foldl_toList]
  rfl

@[simp] theorem size_depthStep (length : Nat) (delta : Array Int) (c : Containment) :
    (depthStep length delta c).size = delta.size := by
  unfold depthStep
  dsimp only
  split <;> simp

/-- One read adds one where its clamped place starts and takes one off where it ends. -/
theorem getD_depthStep {length : Nat} {delta : Array Int} (hsize : delta.size = length + 1)
    (c : Containment) (q : Nat) :
    (depthStep length delta c).getD q 0 = delta.getD q 0 +
      ((if min c.hostStart length = q ∧ min c.hostStart length < min c.hostEnd length then 1 else 0) -
        (if min c.hostEnd length = q ∧ min c.hostStart length < min c.hostEnd length then 1 else 0)) := by
  unfold depthStep
  dsimp only
  split
  · next hlt =>
    simp only [Array.getD_eq_getD_getElem?, Array.getElem?_modify]
    by_cases hq : q < delta.size
    · simp only [Array.getElem?_eq_getElem hq]
      split_ifs <;> simp <;> omega
    · rw [Array.getElem?_eq_none (by omega)]
      split_ifs <;> simp_all <;> omega
  · next hle => simp [hle]

/-- Entry `q` of the difference array: the reads starting there less those ending there. -/
theorem getD_depthChanges (records : Array Containment) (length q : Nat) :
    (depthChanges records length).getD q 0 =
      (startsAt records.toList length q : Int) - stopsAt records.toList length q := by
  rw [depthChanges_eq]
  -- the fold adds each read's change to an array that keeps the size `length + 1`
  suffices h : ∀ (l : List Containment) (delta : Array Int), delta.size = length + 1 →
      (l.foldl (depthStep length) delta).getD q 0 =
        delta.getD q 0 + ((startsAt l length q : Int) - stopsAt l length q) by
    rw [h _ _ (by simp)]
    simp only [Array.getD_eq_getD_getElem?, Array.getElem?_replicate]
    split <;> simp
  intro l
  induction l with
  | nil => simp [startsAt, stopsAt]
  | cons c l ih =>
    intro delta hsize
    rw [List.foldl_cons, ih _ (by rw [size_depthStep, hsize]), getD_depthStep hsize]
    simp only [startsAt, stopsAt, List.countP_cons, decide_eq_true_eq]
    push_cast
    split_ifs <;> omega

/-- One read covers `p + 1` exactly when it covers `p` or starts at `p + 1`, and does not end
there. -/
theorem countP_covers_succ (l : List Containment) (length p : Nat) :
    ((l.countP fun c => Covers length c (p + 1) : Nat) : Int) =
      (l.countP fun c => Covers length c p : Nat) + ((startsAt l length (p + 1) : Int) -
        stopsAt l length (p + 1)) := by
  induction l with
  | nil => simp [startsAt, stopsAt]
  | cons c l ih =>
    simp only [startsAt, stopsAt, List.countP_cons, decide_eq_true_eq] at ih ⊢
    push_cast
    split_ifs <;> simp only [Covers] at * <;> omega

/-- The reads covering the first position are those starting there. -/
theorem countP_covers_zero (l : List Containment) (length : Nat) :
    ((l.countP fun c => Covers length c 0 : Nat) : Int) =
      (startsAt l length 0 : Int) - stopsAt l length 0 := by
  induction l with
  | nil => simp [startsAt, stopsAt]
  | cons c l ih =>
    simp only [startsAt, stopsAt, List.countP_cons, decide_eq_true_eq] at ih ⊢
    push_cast
    split_ifs <;> simp only [Covers] at * <;> omega

/-- The reads covering `p` are those covering the position before it, with those starting at
`p` and without those ending there. -/
theorem depthBefore_add (records : Array Containment) (length p : Nat) :
    (depthBefore records length p : Int) + (depthChanges records length).getD p 0 =
      coverDepth records length p := by
  rw [getD_depthChanges]
  cases p with
  | zero =>
    simp only [depthBefore, coverDepth, countP_covers_zero]
    omega
  | succ p =>
    simp only [depthBefore, coverDepth, countP_covers_succ]

theorem coverDepth_eq_zero {records : Array Containment} {length p : Nat} :
    coverDepth records length p = 0 ↔ ∀ c ∈ records, ¬ Covers length c p := by
  simp [coverDepth]

/-! ## Gaps -/

/-- Position `p` of a host of length `length` is an internal gap: at least `margin` away from
both ends, covered by no read, with at least `depth` reads wholly before it and as many wholly
after it. -/
def GapAt (records : Array Containment) (length margin depth p : Nat) : Prop :=
  margin ≤ p ∧ p + margin < length ∧ (∀ c ∈ records, ¬ Covers length c p) ∧
    depth ≤ (records.filter fun c => c.hostEnd ≤ p).size ∧
    depth ≤ (records.filter fun c => p < c.hostStart).size

instance (records : Array Containment) (length margin depth p : Nat) :
    Decidable (GapAt records length margin depth p) :=
  inferInstanceAs (Decidable (_ ∧ _))

/-- The reads lying in a host of length `length` leave an internal gap a tenth of the length
away from each end, and there are at least twice `max depth 1` of them. -/
def HasGap (records : Array Containment) (length depth : Nat) : Prop :=
  2 * max depth 1 ≤ records.size ∧ ∃ p, GapAt records length (0.1 * length.toFloat).toWord depth p

theorem GapAt.lt {records : Array Containment} {length margin depth p : Nat}
    (h : GapAt records length margin depth p) : p < length := by
  have := h.2.1
  omega

instance (records : Array Containment) (length depth : Nat) :
    Decidable (HasGap records length depth) :=
  decidable_of_iff (2 * max depth 1 ≤ records.size ∧
      ∃ p, p < length ∧ GapAt records length (0.1 * length.toFloat).toWord depth p)
    (and_congr_right fun _ => ⟨fun ⟨p, _, hp⟩ => ⟨p, hp⟩, fun ⟨p, hp⟩ => ⟨p, hp.lt, hp⟩⟩)

theorem gapAt_iff {records : Array Containment} {length margin depth p : Nat} :
    GapAt records length margin depth p ↔
      margin ≤ p ∧ p + margin < length ∧ coverDepth records length p = 0 ∧
        flanksDeep records depth p = true := by
  simp [GapAt, coverDepth_eq_zero, flanksDeep]

/-- Along a stretch of positions that no read covers, no read whose place starts before it ends
can end or start: the same reads lie wholly on each side of every position of the stretch. -/
theorem flanksDeep_eq_of_uncovered {records : Array Containment} {length depth q p : Nat}
    (hproper : ∀ c ∈ records, c.hostStart < c.hostEnd) (hqp : q ≤ p) (hp : p < length)
    (hunc : ∀ r, q ≤ r → r ≤ p → ∀ c ∈ records, ¬ Covers length c r) :
    flanksDeep records depth q = flanksDeep records depth p := by
  -- a read ending in `(q, p]` covers the position before its end
  have hleft : ∀ c ∈ records, decide (c.hostEnd ≤ q) = decide (c.hostEnd ≤ p) := by
    intro c hc
    have := hproper c hc
    have := hunc (c.hostEnd - 1)
    simp only [Covers] at this
    by_cases h : c.hostEnd ≤ q <;> by_cases h' : c.hostEnd ≤ p <;> simp only [h, h'] <;> grind
  -- a read starting in `(q, p]` covers its first position
  have hright : ∀ c ∈ records, decide (q < c.hostStart) = decide (p < c.hostStart) := by
    intro c hc
    have := hproper c hc
    have := hunc c.hostStart
    simp only [Covers] at this
    by_cases h : q < c.hostStart <;> by_cases h' : p < c.hostStart <;> simp only [h, h'] <;> grind
  have hl : (records.filter fun c => c.hostEnd ≤ q) = records.filter fun c => c.hostEnd ≤ p := by
    refine Array.toList_inj.1 ?_
    simp only [Array.toList_filter]
    exact List.filter_congr fun c hc => hleft c (Array.mem_toList_iff.1 hc)
  have hr : (records.filter fun c => q < c.hostStart) = records.filter fun c => p < c.hostStart := by
    refine Array.toList_inj.1 ?_
    simp only [Array.toList_filter]
    exact List.filter_congr fun c hc => hright c (Array.mem_toList_iff.1 hc)
  simp only [flanksDeep, hl, hr]

/-! ## The scan -/

/-- The uncovered stretch running up to `pos` was checked at a position whose flanks fell short. -/
def StretchChecked (records : Array Containment) (length depth pos : Nat) : Prop :=
  ∃ q < pos, flanksDeep records depth q = false ∧
    ∀ r, q ≤ r → r < pos → coverDepth records length r = 0

theorem exists_gap_succ {G : Nat → Prop} {pos : Nat} (h : ¬ G pos) :
    (∃ p, pos + 1 ≤ p ∧ G p) ↔ ∃ p, pos ≤ p ∧ G p := by
  constructor
  · rintro ⟨p, hp, hg⟩
    exact ⟨p, by omega, hg⟩
  · rintro ⟨p, hp, hg⟩
    refine ⟨p, ?_, hg⟩
    rcases Nat.lt_or_eq_of_le hp with hp | rfl
    · exact hp
    · exact absurd hg h

section scan

variable {records : Array Containment} {length margin depth : Nat}

/-- The scan from `pos` on, started with the running depth before `pos`, finds a gap exactly
when there is one at `pos` or later. Where it skips a position of a stretch already checked, the
flanks there are those of the checked position. -/
theorem scanGaps_iff (hproper : ∀ c ∈ records, c.hostStart < c.hostEnd) :
    ∀ fuel pos (checked : Bool), length ≤ pos + fuel →
      (checked = true → StretchChecked records length depth pos) →
      (scanGaps records (depthChanges records length) length margin depth fuel pos
          (depthBefore records length pos) checked = true ↔
        ∃ p, pos ≤ p ∧ GapAt records length margin depth p) := by
  intro fuel
  induction fuel with
  | zero =>
    intro pos checked hfuel _
    simp only [scanGaps, Bool.false_eq_true, false_iff, not_exists, not_and]
    intro p hp hgap
    have := hgap.lt
    omega
  | succ fuel ih =>
    intro pos checked hfuel hchk
    rw [scanGaps]
    by_cases hend : length ≤ pos
    · simp only [if_pos hend, Bool.false_eq_true, false_iff, not_exists, not_and]
      intro p hp hgap
      have := hgap.lt
      omega
    rw [if_neg hend]
    dsimp only
    rw [depthBefore_add]
    -- the next call starts with the depth before `pos + 1`
    have ih' := fun checked hchk => ih (pos + 1) checked (by omega) hchk
    simp only [depthBefore] at ih'
    by_cases hcov : 0 < (coverDepth records length pos : Int)
    · -- `pos` is covered: no gap there, and the next stretch is not checked yet
      rw [if_pos hcov, ih' false (fun h => nomatch h)]
      refine exists_gap_succ fun hgap => ?_
      have := (gapAt_iff.1 hgap).2.2.1
      omega
    rw [if_neg hcov]
    have hzero : coverDepth records length pos = 0 := by omega
    by_cases hskip : (checked || decide (pos < margin) || decide (length ≤ pos + margin)) = true
    · rw [if_pos hskip]
      simp only [Bool.or_eq_true, decide_eq_true_eq] at hskip
      -- a checked stretch goes on through `pos`, whose flanks are those checked
      have hnext : checked = true → StretchChecked records length depth (pos + 1) := by
        intro hc
        obtain ⟨q, hq, hflank, hunc⟩ := hchk hc
        refine ⟨q, by omega, hflank, fun r hqr hr => ?_⟩
        rcases Nat.lt_or_eq_of_le (Nat.le_of_lt_succ hr) with hr | rfl
        · exact hunc r hqr hr
        · exact hzero
      rw [ih' checked hnext]
      refine exists_gap_succ fun hgap => ?_
      obtain ⟨hm, hl, -, hflanks⟩ := gapAt_iff.1 hgap
      rcases hskip with (hc | hm') | hl'
      · obtain ⟨q, hq, hflank, hunc⟩ := hchk hc
        have hpos : pos < length := by omega
        have heq : flanksDeep records depth q = flanksDeep records depth pos :=
          flanksDeep_eq_of_uncovered hproper (Nat.le_of_lt hq) hpos fun r hqr hr c hc' => by
            rcases Nat.lt_or_eq_of_le hr with hr | rfl
            · exact coverDepth_eq_zero.1 (hunc r hqr hr) c hc'
            · exact coverDepth_eq_zero.1 hzero c hc'
        rw [← heq, hflank] at hflanks
        nomatch hflanks
      · omega
      · omega
    · rw [if_neg hskip]
      simp only [Bool.or_eq_true, decide_eq_true_eq, not_or] at hskip
      obtain ⟨⟨-, hm⟩, hl⟩ := hskip
      by_cases hflanks : flanksDeep records depth pos = true
      · -- a gap at `pos`
        simp only [if_pos hflanks, true_iff]
        exact ⟨pos, Nat.le_refl pos, gapAt_iff.2 ⟨by omega, by omega, hzero, hflanks⟩⟩
      · -- the stretch is now checked at `pos`
        rw [if_neg hflanks, ih' true fun _ => ⟨pos, by omega, by simpa using hflanks,
          fun r hr hr' => by rw [show r = pos by omega]; exact hzero⟩]
        refine exists_gap_succ fun hgap => hflanks (gapAt_iff.1 hgap).2.2.2

/-- The gap test answers whether the reads leave an internal gap, once every read starts before
it ends and twice the flank depth fits a word. -/
theorem hasInternalGap_eq (hproper : ∀ c ∈ records, c.hostStart < c.hostEnd) (hd : depth < 2 ^ 63) :
    hasInternalGap records length depth = .ok (decide (HasGap records length depth)) := by
  have hfit : 2 * max depth 1 < 2 ^ 64 := by omega
  simp only [hasInternalGap, checkedMul, Nat.pow_eq, if_pos hfit, bind, Except.bind, pure, Except.pure]
  by_cases hfew : records.size < 2 * max depth 1
  · have hno : ¬ HasGap records length depth := fun h => by
      have := h.1
      omega
    simp [hfew, hno]
  by_cases hempty : length = 0
  · -- a host of length 0 has no position away from its ends
    subst hempty
    have hno : ¬ HasGap records 0 depth := fun ⟨_, p, hp⟩ => by
      have := hp.lt
      omega
    simp only [decide_true, Bool.or_true, if_true, Except.ok.injEq]
    exact (decide_eq_false hno).symm
  have hscan : scanGaps records (depthChanges records length) length
      (0.1 * length.toFloat).toWord depth length 0 0 false = true ↔
      ∃ p, 0 ≤ p ∧ GapAt records length (0.1 * length.toFloat).toWord depth p :=
    scanGaps_iff hproper length 0 false (by omega) (fun h => nomatch h)
  simp only [hfew, hempty, decide_false, Bool.or_false, Bool.false_eq_true, if_false,
    Except.ok.injEq]
  refine Bool.eq_iff_iff.2 (hscan.trans ?_)
  rw [decide_eq_true_iff]
  exact ⟨fun ⟨p, _, hp⟩ => ⟨by omega, p, hp⟩, fun ⟨_, p, hp⟩ => ⟨p, Nat.zero_le p, hp⟩⟩

end scan

/-! ## Flagging the hosts -/

/-- The graph with the chimeric flag of every host in `hosts` set, and nothing else changed. -/
def flagHosts (g : AssemblyGraph) (hosts : List Nat) : AssemblyGraph :=
  { g with chimeric := g.chimeric.mapIdx fun h b => b || decide (h ∈ hosts) }

variable {g : AssemblyGraph}

@[simp] theorem flagHosts_lengths (hosts : List Nat) : (g.flagHosts hosts).lengths = g.lengths := rfl
@[simp] theorem flagHosts_byHost (hosts : List Nat) : (g.flagHosts hosts).byHost = g.byHost := rfl
@[simp] theorem length?_flagHosts (hosts : List Nat) (s : Nat) :
    (g.flagHosts hosts).length? s = g.length? s := rfl
@[simp] theorem containedIn_flagHosts (hosts : List Nat) (s : Nat) :
    (g.flagHosts hosts).containedIn s = g.containedIn s := rfl

theorem flagHosts_nil (g : AssemblyGraph) : g.flagHosts [] = g := by
  have : g.chimeric.mapIdx (fun h b => b || decide (h ∈ ([] : List Nat))) = g.chimeric :=
    Array.ext (by simp) fun i _ _ => by simp
  simp only [flagHosts, this]

/-- A host's flag is set when it was set before or the host is one of `hosts` within the flags. -/
theorem isChimeric_flagHosts (hosts : List Nat) (s : Nat) :
    (g.flagHosts hosts).isChimeric s = (g.isChimeric s || (decide (s ∈ hosts) && decide (s < g.chimeric.size))) := by
  simp only [isChimeric, flagHosts, Array.getD_eq_getD_getElem?, Array.getElem?_mapIdx]
  by_cases hs : s < g.chimeric.size
  · simp [hs]
  · simp [hs]

/-- Flagging one more host is flagging it with the others. -/
theorem markChimeric_flagHosts (hosts : List Nat) (s : Nat) :
    (g.flagHosts hosts).markChimeric s = g.flagHosts (hosts ++ [s]) := by
  unfold markChimeric flagHosts
  split
  · next hs =>
    congr 1
    refine Array.ext (by simp) fun i h₁ h₂ => ?_
    have hi : i < g.chimeric.size := by simpa using h₂
    simp only [Array.set!, List.mem_append, List.mem_singleton]
    rw [Array.getElem_setIfInBounds (by simpa using hi)]
    by_cases his : s = i
    · subst his
      simp
    · have : i ≠ s := fun h => his h.symm
      simp [his, this]
  · next hs =>
    congr 1
    refine Array.ext (by simp) fun i h₁ h₂ => ?_
    simp only [Array.size_mapIdx] at h₁ hs
    have : i ≠ s := by omega
    simp [this]

/-- A fold whose step, at a host not yet seen, flags it exactly when `P` holds of it flags,
across hosts in no particular state, those of the list that `P` holds of. -/
theorem foldlM_flagHosts {ε : Type}
    {step : List Nat × AssemblyGraph → Nat → Except ε (List Nat × AssemblyGraph)} (P : Nat → Bool)
    (hstep : ∀ flagged host, host ∉ flagged → step (flagged, g.flagHosts flagged) host =
      .ok (if P host then (flagged ++ [host], g.flagHosts (flagged ++ [host]))
        else (flagged, g.flagHosts flagged))) :
    ∀ (l flagged : List Nat) (g' : AssemblyGraph), g' = g.flagHosts flagged → l.Nodup →
      (∀ h ∈ l, h ∉ flagged) →
      l.foldlM step (flagged, g') = .ok (flagged ++ l.filter P, g.flagHosts (flagged ++ l.filter P)) := by
  intro l
  induction l with
  | nil => intro flagged g' hg _ _; simp [hg, pure, Except.pure]
  | cons h l ih =>
    intro flagged g' hg hnd hfresh
    obtain ⟨hhl, hnd⟩ := List.nodup_cons.1 hnd
    rw [List.foldlM_cons, hg, hstep flagged h (hfresh h List.mem_cons_self)]
    simp only [bind, Except.bind]
    -- the hosts still to come are neither `h` nor any host flagged before
    have hfresh' : ∀ flagged', flagged' = flagged ∨ flagged' = flagged ++ [h] →
        ∀ x ∈ l, x ∉ flagged' := by
      rintro flagged' (rfl | rfl) x hx
      · exact hfresh x (List.mem_cons_of_mem h hx)
      · simp only [List.mem_append, List.mem_singleton, not_or]
        exact ⟨hfresh x (List.mem_cons_of_mem h hx), fun hxh => hhl (hxh ▸ hx)⟩
    by_cases hP : P h = true
    · simp only [if_pos hP, List.filter_cons_of_pos hP]
      rw [ih _ _ rfl hnd (hfresh' _ (.inr rfl)), List.append_assoc, List.singleton_append]
    · simp only [if_neg hP, List.filter_cons_of_neg hP]
      exact ih _ _ rfl hnd (hfresh' _ (.inl rfl))

/-- Detection runs the gap test on the reads of each host, in increasing order, that is not
chimeric yet and has a known length. When every read starts before it ends and twice the depth
fits a word, the test answers exactly whether the reads leave an internal gap; so detection
flags, and answers in increasing order, exactly the hosts not yet chimeric whose reads leave
one, and changes nothing but their flags. -/
theorem detectChimeric_flags (g : AssemblyGraph) {depth : Nat} (hd : depth < 2 ^ 63)
    (hproper : ∀ host, ∀ c ∈ g.containedIn host, c.hostStart < c.hostEnd) :
    (∀ (records : Array Containment) (length : Nat), (∀ c ∈ records, c.hostStart < c.hostEnd) →
      hasInternalGap records length depth = .ok (decide (HasGap records length depth))) ∧
    ∃ flagged, g.detectChimeric depth = .ok (flagged, g.flagHosts flagged) ∧
      flagged.Pairwise (· < ·) ∧
      ∀ host, host ∈ flagged ↔ host ∈ g.byHost ∧ g.isChimeric host = false ∧
        ∃ length, g.length? host = some length ∧ HasGap (g.containedIn host) length depth := by
  refine ⟨fun records length h => hasInternalGap_eq h hd, ?_⟩
  -- the hosts flagged: not chimeric yet, of known length, with a gap
  let P : Nat → Bool := fun host => !g.isChimeric host &&
    (g.length? host).any fun length => decide (HasGap (g.containedIn host) length depth)
  refine ⟨g.byHost.keys.filter P, ?_, ?_, fun host => ?_⟩
  · unfold detectChimeric
    refine (foldlM_flagHosts (g := g) P ?_ g.byHost.keys [] g (flagHosts_nil g).symm
      Std.TreeMap.nodup_keys (fun _ _ h => nomatch h)).trans (by rw [List.nil_append])
    intro flagged host hnot
    simp only [isChimeric_flagHosts, hnot, decide_false, Bool.false_and, Bool.or_false,
      length?_flagHosts, containedIn_flagHosts]
    cases hc : g.isChimeric host
    · cases hl : g.length? host with
      | none => simp [P, hc, hl, pure, Except.pure]
      | some length =>
        simp only [P, hc, hl, hasInternalGap_eq (hproper host) hd, bind, Except.bind, pure,
          Except.pure, markChimeric_flagHosts, Option.any_some, Bool.not_false, Bool.true_and]
        by_cases hgap : HasGap (g.containedIn host) length depth <;> simp [hgap]
    · simp [P, hc, pure, Except.pure]
  · exact (Std.TreeMap.ordered_keys.imp Nat.compare_eq_lt.mp).filter P
  · simp only [List.mem_filter, Std.TreeMap.mem_keys, P, Bool.and_eq_true, Bool.not_eq_true']
    cases g.length? host <;> simp

theorem detectChimeric_flags_sample :
    2 < 2 ^ 63 ∧ (∀ host, ∀ c ∈ sample.containedIn host, c.hostStart < c.hostEnd) ∧
    (∀ (records : Array Containment) (length : Nat), (∀ c ∈ records, c.hostStart < c.hostEnd) →
      hasInternalGap records length 2 = .ok (decide (HasGap records length 2))) ∧
    ∃ flagged, sample.detectChimeric 2 = .ok (flagged, sample.flagHosts flagged) ∧
      flagged.Pairwise (· < ·) ∧
      ∀ host, host ∈ flagged ↔ host ∈ sample.byHost ∧ sample.isChimeric host = false ∧
        ∃ length, sample.length? host = some length ∧ HasGap (sample.containedIn host) length 2 := by
  -- the one record lies at 20 .. 50 of its host
  have hproper : ∀ host, ∀ c ∈ sample.containedIn host, c.hostStart < c.hostEnd := by
    intro host c hc
    rw [containedIn_sample] at hc
    split at hc
    · rw [Array.mem_singleton] at hc
      subst hc
      decide
    · nomatch hc
  exact ⟨by decide, hproper, detectChimeric_flags sample (by decide) hproper⟩

end AssemblyGraph

end OverlapLayout
