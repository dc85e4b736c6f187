import Mathlib
import OverlapLayout.Assembly.Builder
import OverlapLayout.Proofs.Success
import OverlapLayout.Proofs.Assembly.Built
import OverlapLayout.Proofs.Layout.Run
/-!
  Which violated checks a build can meet.

  The failures of each step are bounded by `FailsOnly`, and those of a build are read off its
  steps.

  * `rescore_failsOnly`: rescoring stops only where the statistics library refuses a χ² tail.
  * `detectChimeric_failsOnly`: chimeric detection stops only where twice the flank depth
    overflows a word. `detectChimeric_of_overflow` says when it then does: unless every host
    is chimeric already or of unknown length, and otherwise it changes nothing.
  * `Discovery.index_failsOnly` and the other phases: a violated check inside a phase is an
    interruption, and only a failed allocation escapes it.
  * `build_panic_cases`: these, and a failed allocation, are the only violated checks of a
    build; a failure inside a phase, or of the settings, is reported.
-/

namespace OverlapLayout

/-- A fault is reported, or is a violated check that `P` allows. -/
def Fault.PanicsOnly (P : Panic → Prop) : Fault → Prop
  | .error _ => True
  | .panic p => P p

namespace FailsOnly

variable {α : Type}

/-- A reported failure is allowed whatever violated checks are. -/
theorem reported {P : Panic → Prop} (x : Except LayoutError α) :
    FailsOnly (Fault.PanicsOnly P) (x.mapError .error) :=
  mapError (E := fun _ => True) (fun _ _ => trivial) fun _ _ => trivial

end FailsOnly

/-- A fold whose every step from `s` either keeps `s` or stops with `e`, as `P` decides,
keeps `s` when `P` holds all along the list and stops with `e` otherwise. -/
theorem foldlM_eq_of_step {ε α β : Type} {P : α → Prop} [DecidablePred P]
    {f : β → α → Except ε β} {s : β} {e : ε}
    (hf : ∀ a, f s a = if P a then .ok s else .error e) :
    ∀ l : List α, l.foldlM f s = if ∀ a ∈ l, P a then .ok s else .error e
  | [] => by simp [pure, Except.pure]
  | a :: l => by
    rw [List.foldlM_cons, hf a]
    by_cases ha : P a
    · simp [ha, bind, Except.bind, foldlM_eq_of_step hf l]
    · simp [ha, bind, Except.bind]

/-! ## Rescoring -/

/-- A violated check the statistics library makes: a χ² tail it refuses. -/
def Distributions.Refuses (dist : Distributions) (p : Panic) : Prop :=
  ∃ x, dist.chiSquaredTail x = .error p

theorem chiSquaredTail_failsOnly (dist : Distributions) (x : Float) :
    FailsOnly dist.Refuses (dist.chiSquaredTail x) :=
  fun _ hp => ⟨x, hp⟩

/-- A cost is refused only where the statistics library refuses a χ² tail. -/
theorem ScoreModel.cost_failsOnly (dist : Distributions) (m : ScoreModel) (r : Relationship)
    (fits : FeatureFits) : FailsOnly dist.Refuses (m.cost dist r fits) := by
  unfold cost featureCosts
  exact ((chiSquaredTail_failsOnly dist _).bind fun _ => .pure _).bind fun _ => .pure _

namespace AssemblyGraph

theorem rescore_failsOnly (g : AssemblyGraph) (dist : Distributions) (m : ScoreModel) :
    FailsOnly dist.Refuses (g.rescore dist m) := by
  unfold rescore ScoreModel.rescoreEdge ScoreModel.rescoreContainment
  dsimp only
  -- the edges, then the records by sequence and by host
  refine (FailsOnly.arrayMapM (fun e? => ?_) _).bind fun _ =>
    (FailsOnly.treeMapFoldlM (fun _ _ l => ?_) _ _).bind fun _ =>
    (FailsOnly.treeMapFoldlM (fun _ _ l => ?_) _ _).bind fun _ => .pure _
  · split
    · split
      · exact .pure _
      · exact ((m.cost_failsOnly dist _ _).bind fun _ => .pure _).map _
    · exact .pure _
  all_goals
    exact (FailsOnly.arrayMapM (fun _ => (m.cost_failsOnly dist _ _).bind fun _ => .pure _) l).bind
      fun _ => .pure _

/-! ## Chimeric hosts -/

section chimeric

variable (records : Array Containment) (length : Nat) {depth : Nat}

theorem hasInternalGap_ok (h : depth < 2 ^ 63) :
    ∃ b, hasInternalGap records length depth = .ok b := by
  have hfit : 2 * max depth 1 < 2 ^ 64 := by omega
  simp only [hasInternalGap, checkedMul, Nat.pow_eq, if_pos hfit, bind, Except.bind]
  split <;> exact ⟨_, rfl⟩

/-- The count of reads a gap needs, twice the flank depth, overflows a word from `2 ^ 63` on,
before the reads are looked at. -/
theorem hasInternalGap_overflow (h : 2 ^ 63 ≤ depth) :
    hasInternalGap records length depth = .error .mulOverflow := by
  have hover : ¬ 2 * max depth 1 < 2 ^ 64 := by omega
  simp only [hasInternalGap, checkedMul, Nat.pow_eq, if_neg hover]
  rfl

theorem hasInternalGap_failsOnly (depth : Nat) :
    FailsOnly (fun p => p = .mulOverflow ∧ 2 ^ 63 ≤ depth)
      (hasInternalGap records length depth) := by
  by_cases h : depth < 2 ^ 63
  · obtain ⟨b, hb⟩ := hasInternalGap_ok records length h
    rw [hb]
    exact .pure b
  · rw [hasInternalGap_overflow records length (Nat.le_of_not_lt h)]
    exact .throw ⟨rfl, Nat.le_of_not_lt h⟩

end chimeric

theorem detectChimeric_failsOnly (g : AssemblyGraph) (depth : Nat) :
    FailsOnly (fun p => p = .mulOverflow ∧ 2 ^ 63 ≤ depth) (g.detectChimeric depth) := by
  unfold detectChimeric
  refine FailsOnly.foldlM (fun ⟨flagged, g⟩ host => ?_) _ _
  dsimp only
  split
  · exact .pure _
  split
  · exact .pure _
  · exact (hasInternalGap_failsOnly _ _ _).bind fun gap => by split <;> exact .pure _

/-- With a flank depth whose double overflows a word, detection stops at the first host that
is not chimeric yet and has a known length; if there is none, it flags nothing. -/
theorem detectChimeric_of_overflow (g : AssemblyGraph) {depth : Nat} (h : 2 ^ 63 ≤ depth) :
    g.detectChimeric depth =
      if ∀ host ∈ g.byHost.keys, g.isChimeric host = true ∨ g.length? host = none then
        .ok ([], g)
      else .error .mulOverflow := by
  unfold detectChimeric
  refine foldlM_eq_of_step (fun host => ?_) _
  dsimp only
  by_cases hc : g.isChimeric host = true
  · simp [hc, pure, Except.pure]
  · cases g.length? host with
    | none => simp [hc, pure, Except.pure]
    | some length => simp [hc, hasInternalGap_overflow _ _ h, bind, Except.bind]

/-- The sample graph, whose read 2 lies inside read 1, with a flank depth of `2 ^ 63`: detection
reaches read 1, a host of known length that is not chimeric, and overflows. -/
theorem detectChimeric_sample_overflows :
    sample.detectChimeric (2 ^ 63) = .error .mulOverflow := by
  rw [detectChimeric_of_overflow sample le_rfl, if_neg]
  intro h
  have hhost : 1 ∈ sample.byHost.keys := by
    rw [sample_fields.2.2.1]
    decide
  rcases h 1 hhost with hc | hl
  · simp [isChimeric, sample_fields.2.1] at hc
  · simp [length?, sample_fields.1] at hl

end AssemblyGraph

/-! ## The phases -/

/-- A failed allocation, which aborts the program whatever the phase. -/
def Panic.Aborts (p : Panic) : Prop := ∃ n, p = .allocationFailed n

theorem Panic.panicsOnly_inPhase (phase : String) (p : Panic) :
    (p.inPhase phase).PanicsOnly Panic.Aborts := by
  cases p with
  | allocationFailed n => exact ⟨n, rfl⟩
  | _ => trivial

theorem Fault.panicsOnly_inPhase (phase : String) (f : Fault) :
    (f.inPhase phase).PanicsOnly Panic.Aborts := by
  cases f with
  | error e => trivial
  | panic p => exact p.panicsOnly_inPhase phase

theorem Fault.PanicsOnly.mono {P Q : Panic → Prop} {f : Fault} (h : f.PanicsOnly P)
    (hPQ : ∀ p, P p → Q p) : f.PanicsOnly Q := by
  cases f with
  | error e => trivial
  | panic p => exact hPQ p h

namespace LayoutConfig

variable (d : Discovery) (ix : SeedIndex) (phase : String)

/-- A phase stops on a violated check of its own only as an interruption: what escapes it is a
failed allocation. -/
theorem Discovery.index_failsOnly (ids : List Nat) :
    FailsOnly (Fault.PanicsOnly Panic.Aborts) (d.index ix phase ids) := by
  unfold Discovery.index
  refine FailsOnly.foldlM (fun ix id => ?_) _ _
  split
  · exact .pure _
  · exact .throw (Fault.panicsOnly_inPhase _ _)

theorem Discovery.relationships_failsOnly (id : Nat) (mode : SearchMode) :
    FailsOnly (Fault.PanicsOnly Panic.Aborts) (d.relationships ix phase id mode) := by
  unfold Discovery.relationships
  split
  · exact .pure _
  -- the two searches, then the inference
  split
  · exact .throw (Fault.panicsOnly_inPhase _ _)
  split
  · exact .throw (Fault.panicsOnly_inPhase _ _)
  split
  · exact .pure _
  · exact .throw (Panic.panicsOnly_inPhase _ _)

theorem Discovery.reserveSlots_failsOnly (ids : List Nat) :
    FailsOnly (Fault.PanicsOnly Panic.Aborts) (d.reserveSlots ids) :=
  FailsOnly.mapError (E := fun _ => True) (fun _ _ => trivial) fun _ _ => trivial

theorem Discovery.discover_failsOnly (ratio : Float) (ids : List Nat) (mode : SearchMode)
    (g : AssemblyGraph) : FailsOnly (Fault.PanicsOnly Panic.Aborts) (d.discover ix ratio phase ids mode g) := by
  unfold Discovery.discover
  exact (d.reserveSlots_failsOnly ids).bind fun _ => FailsOnly.foldlM (fun _ id =>
    (d.relationships_failsOnly ix phase id mode).bind fun _ => .pure _) _ _

theorem Discovery.settle_failsOnly (ids : List Nat) (g : AssemblyGraph) :
    FailsOnly (Fault.PanicsOnly Panic.Aborts) (d.settle ix ids g) := by
  unfold Discovery.settle
  refine (d.reserveSlots_failsOnly ids).bind fun _ => FailsOnly.foldlM (fun _ id => ?_) _ _
  refine (d.relationships_failsOnly ix _ id _).bind fun _ => ?_
  split <;> exact .pure _

end LayoutConfig

/-- The violated checks a build of settings `c` meets with the statistics library `dist`: twice
the flank depth overflowing a word in chimeric detection, which needs a depth of at least
`2 ^ 63`; a χ² tail the library refuses in rescoring; and a failed allocation, which aborts. -/
def LayoutConfig.BuildPanic (dist : Distributions) (c : LayoutConfig) (p : Panic) : Prop :=
  (p = .mulOverflow ∧ 2 ^ 63 ≤ c.minChimericFlankDepth) ∨ dist.Refuses p ∨ p.Aborts

/-- A build meets a violated check only in chimeric detection, where twice the flank depth
overflows a word, in rescoring, where the statistics library refuses a χ² tail, or where an
allocation fails; every other failure, inside a phase or of the settings, is reported. -/
theorem LayoutConfig.build_panic_cases (alloc : Allocator) (dist : Distributions) (c : LayoutConfig)
    (reads : List Read) (estimate : GenomeEstimate) :
    FailsOnly (Fault.PanicsOnly (c.BuildPanic dist)) (c.build alloc dist reads estimate) := by
  -- what escapes a phase is a failed allocation
  have phase : ∀ {α : Type} {x : Except Fault α}, FailsOnly (Fault.PanicsOnly Panic.Aborts) x →
      FailsOnly (Fault.PanicsOnly (c.BuildPanic dist)) x :=
    fun h => h.mono fun _ hf => hf.mono fun _ hp => .inr (.inr hp)
  unfold build
  dsimp only
  refine (FailsOnly.reported _).bind fun lengths => ?_
  split
  · exact .pure _
  -- the settings, the backbone phases and the containment search
  refine (FailsOnly.reported _).bind fun finder => (FailsOnly.reported _).bind fun model =>
    (phase (Discovery.index_failsOnly _ _ _ _)).bind fun ix =>
    (phase (Discovery.discover_failsOnly _ _ _ _ _ _ _)).bind fun g =>
    (phase (Discovery.settle_failsOnly _ _ _ _)).bind fun settled => ?_
  -- chimeric detection, the remaining phases and rescoring
  refine FailsOnly.bind
    (FailsOnly.mapError (settled.1.detectChimeric_failsOnly _) fun _ hp => .inl hp) fun _ =>
    (phase (Discovery.index_failsOnly _ _ _ _)).bind fun _ =>
    (phase (Discovery.discover_failsOnly _ _ _ _ _ _ _)).bind fun g => ?_
  exact FailsOnly.bind (FailsOnly.mapError (g.rescore_failsOnly dist _) fun _ hp => .inr (.inl hp))
    fun _ => .pure _

/-- The violated checks an assembly of settings `c` meets with the statistics library `dist`:
those of its build, and the end test of the layout with a window of `2 ^ 63` or more, which
reads as a negative word. -/
def LayoutConfig.AssemblePanic (dist : Distributions) (c : LayoutConfig) (p : Panic) : Prop :=
  c.BuildPanic dist p ∨ (p = .subOverflow ∧ 2 ^ 63 ≤ c.layout.mergeEndWindow)

/-- For fewer than `2 ^ 31` reads of total length at most a tenth of the largest word, a build
meets a violated check only where `build_panic_cases` says, and an assembly only there or at
the end test of its layout, with a window of `2 ^ 63` or more: its layout then neither counts
a path past a signed word nor sums lengths past a word. -/
theorem LayoutConfig.assemble_panic_cases (alloc : Allocator) (dist : Distributions)
    (c : LayoutConfig) {reads : List Read} (estimate : GenomeEstimate) (hn : reads.length < 2 ^ 31)
    (htotal : (reads.map (·.bases.length)).sum ≤ (2 ^ 64 - 1) / 10) :
    FailsOnly (Fault.PanicsOnly (c.BuildPanic dist)) (c.build alloc dist reads estimate) ∧
      FailsOnly (Fault.PanicsOnly (c.AssemblePanic dist))
        (c.assemble alloc dist reads estimate) := by
  have hbuild := build_panic_cases alloc dist c reads estimate
  refine ⟨hbuild, ?_⟩
  unfold assemble
  refine FailsOnly.bind_of_ok (hbuild.mono fun _ hf => hf.mono fun _ hp => .inl hp)
    fun g hg => ?_
  -- the built graph grows from the reads' lengths and stores no path
  have hgrown := build_grown hg
  have hsize : g.size ≤ 2 ^ 62 := by
    simp only [AssemblyGraph.size, hgrown.lengths_eq, List.size_toArray, List.length_map]
    omega
  have htotal' : g.lengths.toList.sum ≤ (2 ^ 64 - 1) / 10 := by
    simpa [hgrown.lengths_eq] using htotal
  have hlayout := c.layout.findPaths_failsOnly hgrown.reachable hgrown.paths_eq hsize htotal'
  refine FailsOnly.bind (hlayout.mapError fun _ hp => .inr hp) fun r => ?_
  obtain ⟨_, g'⟩ := r
  exact .pure g'

/-- Two reads, one a prefix of the other, with a flank depth of `2 ^ 63`. -/
theorem LayoutConfig.assemble_panic_cases_two_reads :
    [(⟨0, "a", [65, 67, 71, 84]⟩ : Read), ⟨1, "b", [65, 67]⟩].length < 2 ^ 31 ∧
      ([(⟨0, "a", [65, 67, 71, 84]⟩ : Read), ⟨1, "b", [65, 67]⟩].map (·.bases.length)).sum ≤
        (2 ^ 64 - 1) / 10 ∧
      FailsOnly (Fault.PanicsOnly (LayoutConfig.BuildPanic ⟨fun _ => .ok 0, fun _ _ => none⟩
          { minChimericFlankDepth := 2 ^ 63 }))
        (LayoutConfig.build ⟨fun _ => true⟩ ⟨fun _ => .ok 0, fun _ _ => none⟩
          { minChimericFlankDepth := 2 ^ 63 } [⟨0, "a", [65, 67, 71, 84]⟩, ⟨1, "b", [65, 67]⟩]
          ⟨30, 1000⟩) ∧
      FailsOnly (Fault.PanicsOnly (LayoutConfig.AssemblePanic ⟨fun _ => .ok 0, fun _ _ => none⟩
          { minChimericFlankDepth := 2 ^ 63 }))
        (LayoutConfig.assemble ⟨fun _ => true⟩ ⟨fun _ => .ok 0, fun _ _ => none⟩
          { minChimericFlankDepth := 2 ^ 63 } [⟨0, "a", [65, 67, 71, 84]⟩, ⟨1, "b", [65, 67]⟩]
          ⟨30, 1000⟩) :=
  ⟨by decide, by decide, LayoutConfig.assemble_panic_cases _ _ _ _ (by decide) (by decide)⟩

end OverlapLayout
