import Mathlib
import OverlapLayout.Proofs.Graph.Shape
import OverlapLayout.Proofs.Discovery.Geometry
import OverlapLayout.Assembly.Builder
/-!
  What a built read graph holds.

  Every relationship a build adds comes from the search for a read (`Finder.infer`), and so has
  the shape its chain predicts: a containment lies inside its host, an overlap edge overlaps by
  at most the shorter read (`Finder.fits_of_mem_infer`). Around the additions the phases only
  filter, flag hosts, release containments and rescore, and the last one removes the overlap
  edges of every contained read. So the graph a build returns keeps its representation
  invariant, holds only relationships of that shape, each scored by the model, and has no
  overlap edge at a contained read (`build_built`).

  * `AssemblyGraph.Valid`: the invariant a build keeps from phase to phase.
  * `Discovery.discover_preserves`, `Discovery.settle_preserves`, `releaseOrphans_preserves`:
    the phases that add and release relationships keep what adding a relationship that fits,
    filtering and removing keep; so they keep validity.
  * `AssemblyGraph.Built`: what the returned graph holds; `built_start` and `Built.of_rescore`
    give it for the graph of no reads and after the last two phases.
  * `build_built`: every graph a build returns is built.
-/

namespace OverlapLayout

namespace Finder

/-- A relationship placed as a chain of another sequence predicts fits the two sequences. -/
theorem Placed.fits {f : Finder} {q qlen s slen : Nat} {reverse : Bool} {start : Int}
    {r : Relationship} (h : Placed q qlen s slen reverse start r) (hne : s ≠ q)
    (hq : f.length? q = some qlen) (hs : f.length? s = some slen) : r.Fits f.lengths := by
  cases r with
  | edge e =>
    obtain ⟨hpos, hle, hv1, hv2⟩ := h
    have h1 : e.v1.sequence = q := by
      rw [hv1, queryEnd]
      split <;> split <;> rfl
    have h2 : e.v2.sequence = s := by
      rw [hv2]
      split <;> rfl
    refine ⟨by rw [h1, h2]; exact hne.symm, hpos, qlen, slen, ?_, ?_, hle⟩
    · rw [h1]; exact hq
    · rw [h2]; exact hs
  | contained x =>
    obtain ⟨hlt, ⟨hseq, hhost, hend⟩ | ⟨hseq, hhost, hend⟩⟩ := h
    · refine ⟨by rw [hseq, hhost]; exact hne.symm, hlt, slen, ?_, hend⟩
      rw [hhost]; exact hs
    · refine ⟨by rw [hseq, hhost]; exact hne, hlt, qlen, ?_, hend⟩
      rw [hhost]; exact hq

/-- Whatever a search returns fits the sequences: each relationship is a candidate of another
sequence, placed as its cluster predicts. -/
theorem fits_of_mem_infer {f : Finder} {q : Nat} {fwd rev : HitTable} {mode : SearchMode}
    {rs : List Relationship} (h : f.infer q fwd rev mode = .ok rs) {r : Relationship}
    (hr : r ∈ rs) : r.Fits f.lengths := by
  obtain ⟨qlen, hq, s, reverse, r₀, hc, rfl⟩ := mem_infer h hr
  obtain ⟨-, slen, hslen, c, -, start, -, hplaced⟩ := hc.placed
  rw [Relationship.fits_withScores]
  exact hplaced.fits hc.1.1 hq hslen

theorem lengths_new {c : LayoutConfig} {lengths : Array Nat} {f : Finder}
    (h : Finder.new c lengths = .ok f) : f.lengths = lengths := by
  unfold Finder.new at h
  obtain ⟨model, -, h⟩ := bind_ok h
  cases h
  rfl

end Finder

namespace AssemblyGraph

variable {g : AssemblyGraph} {lengths : Array Nat}

/-- A graph of the sequences of `lengths`, with its representation invariant, whose overlap
edges and records fit the sequences. -/
structure Valid (lengths : Array Nat) (g : AssemblyGraph) : Prop where
  inv : g.Inv
  fitted : g.Fitted
  lengths_eq : g.lengths = lengths

theorem lengths_addRelationship (r : Relationship) : (g.addRelationship r).2.lengths = g.lengths := by
  cases r with
  | edge e =>
    unfold addRelationship
    dsimp only
    split
    · rfl
    split
    · split_ifs
      · rfl
      · exact (shrinks_removeEdge g _).lengths
    · rfl
  | contained x =>
    unfold addRelationship
    dsimp only
    split
    · rfl
    split <;> rfl

theorem Valid.addRelationship (hv : g.Valid lengths) {r : Relationship} (hr : r.Fits lengths) :
    (g.addRelationship r).2.Valid lengths :=
  ⟨hv.inv.addRelationship r, hv.fitted.addRelationship (hv.lengths_eq ▸ hr),
    (lengths_addRelationship r).trans hv.lengths_eq⟩

/-- Adding relationships that fit, one after another, keeps the graph valid. -/
theorem Valid.foldl_add (hv : g.Valid lengths) {rs : List Relationship}
    (hrs : ∀ r ∈ rs, r.Fits lengths) :
    (rs.foldl (fun g r => (g.addRelationship r).2) g).Valid lengths :=
  List.foldlRecOn rs _ (motive := fun g : AssemblyGraph => g.Valid lengths) hv
    fun _ hg r hr => hg.addRelationship (hrs r hr)

theorem Valid.shrink (hv : g.Valid lengths) {g' : AssemblyGraph} (hi : g'.Inv)
    (h : g'.Shrinks g) : g'.Valid lengths :=
  ⟨hi, hv.fitted.shrink h, h.lengths.trans hv.lengths_eq⟩

theorem Valid.removeRelationship (hv : g.Valid lengths) (r : Relationship) :
    (g.removeRelationship r).2.Valid lengths :=
  hv.shrink (hv.inv.removeRelationship r) (shrinks_removeRelationship g r)

theorem Valid.filterAround (hv : g.Valid lengths) (s : Nat) (ratio : Float) :
    (g.filterAround s ratio).Valid lengths :=
  hv.shrink (hv.inv.filterAround s ratio) (shrinks_filterAround g s ratio)

theorem Valid.detectChimeric (hv : g.Valid lengths) {depth : Nat} {r : List Nat × AssemblyGraph}
    (h : g.detectChimeric depth = .ok r) : r.2.Valid lengths :=
  hv.shrink (hv.inv.detectChimeric depth h) (shrinks_detectChimeric h)

/-- The graph a build starts from: the new graph of the read lengths, with the expected length
and the ploidy set. -/
theorem valid_start (lengths : Array Nat) (n p : Nat) :
    (((new lengths).setExpectedLength n).setPloidy p).Valid lengths := by
  have hi := inv_new lengths
  refine ⟨⟨hi.arena.of_frame rfl rfl rfl rfl rfl rfl, hi.records, hi.chimeric_size,
    hi.pathOf_size, hi.pathOf_lt⟩, ⟨(fitted_new lengths).edge, (fitted_new lengths).record⟩, ?_⟩
  exact foldl_identities_frame (·.lengths) (fun _ _ _ => rfl) _ 0 _

/-! ## Graphs grown by the operations -/

/-- A graph grown from the new graph of `lengths` by the graph's own operations, none of which
stored a path. -/
structure Grown (lengths : Array Nat) (g : AssemblyGraph) : Prop where
  steps : Relation.ReflTransGen GraphStep (new lengths) g
  paths_eq : g.paths = #[]
  lengths_eq : g.lengths = lengths

theorem Grown.reachable (h : g.Grown lengths) : g.Reachable := ⟨lengths, h.steps⟩

theorem grown_start (lengths : Array Nat) (n p : Nat) :
    (((new lengths).setExpectedLength n).setPloidy p).Grown lengths :=
  ⟨.tail (.tail .refl (.setExpectedLength _ n)) (.setPloidy _ p),
    foldl_identities_frame (·.paths) (fun _ _ _ => rfl) _ 0 _,
    foldl_identities_frame (·.lengths) (fun _ _ _ => rfl) _ 0 _⟩

theorem Grown.addRelationship (h : g.Grown lengths) (r : Relationship) :
    (g.addRelationship r).2.Grown lengths :=
  ⟨h.steps.tail (.addRelationship g r), (paths_addRelationship g r).trans h.paths_eq,
    (lengths_addRelationship r).trans h.lengths_eq⟩

theorem Grown.filterAround (h : g.Grown lengths) (s : Nat) (ratio : Float) :
    (g.filterAround s ratio).Grown lengths :=
  ⟨h.steps.tail (.filterAround g s ratio),
    (frame_filterAround (·.paths) paths_removeEdge (fun _ _ => rfl) g s ratio).trans h.paths_eq,
    (shrinks_filterAround g s ratio).lengths.trans h.lengths_eq⟩

theorem Grown.removeRelationship (h : g.Grown lengths) (r : Relationship) :
    (g.removeRelationship r).2.Grown lengths :=
  ⟨h.steps.tail (.removeRelationship g r),
    (frame_removeRelationship (·.paths) paths_removeEdge (fun _ _ => rfl) g r).trans h.paths_eq,
    (shrinks_removeRelationship g r).lengths.trans h.lengths_eq⟩

theorem Grown.detectChimeric (h : g.Grown lengths) {depth : Nat} {r : List Nat × AssemblyGraph}
    (hd : g.detectChimeric depth = .ok r) : r.2.Grown lengths :=
  ⟨h.steps.tail (.detectChimeric g depth r hd),
    (frame_detectChimeric (·.paths) paths_markChimeric hd).trans h.paths_eq,
    (shrinks_detectChimeric hd).lengths.trans h.lengths_eq⟩

theorem Grown.rescore (h : g.Grown lengths) {dist : Distributions} {m : ScoreModel}
    {g' : AssemblyGraph} (hr : g.rescore dist m = .ok g') : g'.Grown lengths :=
  ⟨h.steps.tail (.rescore g dist m g' hr), (paths_rescore hr).trans h.paths_eq,
    (rescore_lengths hr).trans h.lengths_eq⟩

theorem Grown.pruneContained (h : g.Grown lengths) : g.pruneContained.2.Grown lengths :=
  ⟨h.steps.tail (.pruneContained g),
    (frame_pruneContained (·.paths) paths_removeEdge g).trans h.paths_eq,
    (shrinks_pruneContained g).lengths.trans h.lengths_eq⟩

end AssemblyGraph

namespace LayoutConfig

open AssemblyGraph

variable {d : Discovery} {ix : SeedIndex} {g g' : AssemblyGraph}

/-- The relationships found for a read fit the sequences. -/
theorem Discovery.relationships_fit {phase : String} {id : Nat} {mode : SearchMode}
    {rs : List Relationship} (h : d.relationships ix phase id mode = .ok rs) {r : Relationship}
    (hr : r ∈ rs) : r.Fits d.finder.lengths := by
  unfold Discovery.relationships at h
  split at h
  · -- a read that is not there has no relationship
    cases h
    nomatch hr
  split at h
  · cases h
  split at h
  · cases h
  split at h
  · next rs' hinfer =>
    cases h
    exact Finder.fits_of_mem_infer hinfer hr
  · cases h

section phases

variable (P : AssemblyGraph → Prop)

/-- A property of graphs kept by adding a relationship that fits the reads and by filtering
around a read is kept by a phase of discovery: the relationships of each read fit. -/
theorem Discovery.discover_preserves {ratio : Float} {phase : String} {ids : List Nat}
    {mode : SearchMode} (hadd : ∀ g r, r.Fits d.finder.lengths → P g → P (g.addRelationship r).2)
    (hfilter : ∀ g s, P g → P (g.filterAround s ratio))
    (h : d.discover ix ratio phase ids mode g = .ok g') (hg : P g) : P g' := by
  unfold Discovery.discover at h
  obtain ⟨-, -, h⟩ := bind_ok h
  refine foldlM_ok_induction P ids ?_ g g' hg h
  rintro g₀ id g₁ - hg₀ hstep
  obtain ⟨rs, hrs, hstep⟩ := bind_ok hstep
  simp only [pure, Except.pure, Except.ok.injEq] at hstep
  subst hstep
  exact hfilter _ id (List.foldlRecOn rs _ (motive := P) hg₀
    fun g₂ hg₂ r hr => hadd g₂ r (relationships_fit hrs hr) hg₂)

/-- A property kept by adding a relationship that fits the reads is kept by settling reads: their
containments are relationships found for them. -/
theorem Discovery.settle_preserves {ids : List Nat}
    {r : AssemblyGraph × Std.HashMap Nat (List Relationship)}
    (hadd : ∀ g r, r.Fits d.finder.lengths → P g → P (g.addRelationship r).2)
    (h : d.settle ix ids g = .ok r) (hg : P g) : P r.1 := by
  unfold Discovery.settle at h
  obtain ⟨-, -, h⟩ := bind_ok h
  refine foldlM_ok_induction (fun p : AssemblyGraph × Std.HashMap Nat (List Relationship) => P p.1)
    ids ?_ (g, {}) r hg h
  rintro ⟨g₀, settled⟩ id r₁ - hg₀ hstep
  obtain ⟨rs, hrs, hstep⟩ := bind_ok hstep
  split at hstep
  · simp only [pure, Except.pure, Except.ok.injEq] at hstep
    subst hstep
    exact hg₀
  · simp only [pure, Except.pure, Except.ok.injEq] at hstep
    subst hstep
    exact List.foldlRecOn _ _ (motive := P) hg₀
      fun g₂ hg₂ r hr => hadd g₂ r (relationships_fit hrs (List.mem_filter.mp hr).1) hg₂

/-- A property kept by removing a relationship is kept by releasing the orphaned reads. -/
theorem releaseOrphans_preserves (n : Nat) (settled : Std.HashMap Nat (List Relationship))
    (hrem : ∀ g r, P g → P (g.removeRelationship r).2) (hg : P g) :
    P (releaseOrphans n g settled).1 := by
  unfold LayoutConfig.releaseOrphans
  refine List.foldlRecOn _ _ (motive := fun p : AssemblyGraph × Std.HashMap Nat (List Relationship) =>
    P p.1) hg fun ⟨g₀, settled₀⟩ hg₀ o _ => ?_
  dsimp only
  split
  · exact hg₀
  · split
    · exact List.foldlRecOn _ _ (motive := P) hg₀ fun g₂ hg₂ r _ => hrem g₂ r hg₂
    · exact hg₀

end phases

end LayoutConfig

namespace AssemblyGraph

/-- What a built graph holds, with `m` the scoring model of its settings: its representation
invariant; overlap edges joining two different reads that overlap by at least one base and at
most the shorter read; records, in both maps, that place a read inside another read within its
length; the model's score on every overlap edge and record; and no overlap edge at a contained
read. -/
structure Built (m : ScoreModel) (g : AssemblyGraph) : Prop where
  inv : g.Inv
  fitted : g.Fitted
  hosts_fit : ∀ h x, x ∈ g.containedIn h → x.Fits g.lengths
  scored : g.Scored m
  hosts_scored : ∀ h x, x ∈ g.containedIn h → x.score = m.score (.contained x)
  pruned : g.Pruned

variable {g : AssemblyGraph} {m : ScoreModel}

/-- The records of the host map are those of the sequence map, so what holds of the records of
each sequence holds of those of each host. -/
theorem Built.of_records (hi : g.Inv) (hf : g.Fitted) (hs : g.Scored m) (hp : g.Pruned) :
    g.Built m :=
  ⟨hi, hf, fun _ x hx => hf.record _ x (hi.records.mem_of_mem_byHost hx), hs,
    fun _ x hx => hs.record _ x (hi.records.mem_of_mem_byHost hx), hp⟩

/-- A graph whose overlap edges and records fit, rescored and then pruned of the edges at
contained reads, is built. -/
theorem Built.of_rescore {lengths : Array Nat} (hv : g.Valid lengths) {dist : Distributions}
    {g' : AssemblyGraph} (h : g.rescore dist m = .ok g') : g'.pruneContained.2.Built m := by
  have hi : g'.Inv := hv.inv.rescore dist m h
  have hs := shrinks_pruneContained g'
  exact .of_records hi.pruneContained ((hv.fitted.rescore h).shrink hs)
    ((scored_rescore h).shrink hs) (pruned_pruneContained hi)

/-- The graph of no reads' relationships is built: it has no overlap edge and no record. -/
theorem built_start (lengths : Array Nat) (n p : Nat) :
    (((new lengths).setExpectedLength n).setPloidy p).Built m := by
  have hv := valid_start lengths n p
  have hnone : ∀ id e, (new lengths).edge? id = some e → e.isIdentity = false → False :=
    fun id e he hid => by
      rw [isIdentity_of_edge?_new he] at hid
      cases hid
  refine .of_records hv.inv hv.fitted
    ⟨fun id e he hid => (hnone id e he hid).elim, fun s x hx => ?_⟩
    fun id e he hid => (hnone id e he hid).elim
  have hx : x ∈ (new lengths).containmentsOf s := hx
  rw [containmentsOf_new] at hx
  nomatch hx

end AssemblyGraph

/-- A fold each of whose steps, when it succeeds, pushes a number computed from its element
gives the initial array followed by those numbers. -/
theorem foldlM_push_eq {ε α : Type} (len : α → Nat) {f : Array Nat → α → Except ε (Array Nat)} :
    ∀ (l : List α) (acc res : Array Nat), l.foldlM f acc = .ok res →
      (∀ acc x acc', f acc x = .ok acc' → acc' = acc.push (len x)) →
      res.toList = acc.toList ++ l.map len
  | [], acc, res, h, _ => by cases h; simp
  | x :: l, acc, res, h, hf => by
    obtain ⟨acc', hx, h⟩ := bind_ok h
    rw [foldlM_push_eq len l acc' res h hf, hf acc x acc' hx]
    simp

/-- The lengths read off the reads are theirs, in order. -/
theorem LayoutConfig.readLengths_eq {reads : List Read} {lengths : Array Nat}
    (h : readLengths reads = .ok lengths) : lengths = (reads.map (·.bases.length)).toArray := by
  unfold readLengths at h
  -- each read checked pushes its length
  have hl := foldlM_push_eq (fun x : Read × Nat => x.1.bases.length) _ _ _ h
    fun acc ⟨r, i⟩ acc' hx => by
      dsimp only at hx
      -- the failing checks are closed by splitting; the last one pushes the length
      split_ifs at hx
      cases hx
      rfl
  apply Array.toList_inj.1
  rw [hl, ← List.zipIdx_map_fst 0 reads, List.map_map]
  simp

/-- A build that returns starts from the new graph of the read lengths and, when there are
reads, runs phases that only add relationships fitting the reads, filter around reads, remove
relationships and flag chimeric hosts; then it rescores and prunes. So what those steps keep
holds of the graph it rescores. -/
theorem LayoutConfig.build_run {alloc : Allocator} {dist : Distributions} {c : LayoutConfig}
    {reads : List Read} {estimate : GenomeEstimate} {g : AssemblyGraph}
    (h : c.build alloc dist reads estimate = .ok g) :
    ∃ lengths, readLengths reads = .ok lengths ∧
      (g = ((AssemblyGraph.new lengths).setExpectedLength estimate.expectedLength).setPloidy
          c.ploidy ∨
        ∃ finder model g₅ g₆, Finder.new c lengths = .ok finder ∧
          ScoreModel.new c.secondaryFeaturesWeight = .ok model ∧
          (∀ P : AssemblyGraph → Prop,
            (∀ g r, r.Fits finder.lengths → P g → P (g.addRelationship r).2) →
            (∀ g s, P g → P (g.filterAround s c.filterScoreRatio)) →
            (∀ g r, P g → P (g.removeRelationship r).2) →
            (∀ g r, g.detectChimeric c.minChimericFlankDepth = .ok r → P g → P r.2) →
            P (((AssemblyGraph.new lengths).setExpectedLength estimate.expectedLength).setPloidy
              c.ploidy) →
            P g₅) ∧
          g₅.rescore dist model = .ok g₆ ∧ g = g₆.pruneContained.2) := by
  unfold build at h
  obtain ⟨lengths, hlengths, h⟩ := bind_ok h
  rw [mapError_eq_ok] at hlengths
  refine ⟨lengths, hlengths, ?_⟩
  dsimp only at h
  split at h
  · -- no reads: the graph it starts from
    cases h
    exact .inl rfl
  obtain ⟨finder, hfinder, h⟩ := bind_ok h
  obtain ⟨model, hmodel, h⟩ := bind_ok h
  rw [mapError_eq_ok] at hfinder hmodel
  obtain ⟨ix, -, h⟩ := bind_ok h
  obtain ⟨g₁, h₁, h⟩ := bind_ok h
  obtain ⟨⟨g₂, settled⟩, h₂, h⟩ := bind_ok h
  obtain ⟨⟨flagged, g₃⟩, h₃, h⟩ := bind_ok h
  rw [mapError_eq_ok] at h₃
  dsimp only at h
  obtain ⟨ix', -, h⟩ := bind_ok h
  obtain ⟨g₅, h₅, h⟩ := bind_ok h
  obtain ⟨g₆, h₆, h⟩ := bind_ok h
  rw [mapError_eq_ok] at h₆
  cases h
  refine .inr ⟨finder, model, g₅, g₆, hfinder, hmodel, ?_, h₆, rfl⟩
  -- the phases in order: discovery, settling, chimeric hosts, release, discovery again
  intro P hadd hfilter hrem hchim h₀
  have v₃ := hchim _ _ h₃ (Discovery.settle_preserves P hadd h₂
    (Discovery.discover_preserves P hadd (fun g s => hfilter g s) h₁ h₀))
  exact Discovery.discover_preserves P hadd (fun g s => hfilter g s) h₅
    (releaseOrphans_preserves P _ settled hrem v₃)

/-- The graph a build returns grows from the new graph of the read lengths by the graph's own
operations, and stores no path. -/
theorem LayoutConfig.build_grown {alloc : Allocator} {dist : Distributions} {c : LayoutConfig}
    {reads : List Read} {estimate : GenomeEstimate} {g : AssemblyGraph}
    (h : c.build alloc dist reads estimate = .ok g) :
    g.Grown (reads.map (·.bases.length)).toArray := by
  obtain ⟨lengths, hlengths, rfl | ⟨finder, model, g₅, g₆, -, -, hrun, h₆, rfl⟩⟩ := build_run h
  all_goals rw [← readLengths_eq hlengths]
  · exact AssemblyGraph.grown_start lengths _ _
  · exact ((hrun (·.Grown lengths) (fun _ r _ hg => hg.addRelationship r)
      (fun _ s hg => hg.filterAround s _) (fun _ r hg => hg.removeRelationship r)
      (fun _ _ hd hg => hg.detectChimeric hd) (AssemblyGraph.grown_start lengths _ _)).rescore
      h₆).pruneContained

end OverlapLayout
