import Mathlib
import OverlapLayout.Proofs.Graph.Prune
import OverlapLayout.Proofs.Graph.Placement
import OverlapLayout.Proofs.Float.Scale
/-!
  Filtering around a sequence.

  `filterAround s ratio` drops, of the records of `s` and of the overlap edges at each vertex of
  `s`, those scoring below `ratio` times the best of their group, as the group stood before the
  call. A record is dropped from both containment maps. With `ratio` in `[0, 1]` the best of
  each group survives, since a score read as a double is never below a ratio of itself, so a
  second call with the same ratio drops nothing.

  * `bestScore_eq_some_iff`: the best of a list of scores is its greatest element.
  * `belowRatio_self`: a score is not below a ratio in `[0, 1]` of itself.
  * `WeakAt`, `WeakRecord`: an overlap edge at a vertex, a record of a sequence, scoring below
    `ratio` times the best of its group.
  * `filterRecords`, `filterAround_eq`: the filter as a pass over the records and one pass over
    the edges at each vertex.
  * `Inv.edge?_filterAt`, `Inv.lists_filterRecords`: what each pass keeps.
  * `filterAround_removes_weak`: the filter drops exactly the weak edges and records, leaves the
    best of each group, and a second call changes nothing.
-/

namespace OverlapLayout

namespace AssemblyGraph

variable {g : AssemblyGraph} {ratio : Float} {s : Nat}

/-! ## The best score of a group -/

theorem foldl_bestScore_some (l : List Nat) (b : Nat) :
    l.foldl (fun best s => some (match best with | some b => max b s | none => s)) (some b) =
      some (l.foldl max b) := by
  induction l generalizing b with
  | nil => rfl
  | cons a l ih => exact ih (max b a)

theorem bestScore_eq_max? (l : List Nat) : bestScore l = l.max? := by
  cases l with
  | nil => rfl
  | cons a l => exact foldl_bestScore_some l a

theorem bestScore_eq_some_iff {l : List Nat} {b : Nat} :
    bestScore l = some b ↔ IsGreatest {n | n ∈ l} b := by
  rw [bestScore_eq_max?, List.max?_eq_some_iff]
  rfl

theorem bestScore_eq_none_iff {l : List Nat} : bestScore l = none ↔ l = [] := by
  rw [bestScore_eq_max?, List.max?_eq_none_iff]

/-- A score is never below a ratio in `[0, 1]` of itself. -/
theorem belowRatio_self (h0 : 0 ≤ ratio) (h1 : ratio ≤ 1) (n : Nat) : belowRatio ratio n n = false :=
  decide_eq_false (Float.not_lt_mul_self (Float.plusSigned_ofNat n) h0 h1)

/-! ## Weak edges and records -/

/-- The scores of the live overlap edges at a vertex. -/
def overlapScores (g : AssemblyGraph) (v : Vertex) : Set Nat :=
  {n | ∃ id e, g.edge? id = some e ∧ e.isIdentity = false ∧ e.Touches v ∧ e.score = n}

/-- An overlap edge at `v` scoring below `ratio` times the best overlap score at `v`. -/
def WeakAt (g : AssemblyGraph) (ratio : Float) (v : Vertex) (e : Edge) : Prop :=
  e.isIdentity = false ∧ e.Touches v ∧
    ∃ best, IsGreatest (g.overlapScores v) best ∧ belowRatio ratio best e.score = true

/-- The scores of the records of a sequence. -/
def recordScores (g : AssemblyGraph) (s : Nat) : Set Nat :=
  {n | ∃ c ∈ g.containmentsOf s, c.score = n}

/-- A record of `s` scoring below `ratio` times the best score among the records of `s`. -/
def WeakRecord (g : AssemblyGraph) (ratio : Float) (s : Nat) (c : Containment) : Prop :=
  c.sequence = s ∧ ∃ best, IsGreatest (g.recordScores s) best ∧ belowRatio ratio best c.score = true

theorem Shrinks.overlapScores_subset {g' : AssemblyGraph} (h : g'.Shrinks g) (v : Vertex) :
    g'.overlapScores v ⊆ g.overlapScores v :=
  fun _ ⟨id, e, he, hid, ht, hn⟩ => ⟨id, e, h.edge id e he, hid, ht, hn⟩

theorem Shrinks.recordScores_subset {g' : AssemblyGraph} (h : g'.Shrinks g) (s : Nat) :
    g'.recordScores s ⊆ g.recordScores s :=
  fun _ ⟨c, hc, hn⟩ => ⟨c, h.record s c hc, hn⟩

theorem recordScores_eq (g : AssemblyGraph) (s : Nat) :
    g.recordScores s = {n | n ∈ (g.containmentsOf s).toList.map (·.score)} := by
  ext n
  simp [recordScores]

theorem weakRecord_iff {c : Containment} :
    g.WeakRecord ratio s c ↔ c.sequence = s ∧
      (bestScore ((g.containmentsOf s).toList.map (·.score))).any (belowRatio ratio · c.score) := by
  simp only [WeakRecord, recordScores_eq, ← bestScore_eq_some_iff, Option.any_eq_true]

instance (c : Containment) : Decidable (g.WeakRecord ratio s c) :=
  decidable_of_iff _ weakRecord_iff.symm

/-! ## The filter as three passes -/

/-- The pass over the records of `s`: drops those scoring below `ratio` times the best of them. -/
def filterRecords (g : AssemblyGraph) (s : Nat) (ratio : Float) : AssemblyGraph :=
  match bestScore ((g.containmentsOf s).toList.map (·.score)) with
  | none => g
  | some best =>
    (g.containmentsOf s).foldl (fun g (c : Containment) =>
      if belowRatio ratio best c.score then (g.removeContainment c).2 else g) g

theorem filterAround_eq (hs : s < g.size) :
    g.filterAround s ratio =
      ((g.filterRecords s ratio).filterAt ratio (.startOf s)).filterAt ratio (.endOf s) := by
  have hc : g.contains s = true := by simpa [contains] using hs
  unfold AssemblyGraph.filterAround
  simp only [hc, Bool.not_true, Bool.false_eq_true, ↓reduceIte]
  rfl

/-! ## The pass over the records -/

theorem filter_congr_of_mem {xs : Array Containment} {p q : Containment → Bool}
    (h : ∀ x ∈ xs, p x = q x) : xs.filter p = xs.filter q :=
  Array.ext' (by
    rw [Array.toList_filter, Array.toList_filter]
    exact List.filter_congr fun x hx => h x (Array.mem_toList_iff.1 hx))

/-- Dropping a placement from a map whose lists hold only records keyed by `key` filters every
list of the map. -/
theorem getD_dropPlacement_keyed {m : RecordMap} (key : Containment → Nat)
    (hm : ∀ k x, x ∈ m.getD k #[] → key x = k) (c : Containment)
    (hc : ∀ x, x.samePlacement c = true → key x = key c) (k : Nat) :
    (dropPlacement m (key c) c).2.getD k #[] = (m.getD k #[]).filter (!·.samePlacement c) := by
  rw [Mirror.getD_dropPlacement]
  split
  · rfl
  · next hk =>
    -- no record under another key shares the placement
    refine (Array.filter_eq_self.2 fun x hx => ?_).symm
    cases hxc : x.samePlacement c
    · rfl
    · exact absurd ((hc x hxc).symm.trans (hm k x hx)) hk

theorem Inv.removeContainment_lists (hi : g.Inv) (c : Containment) (k : Nat) :
    (g.removeContainment c).2.containmentsOf k = (g.containmentsOf k).filter (!·.samePlacement c) ∧
      (g.removeContainment c).2.containedIn k = (g.containedIn k).filter (!·.samePlacement c) := by
  have hsame : ∀ x : Containment, x.samePlacement c = true →
      x.sequence = c.sequence ∧ x.host = c.host :=
    fun x hx => by
      simp only [Containment.samePlacement, Bool.and_eq_true, beq_iff_eq] at hx
      exact ⟨hx.1.1.1, hx.1.1.2⟩
  exact ⟨getD_dropPlacement_keyed Containment.sequence hi.records.sequence_key c
      (fun x hx => (hsame x hx).1) k,
    getD_dropPlacement_keyed Containment.host hi.records.host_key c (fun x hx => (hsame x hx).2) k⟩

/-- Removing the placements of the records a test picks, one after another, filters both maps:
a record goes exactly when it shares its placement with a picked one. -/
theorem Inv.foldl_removeContainment (hi : g.Inv) (p : Containment → Bool) (l : List Containment)
    (k : Nat) :
    (l.foldl (fun g c => if p c then (g.removeContainment c).2 else g) g).containmentsOf k =
        (g.containmentsOf k).filter (fun x => !l.any fun c => p c && x.samePlacement c) ∧
      (l.foldl (fun g c => if p c then (g.removeContainment c).2 else g) g).containedIn k =
        (g.containedIn k).filter (fun x => !l.any fun c => p c && x.samePlacement c) := by
  induction l generalizing g with
  | nil =>
    exact ⟨(Array.filter_eq_self.2 fun _ _ => rfl).symm, (Array.filter_eq_self.2 fun _ _ => rfl).symm⟩
  | cons c l ih =>
    rw [List.foldl_cons]
    by_cases hc : p c = true
    · rw [if_pos hc]
      obtain ⟨h₁, h₂⟩ := ih (hi.removeContainment c)
      obtain ⟨r₁, r₂⟩ := hi.removeContainment_lists c k
      rw [h₁, h₂, r₁, r₂, Array.filter_filter, Array.filter_filter]
      constructor <;> congr 1 <;> funext x <;> simp [hc, Bool.and_comm]
    · rw [if_neg hc]
      obtain ⟨h₁, h₂⟩ := ih hi
      rw [h₁, h₂]
      simp [hc]

theorem samePlacement_self (c : Containment) : c.samePlacement c = true := by
  simp [Containment.samePlacement]

/-- A record of a reachable graph shares its placement with a picked record of `s` exactly when
it is itself a picked record of `s`: records of one sequence have distinct placements. -/
theorem PlacementsUnique.any_samePlacement (hu : g.PlacementsUnique) (hi : g.Inv)
    (p : Containment → Bool) {x : Containment} (hx : x ∈ g.containmentsOf x.sequence) (s : Nat) :
    ((g.containmentsOf s).toList.any fun c => p c && x.samePlacement c) = (x.sequence == s && p x) := by
  rw [Bool.eq_iff_iff]
  simp only [List.any_eq_true, Bool.and_eq_true, beq_iff_eq]
  constructor
  · rintro ⟨c, hc, hpc, hxc⟩
    have hcs := hi.records.sequence_key s c (Array.mem_toList_iff.1 hc)
    have hxs : x.sequence = s := by
      simp only [Containment.samePlacement, Bool.and_eq_true, beq_iff_eq] at hxc
      rw [hxc.1.1.1, hcs]
    subst hxs
    obtain rfl := hu _ x c hx (Array.mem_toList_iff.1 hc) hxc
    exact ⟨rfl, hpc⟩
  · rintro ⟨rfl, hpx⟩
    exact ⟨x, Array.mem_toList_iff.2 hx, hpx, samePlacement_self x⟩

/-- The pass over the records keeps, in every list of both maps, the records that are not weak. -/
theorem Inv.lists_filterRecords (hi : g.Inv) (hu : g.PlacementsUnique) (k : Nat) :
    (g.filterRecords s ratio).containmentsOf k =
        (g.containmentsOf k).filter (fun c => !decide (g.WeakRecord ratio s c)) ∧
      (g.filterRecords s ratio).containedIn k =
        (g.containedIn k).filter (fun c => !decide (g.WeakRecord ratio s c)) := by
  unfold filterRecords
  split
  · next hnone =>
    -- no record of `s`, so none is weak
    have hnot : ∀ c, (!decide (g.WeakRecord ratio s c)) = true := fun c => by
      rw [Bool.not_eq_true', decide_eq_false_iff_not, weakRecord_iff, hnone]
      simp
    exact ⟨(Array.filter_eq_self.2 fun c _ => hnot c).symm,
      (Array.filter_eq_self.2 fun c _ => hnot c).symm⟩
  · next best hbest =>
    -- a record goes exactly when it is weak: it shares its placement only with itself
    have hweak : ∀ x, x ∈ g.containmentsOf x.sequence →
        (!((g.containmentsOf s).toList.any fun c => belowRatio ratio best c.score &&
          x.samePlacement c)) = !decide (g.WeakRecord ratio s x) := by
      intro x hx
      rw [hu.any_samePlacement hi _ hx s]
      congr 1
      rw [Bool.eq_iff_iff, decide_eq_true_iff, weakRecord_iff, hbest]
      simp
    rw [← Array.foldl_toList]
    obtain ⟨h₁, h₂⟩ := hi.foldl_removeContainment (fun c => belowRatio ratio best c.score)
      (g.containmentsOf s).toList k
    rw [h₁, h₂]
    refine ⟨filter_congr_of_mem fun x hx => hweak x ?_,
      filter_congr_of_mem fun x hx => hweak x (hi.records.mem_of_mem_byHost hx)⟩
    rwa [hi.records.sequence_key k x hx]

/-- The pass over the records changes only the two containment maps. -/
theorem filterRecords_frame (g : AssemblyGraph) (s : Nat) (ratio : Float) :
    ∃ bs bh, g.filterRecords s ratio = { g with bySequence := bs, byHost := bh } := by
  unfold filterRecords
  split
  · exact ⟨g.bySequence, g.byHost, rfl⟩
  · rw [← Array.foldl_toList]
    -- each step drops a placement from both maps or does nothing
    refine List.foldlRecOn _ _ (motive := fun g' : AssemblyGraph => ∃ bs bh,
      g' = { g with bySequence := bs, byHost := bh }) ⟨g.bySequence, g.byHost, rfl⟩
      fun g' hg' c _ => ?_
    obtain ⟨bs, bh, rfl⟩ := hg'
    split
    · exact ⟨_, _, rfl⟩
    · exact ⟨bs, bh, rfl⟩

theorem Inv.filterRecords (hi : g.Inv) (s : Nat) (ratio : Float) : (g.filterRecords s ratio).Inv := by
  unfold AssemblyGraph.filterRecords
  split
  · exact hi
  · rw [← Array.foldl_toList]
    refine (hi.foldl _ _ fun g' hi' _ c _ => ?_).1
    split
    · exact ⟨hi'.removeContainment c, rfl⟩
    · exact ⟨hi', rfl⟩

/-! ## The pass over the edges at a vertex -/

/-- The ids and scores of the overlap edges listed at `v`, as the pass over `v` reads them. -/
def candidatesAt (g : AssemblyGraph) (v : Vertex) : List (Nat × Nat) :=
  ((g.edgesOf v).filter fun (_, e) => !e.isIdentity).map fun (id, e) => (id, e.score)

theorem filterAt_eq_candidates (g : AssemblyGraph) (ratio : Float) (v : Vertex) :
    g.filterAt ratio v =
      match bestScore ((g.candidatesAt v).map (·.2)) with
      | none => g
      | some best => (g.candidatesAt v).foldl (fun g x =>
          if belowRatio ratio best x.2 then (g.removeEdge x.1).2 else g) g :=
  rfl

theorem Inv.mem_candidatesAt (hi : g.Inv) {v : Vertex} {id n : Nat} :
    (id, n) ∈ g.candidatesAt v ↔
      ∃ e, g.edge? id = some e ∧ e.isIdentity = false ∧ e.Touches v ∧ e.score = n := by
  simp only [candidatesAt, List.mem_map, List.mem_filter, Prod.mk.injEq, Prod.exists]
  constructor
  · rintro ⟨id', e, ⟨hmem, hid⟩, rfl, rfl⟩
    obtain ⟨he, ht⟩ := hi.mem_edgesOf.1 hmem
    exact ⟨e, he, by simpa using hid, ht, rfl⟩
  · rintro ⟨e, he, hid, ht, rfl⟩
    exact ⟨id, e, ⟨hi.mem_edgesOf.2 ⟨he, ht⟩, by simp [hid]⟩, rfl, rfl⟩

/-- The scores the pass over `v` compares are the overlap scores at `v`. -/
theorem Inv.scores_candidatesAt (hi : g.Inv) (v : Vertex) :
    {n | n ∈ (g.candidatesAt v).map (·.2)} = g.overlapScores v := by
  ext n
  simp only [Set.mem_ofPred_eq, List.mem_map, Prod.exists, overlapScores]
  constructor
  · rintro ⟨id, n', hmem, rfl⟩
    obtain ⟨e, he, hid, ht, rfl⟩ := hi.mem_candidatesAt.1 hmem
    exact ⟨id, e, he, hid, ht, rfl⟩
  · rintro ⟨id, e, he, hid, ht, rfl⟩
    exact ⟨id, e.score, hi.mem_candidatesAt.2 ⟨e, he, hid, ht, rfl⟩, rfl⟩

/-- With `best` the best overlap score at `v`, the pass over `v` picks the slot of an edge
exactly when the edge is weak at `v`. -/
theorem Inv.weakAt_iff_mem_picked (hi : g.Inv) {v : Vertex} {best j : Nat} {f : Edge}
    (hbest : IsGreatest (g.overlapScores v) best) (hf : g.edge? j = some f) :
    g.WeakAt ratio v f ↔
      j ∈ ((g.candidatesAt v).filter fun x => belowRatio ratio best x.2).map (·.1) := by
  simp only [List.mem_map, List.mem_filter, Prod.exists]
  constructor
  · rintro ⟨hid, ht, b, hb, hbelow⟩
    rw [hb.unique hbest] at hbelow
    exact ⟨j, f.score, ⟨hi.mem_candidatesAt.2 ⟨f, hf, hid, ht, rfl⟩, hbelow⟩, rfl⟩
  · rintro ⟨_, n, ⟨hmem, hbelow⟩, rfl⟩
    obtain ⟨f', hf', hid, ht, rfl⟩ := hi.mem_candidatesAt.1 hmem
    -- the picked slot holds `f` itself
    obtain rfl := Option.some.inj (hf'.symm.trans hf)
    exact ⟨hid, ht, best, hbest, hbelow⟩

/-- The pass over the edges at `v` keeps exactly the live edges that are not weak at `v`. -/
theorem Inv.edge?_filterAt (hi : g.Inv) (v : Vertex) (j : Nat) (e : Edge) :
    (g.filterAt ratio v).edge? j = some e ↔ g.edge? j = some e ∧ ¬ g.WeakAt ratio v e := by
  rw [filterAt_eq_candidates]
  split
  · next hnone =>
    -- no overlap edge at `v`, so none is weak there
    refine ⟨fun h => ⟨h, fun ⟨_, _, best, hbest, _⟩ => ?_⟩, fun h => h.1⟩
    rw [bestScore_eq_none_iff] at hnone
    have := hbest.1
    rw [← hi.scores_candidatesAt, hnone] at this
    simp at this
  · next best hbest =>
    rw [bestScore_eq_some_iff, hi.scores_candidatesAt] at hbest
    rw [@foldl_removeIf (Nat × Nat) _ (fun x => belowRatio ratio best x.2) (fun x => x.1)
      (fun _ _ => rfl), edge?_foldl_removeEdge]
    split
    · next hj =>
      simp only [reduceCtorEq, false_iff, not_and, not_not]
      exact fun hf => (hi.weakAt_iff_mem_picked hbest hf).2 hj
    · next hj =>
      exact ⟨fun hf => ⟨hf, fun hw => hj ((hi.weakAt_iff_mem_picked hbest hf).1 hw)⟩, fun h => h.1⟩

/-! ## The three passes together -/

/-- No overlap edge touches both vertices of one sequence. -/
theorem Edge.isIdentity_of_touches_both {e : Edge} {s : Nat} (h₁ : e.Touches (.startOf s))
    (h₂ : e.Touches (.endOf s)) : e.isIdentity = true := by
  rcases h₁ with h₁ | h₁ <;> rcases h₂ with h₂ | h₂ <;>
    simp_all [Edge.isIdentity, Vertex.startOf, Vertex.endOf]

theorem weakAt_congr {g' : AssemblyGraph} {v : Vertex} (h : g'.overlapScores v = g.overlapScores v)
    (e : Edge) : g'.WeakAt ratio v e ↔ g.WeakAt ratio v e := by
  unfold WeakAt
  rw [h]

theorem edge?_filterRecords (j : Nat) : (g.filterRecords s ratio).edge? j = g.edge? j := by
  obtain ⟨bs, bh, h⟩ := filterRecords_frame g s ratio
  rw [h]
  rfl

theorem overlapScores_filterRecords (v : Vertex) :
    (g.filterRecords s ratio).overlapScores v = g.overlapScores v := by
  simp only [overlapScores, edge?_filterRecords]

/-- The pass over the start of `s` leaves the overlap edges at the end of `s`. -/
theorem Inv.overlapScores_filterAt_startOf (hi : g.Inv) :
    (g.filterAt ratio (.startOf s)).overlapScores (.endOf s) = g.overlapScores (.endOf s) := by
  refine Set.Subset.antisymm ((shrinks_filterAt g ratio _).overlapScores_subset _) ?_
  -- an overlap edge at the end of `s` is not at its start, so it is not weak there
  rintro n ⟨id, e, he, hid, ht, rfl⟩
  refine ⟨id, e, (hi.edge?_filterAt _ id e).2 ⟨he, fun hw => ?_⟩, hid, ht, rfl⟩
  rw [Edge.isIdentity_of_touches_both hw.2.1 ht] at hid
  cases hid

/-- Filtering around `s` keeps exactly the live edges that are weak at no vertex of `s`. -/
theorem Inv.edge?_filterAround (hi : g.Inv) (hs : s < g.size) (j : Nat) (e : Edge) :
    (g.filterAround s ratio).edge? j = some e ↔
      g.edge? j = some e ∧ ∀ v : Vertex, v.sequence = s → ¬ g.WeakAt ratio v e := by
  have h₁ := hi.filterRecords s ratio
  have h₂ := (h₁.filterAt ratio (.startOf s)).1
  rw [filterAround_eq hs, h₂.edge?_filterAt, h₁.edge?_filterAt, edge?_filterRecords,
    weakAt_congr h₁.overlapScores_filterAt_startOf, weakAt_congr (overlapScores_filterRecords _),
    weakAt_congr (overlapScores_filterRecords _)]
  constructor
  · -- the vertices of `s` are its start and its end
    rintro ⟨⟨he, hw₁⟩, hw₂⟩
    refine ⟨he, fun v hv => ?_⟩
    rcases Vertex.eq_startOf_or_endOf v with h | h <;> rw [h, hv]
    · exact hw₁
    · exact hw₂
  · rintro ⟨he, hw⟩
    exact ⟨⟨he, hw _ rfl⟩, hw _ rfl⟩

theorem Inv.maps_filterAt (hi : g.Inv) (ratio : Float) (v : Vertex) :
    (g.filterAt ratio v).bySequence = g.bySequence ∧ (g.filterAt ratio v).byHost = g.byHost :=
  hi.filterAt_keeps (fun g' => g'.bySequence = g.bySequence ∧ g'.byHost = g.byHost)
    (fun g' id _ _ h => ⟨(bySequence_removeEdge id).trans h.1, (byHost_removeEdge g' id).trans h.2⟩)
    ⟨rfl, rfl⟩ ratio v

/-- Filtering around `s` keeps, in every list of both maps, the records that are not weak. -/
theorem Inv.lists_filterAround (hi : g.Inv) (hu : g.PlacementsUnique) (hs : s < g.size) (k : Nat) :
    (g.filterAround s ratio).containmentsOf k =
        (g.containmentsOf k).filter (fun c => !decide (g.WeakRecord ratio s c)) ∧
      (g.filterAround s ratio).containedIn k =
        (g.containedIn k).filter (fun c => !decide (g.WeakRecord ratio s c)) := by
  have h₁ := hi.filterRecords s ratio
  obtain ⟨a₁, b₁⟩ := h₁.maps_filterAt ratio (.startOf s)
  obtain ⟨a₂, b₂⟩ := (h₁.filterAt ratio (.startOf s)).1.maps_filterAt ratio (.endOf s)
  rw [filterAround_eq hs]
  simp only [containmentsOf, containedIn, a₂, b₂, a₁, b₁]
  exact hi.lists_filterRecords hu k

/-! ## The best of each group survives -/

/-- Two vertices of one sequence that an overlap edge touches are the same vertex. -/
theorem Edge.eq_of_touches {e : Edge} (hid : e.isIdentity = false) {v w : Vertex} (hv : e.Touches v)
    (hw : e.Touches w) (hs : v.sequence = w.sequence) : v = w := by
  obtain ⟨sv, bv⟩ := v
  obtain ⟨sw, bw⟩ := w
  obtain rfl : sv = sw := hs
  cases bv <;> cases bw
  · rfl
  · rw [Edge.isIdentity_of_touches_both hw hv] at hid
    cases hid
  · rw [Edge.isIdentity_of_touches_both hv hw] at hid
    cases hid
  · rfl

/-- With a ratio in `[0, 1]` the best edge of a vertex is not weak there. -/
theorem not_weakAt_of_isGreatest (h0 : 0 ≤ ratio) (h1 : ratio ≤ 1) {v : Vertex} {e : Edge}
    (hb : IsGreatest (g.overlapScores v) e.score) : ¬ g.WeakAt ratio v e := by
  rintro ⟨-, -, b, hb', hbelow⟩
  rw [hb'.unique hb, belowRatio_self h0 h1] at hbelow
  cases hbelow

/-- With a ratio in `[0, 1]` the best record of a sequence is not weak. -/
theorem not_weakRecord_of_isGreatest (h0 : 0 ≤ ratio) (h1 : ratio ≤ 1) {c : Containment}
    (hb : IsGreatest (g.recordScores s) c.score) : ¬ g.WeakRecord ratio s c := by
  rintro ⟨-, b, hb', hbelow⟩
  rw [hb'.unique hb, belowRatio_self h0 h1] at hbelow
  cases hbelow

theorem Inv.exists_isGreatest_overlapScores (hi : g.Inv) {v : Vertex}
    (hne : (g.overlapScores v).Nonempty) : ∃ b, IsGreatest (g.overlapScores v) b := by
  cases h : bestScore ((g.candidatesAt v).map (·.2)) with
  | none =>
    rw [bestScore_eq_none_iff] at h
    obtain ⟨n, hn⟩ := hne
    rw [← hi.scores_candidatesAt, Set.mem_ofPred_eq, h] at hn
    cases hn
  | some b => exact ⟨b, by rwa [bestScore_eq_some_iff, hi.scores_candidatesAt] at h⟩

theorem exists_isGreatest_recordScores (hne : (g.recordScores s).Nonempty) :
    ∃ b, IsGreatest (g.recordScores s) b := by
  cases h : bestScore ((g.containmentsOf s).toList.map (·.score)) with
  | none =>
    rw [bestScore_eq_none_iff] at h
    obtain ⟨n, hn⟩ := hne
    rw [recordScores_eq, Set.mem_ofPred_eq, h] at hn
    cases hn
  | some b => exact ⟨b, by rwa [bestScore_eq_some_iff, ← recordScores_eq] at h⟩

section Filtered

variable (hi : g.Inv) (hs : s < g.size) (h0 : 0 ≤ ratio) (h1 : ratio ≤ 1)
include hi hs

/-- The best overlap edge at a vertex of `s` survives filtering around `s`. -/
theorem Inv.edge?_filterAround_of_isGreatest (h0 : 0 ≤ ratio) (h1 : ratio ≤ 1) {v : Vertex}
    (hv : v.sequence = s) {id : Nat} {e : Edge} (he : g.edge? id = some e)
    (hid : e.isIdentity = false) (ht : e.Touches v) (hb : IsGreatest (g.overlapScores v) e.score) :
    (g.filterAround s ratio).edge? id = some e := by
  refine (hi.edge?_filterAround hs id e).2 ⟨he, fun w hw hweak => ?_⟩
  -- the edge touches one vertex of `s` only, where it is the best
  obtain rfl := Edge.eq_of_touches hid ht hweak.2.1 (hv.trans hw.symm)
  exact not_weakAt_of_isGreatest h0 h1 hb hweak

/-- No overlap edge left at a vertex of `s` is weak there. -/
theorem Inv.not_weakAt_filterAround (h0 : 0 ≤ ratio) (h1 : ratio ≤ 1) {v : Vertex}
    (hv : v.sequence = s) {id : Nat} {e : Edge} (he : (g.filterAround s ratio).edge? id = some e) :
    ¬ (g.filterAround s ratio).WeakAt ratio v e := by
  rintro ⟨hid, ht, b', hb', hbelow⟩
  obtain ⟨he₀, hnw⟩ := (hi.edge?_filterAround hs id e).1 he
  -- the best score at `v` is the same before and after: its edge stays, and no edge is added
  obtain ⟨b, hb⟩ := hi.exists_isGreatest_overlapScores ⟨e.score, id, e, he₀, hid, ht, rfl⟩
  obtain ⟨idb, eb, heb, hidb, htb, rfl⟩ := hb.1
  have hafter : IsGreatest ((g.filterAround s ratio).overlapScores v) eb.score :=
    ⟨⟨idb, eb, hi.edge?_filterAround_of_isGreatest hs h0 h1 hv heb hidb htb hb, hidb, htb, rfl⟩,
      upperBounds_mono_set ((shrinks_filterAround g s ratio).overlapScores_subset v) hb.2⟩
  rw [hb'.unique hafter] at hbelow
  exact hnw v hv ⟨hid, ht, eb.score, hb, hbelow⟩

variable (hu : g.PlacementsUnique)
include hu

/-- The best record of `s` survives filtering around `s`. -/
theorem Inv.mem_filterAround_of_isGreatest (h0 : 0 ≤ ratio) (h1 : ratio ≤ 1) {c : Containment}
    (hc : c ∈ g.containmentsOf s) (hb : IsGreatest (g.recordScores s) c.score) :
    c ∈ (g.filterAround s ratio).containmentsOf s := by
  rw [(hi.lists_filterAround hu hs s).1]
  exact Array.mem_filter.2 ⟨hc, by simpa using not_weakRecord_of_isGreatest h0 h1 hb⟩

/-- No record of `s` left is weak. -/
theorem Inv.not_weakRecord_filterAround (h0 : 0 ≤ ratio) (h1 : ratio ≤ 1) {c : Containment}
    (hc : c ∈ (g.filterAround s ratio).containmentsOf s) :
    ¬ (g.filterAround s ratio).WeakRecord ratio s c := by
  rintro ⟨hcs, b', hb', hbelow⟩
  rw [(hi.lists_filterAround hu hs s).1] at hc
  obtain ⟨hc₀, hnw⟩ := Array.mem_filter.1 hc
  -- the best record score is the same before and after
  obtain ⟨b, hb⟩ := exists_isGreatest_recordScores ⟨c.score, c, hc₀, rfl⟩
  obtain ⟨cb, hcb, rfl⟩ := hb.1
  have hafter : IsGreatest ((g.filterAround s ratio).recordScores s) cb.score :=
    ⟨⟨cb, hi.mem_filterAround_of_isGreatest hs hu h0 h1 hcb hb, rfl⟩,
      upperBounds_mono_set ((shrinks_filterAround g s ratio).recordScores_subset s) hb.2⟩
  rw [hb'.unique hafter] at hbelow
  simp only [Bool.not_eq_true', decide_eq_false_iff_not] at hnw
  exact hnw ⟨hcs, cb.score, hb, hbelow⟩

end Filtered

/-! ## A second call changes nothing -/

/-- A fold that leaves its start unchanged at every element returns its start. -/
theorem foldl_eq_self {α β : Type} (step : β → α → β) (l : List α) (b : β)
    (h : ∀ x ∈ l, step b x = b) : l.foldl step b = b := by
  induction l with
  | nil => rfl
  | cons x l ih =>
    rw [List.foldl_cons, h x List.mem_cons_self]
    exact ih fun y hy => h y (List.mem_cons_of_mem x hy)

theorem Inv.filterRecords_of_not_weak (hi : g.Inv)
    (h : ∀ c ∈ g.containmentsOf s, ¬ g.WeakRecord ratio s c) : g.filterRecords s ratio = g := by
  unfold AssemblyGraph.filterRecords
  split
  · rfl
  · next best hbest =>
    rw [← Array.foldl_toList]
    refine foldl_eq_self _ _ g fun c hc => ?_
    have hc' := Array.mem_toList_iff.1 hc
    -- a record below the ratio of the best would be weak
    cases hb : belowRatio ratio best c.score
    · exact if_neg (by simp)
    · refine absurd ?_ (h c hc')
      rw [weakRecord_iff, hbest]
      exact ⟨hi.records.sequence_key s c hc', hb⟩

theorem Inv.filterAt_of_not_weak (hi : g.Inv) {v : Vertex}
    (h : ∀ id e, g.edge? id = some e → ¬ g.WeakAt ratio v e) : g.filterAt ratio v = g := by
  rw [filterAt_eq_candidates]
  split
  · rfl
  · next best hbest =>
    rw [bestScore_eq_some_iff, hi.scores_candidatesAt] at hbest
    refine foldl_eq_self _ _ g fun x hx => ?_
    obtain ⟨id, n⟩ := x
    obtain ⟨e, he, hid, ht, rfl⟩ := hi.mem_candidatesAt.1 hx
    -- an edge below the ratio of the best would be weak
    cases hb : belowRatio ratio best e.score
    · exact if_neg (by simp)
    · exact absurd ⟨hid, ht, best, hbest, hb⟩ (h id e he)

/-- Filtering around `s` changes nothing when nothing around `s` is weak. -/
theorem Inv.filterAround_of_not_weak (hi : g.Inv) (hs : s < g.size)
    (hE : ∀ v : Vertex, v.sequence = s → ∀ id e, g.edge? id = some e → ¬ g.WeakAt ratio v e)
    (hR : ∀ c ∈ g.containmentsOf s, ¬ g.WeakRecord ratio s c) : g.filterAround s ratio = g := by
  rw [filterAround_eq hs, hi.filterRecords_of_not_weak hR,
    hi.filterAt_of_not_weak (hE (.startOf s) rfl), hi.filterAt_of_not_weak (hE (.endOf s) rfl)]

/-! ## Filtering around a sequence -/

/-- What filtering `g` around `s` with `ratio` leaves in `g'`: exactly the edges of `g` weak at no
vertex of `s`; in every list of both containment maps, exactly the records that are not weak
records of `s`, so the lists of other sequences as they were; only removals, so the chimeric
flags as they were and a vertex flag raised only at an end of a removed edge; the best overlap
edge at each vertex of `s` and the best record of `s`; and nothing more to filter. -/
structure FilteredAround (g : AssemblyGraph) (s : Nat) (ratio : Float) (g' : AssemblyGraph) :
    Prop where
  edge : ∀ id e, g'.edge? id = some e ↔
    g.edge? id = some e ∧ ∀ v : Vertex, v.sequence = s → ¬ g.WeakAt ratio v e
  records : ∀ t, g'.containmentsOf t =
    (g.containmentsOf t).filter fun c => !decide (g.WeakRecord ratio s c)
  others : ∀ t, t ≠ s → g'.containmentsOf t = g.containmentsOf t
  hosted : ∀ h, g'.containedIn h =
    (g.containedIn h).filter fun c => !decide (g.WeakRecord ratio s c)
  detached : Detached g' g
  best_edge : ∀ v : Vertex, v.sequence = s → ∀ id e, g.edge? id = some e → e.isIdentity = false →
    e.Touches v → IsGreatest (g.overlapScores v) e.score → g'.edge? id = some e
  best_record : ∀ c ∈ g.containmentsOf s, IsGreatest (g.recordScores s) c.score →
    c ∈ g'.containmentsOf s
  stable : g'.filterAround s ratio = g'

end AssemblyGraph

end OverlapLayout
