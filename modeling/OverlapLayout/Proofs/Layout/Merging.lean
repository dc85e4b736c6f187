import Mathlib
import OverlapLayout.Proofs.Layout.Absorb
import OverlapLayout.Proofs.Layout.Pairing
/-!
  Merging paths along the end lists loses and duplicates nothing.

  The walk of `mergeClosePaths` holds its paths in three places (`held`): the
  paths finished, the one being grown and those still in their slots. A step
  takes at most one path out of its slot and joins it to the path being
  grown or starts a new one with it, so what the walk holds keeps spelling
  the same sequences as simple walks (`Conserves.step`). Reading the pair
  `x, -x` of an end list empties the slot of path `|x|`, and the lists of
  `pairEnds` name every path, so no path is left in a slot at the end
  (`mergeClosePaths_conserves`).
-/

namespace OverlapLayout

variable {g : AssemblyGraph} {S : List Nat}

/-! ## Turning and joining held paths -/

theorem treeSequences_reverse {p : Path} {us : List Vertex} (hw : p.Walks g us) :
    (treeSequences g [p.reverse]).Perm (treeSequences g [p]) := by
  rw [treeSequences.singleton, treeSequences.singleton, Path.sequenceIds_reverse hw]
  exact (List.reverse_perm _).append_right _

theorem Conserves.reverse {ps : List Path} {p : Path} (hc : Conserves g S (ps ++ [p])) :
    Conserves g S (ps ++ [p.reverse]) := by
  have hp : p ∈ ps ++ [p] := List.mem_append_right _ (List.mem_singleton_self p)
  have hsp := hc.simple p hp p (Path.mem_nodes_self p)
  obtain ⟨us, hw, -⟩ := id hsp
  refine ⟨?_, fun p' hp' q hq => ?_⟩
  · have h := hc.perm
    rw [treeSequences.append] at h ⊢
    exact ((treeSequences_reverse hw).append_left _).trans h
  · rcases List.mem_append.1 hp' with hp' | hp'
    · exact hc.simple p' (List.mem_append_left _ hp') q hq
    rw [List.mem_singleton] at hp'
    subst hp'
    rw [Path.nodes_reverse] at hq
    rcases List.mem_cons.1 hq with rfl | hq
    · exact hsp.reverse
    · exact hc.simple p hp q (Path.mem_nodes_of_mem_alternatives hq)

theorem Conserves.orient {ps : List Path} {p : Path} (hc : Conserves g S (ps ++ [p])) (reverse : Bool) :
    Conserves g S (ps ++ [if reverse then p.reverse else p]) := by
  cases reverse
  · exact hc
  · exact hc.reverse

/-- Two held paths joined end to end through the overlap edge between them. -/
theorem Conserves.connect (hi : g.Inv) (hS : S.Nodup) {ps : List Path} {c n p : Path}
    (hc : Conserves g S (ps ++ [c, n])) (h : c.connectPath g n false = some p) :
    Conserves g S (ps ++ [p]) := by
  have hcm : c ∈ ps ++ [c, n] := by simp
  have hnm : n ∈ ps ++ [c, n] := by simp
  have hsc := hc.simple c hcm c (Path.mem_nodes_self c)
  have hsn := hc.simple n hnm n (Path.mem_nodes_self n)
  obtain ⟨us, hw, -⟩ := id hsc
  obtain ⟨vs, hw', -⟩ := id hsn
  have halt := (hw.connectPath hi hw' h).2
  -- the joined path spells both walks and keeps both trees of alternatives
  have htree : (treeSequences g [p]).Perm (treeSequences g [c, n]) := by
    rw [treeSequences.singleton, Path.sequenceIds_connectPath hi hw hw' h, halt, Array.toList_append,
      treeSequences.append, treeSequences.cons, treeSequences.singleton, treeSequences.singleton]
    simp only [List.append_assoc]
    exact List.Perm.append_left _ (List.perm_append_comm_assoc _ _ _)
  -- the two walks share no sequence, since nothing held spells one twice
  have hnd : (c.sequenceIds g ++ n.sequenceIds g).Nodup := by
    have h1 := hc.perm.nodup_iff.2 hS
    rw [treeSequences.append, treeSequences.cons, treeSequences.singleton, treeSequences.singleton] at h1
    exact h1.sublist (((List.sublist_append_left _ _).append (List.sublist_append_left _ _)).trans
      (List.sublist_append_right _ _))
  refine ⟨?_, fun p' hp' q hq => ?_⟩
  · rw [treeSequences.append]
    refine (htree.append_left _).trans ?_
    rw [← treeSequences.append]
    exact hc.perm
  · rcases List.mem_append.1 hp' with hp' | hp'
    · exact hc.simple p' (List.mem_append_left _ hp') q hq
    rw [List.mem_singleton] at hp'
    subst hp'
    rw [Path.nodes_eq, halt, Array.toList_append, List.flatMap_append] at hq
    rcases List.mem_cons.1 hq with rfl | hq
    · exact hsc.connectPath hi hsn hnd h
    rcases List.mem_append.1 hq with hq | hq
    · exact hc.simple c hcm q (Path.mem_nodes_of_mem_alternatives hq)
    · exact hc.simple n hnm q (Path.mem_nodes_of_mem_alternatives hq)

/-! ## One step of the walk -/

namespace MergeWalk

/-- The paths a merge walk holds: those finished, the one being grown and those
still in their slots. -/
def held (w : MergeWalk) : List Path := w.merged.toList ++ w.current.toList ++ livePaths w.slots

/-- The second end of a pair read by `step`: the path of slot `index`, read
backwards when `reverse`, goes on to the path being grown. -/
def take (g : AssemblyGraph) (w : MergeWalk) (index : Nat) (reverse : Bool) : MergeWalk :=
  match (w.slots[index]?).join with
  | none => w
  | some next =>
    let w := { w with slots := w.slots.set! index none }
    match w.current.bind fun p => p.connectPath g next reverse with
    | some p => { w with current := some p }
    | none =>
      let next := if reverse then next.reverse else next
      { w with
        current := some next
        merged := match w.current with
          | some p => w.merged.push p
          | none => w.merged }

theorem step_eq (g : AssemblyGraph) (w : MergeWalk) (e : Int) :
    w.step g e = if e = -w.lastEnd then take g { w with lastEnd := e } (e.natAbs - 1) (decide (0 < e))
      else { w with lastEnd := e } := by
  unfold step
  by_cases he : e = -w.lastEnd
  · rw [if_pos he]
    simp only [he, bne_self_eq_false, Bool.false_eq_true, ↓reduceIte]
    -- the slot read is that of the path whose two ends are `e` and the last end
    have hidx : (if 0 < -w.lastEnd then ((-w.lastEnd - 1).toNat, true) else ((w.lastEnd - 1).toNat, false)) =
        ((-w.lastEnd).natAbs - 1, decide (0 < -w.lastEnd)) := by
      split <;> simp <;> omega
    rw [hidx]
    rfl
  · rw [if_neg he]
    simp [he]

theorem join_getElem?_set!_none (slots : Array (Option Path)) (index i : Nat) :
    ((slots.set! index none)[i]?).join = if i = index then none else (slots[i]?).join := by
  rw [Array.set!_eq_setIfInBounds, Array.getElem?_setIfInBounds]
  by_cases h : index = i
  · subst h
    by_cases hs : index < slots.size <;> simp [hs]
  · simp [h, Ne.symm h]

/-- Taking a path empties its slot and no other. -/
theorem join_getElem?_take (g : AssemblyGraph) (w : MergeWalk) (index : Nat) (reverse : Bool) (i : Nat) :
    ((take g w index reverse).slots[i]?).join = if i = index then none else (w.slots[i]?).join := by
  unfold take
  split
  next hnone =>
    split
    · subst i
      exact hnone
    · rfl
  · dsimp only
    split <;> exact join_getElem?_set!_none _ _ _

theorem lastEnd_take (g : AssemblyGraph) (w : MergeWalk) (index : Nat) (reverse : Bool) :
    (take g w index reverse).lastEnd = w.lastEnd := by
  unfold take
  split
  · rfl
  · dsimp only
    split <;> rfl

end MergeWalk

open MergeWalk

theorem Conserves.take (hi : g.Inv) (hS : S.Nodup) {w : MergeWalk} (hc : Conserves g S w.held)
    (index : Nat) (reverse : Bool) : Conserves g S (take g w index reverse).held := by
  obtain ⟨current, lastEnd, slots, merged⟩ := w
  unfold MergeWalk.take
  split
  · exact hc
  next next hnext =>
    have h1 := livePaths_set (Option.join_eq_some_iff.1 hnext) none
    simp only [Option.toList_some, Option.toList_none, List.append_nil] at h1
    -- what is held, with the path taken from its slot put last
    have hc' : Conserves g S ((merged.toList ++ current.toList ++ livePaths (slots.set! index none)) ++ [next]) :=
      hc.of_perm (by rw [List.append_assoc _ _ [next]]; exact (h1.append_left _).symm)
    cases current with
    | none =>
      -- the path taken starts the path being grown
      show Conserves g S (merged.toList ++ [if reverse then next.reverse else next] ++
        livePaths (slots.set! index none))
      refine (hc'.orient reverse).of_perm ?_
      simp only [Option.toList_none, List.append_nil, List.append_assoc]
      exact List.Perm.append_left _ List.perm_append_comm
    | some c =>
      have hc'' : Conserves g S ((merged.toList ++ livePaths (slots.set! index none) ++ [c]) ++ [next]) := by
        refine hc'.of_perm (List.Perm.append_right _ ?_)
        simp only [Option.toList_some, List.append_assoc]
        exact List.Perm.append_left _ List.perm_append_comm
      dsimp only [Option.bind]
      cases hcp : c.connectPath g next reverse with
      | some p =>
        -- the path taken is joined to the path being grown
        show Conserves g S (merged.toList ++ [p] ++ livePaths (slots.set! index none))
        have hcp' : c.connectPath g (if reverse then next.reverse else next) false = some p := by
          cases reverse
          · exact hcp
          · exact (Path.connectPath_true c next).symm.trans hcp
        have h3 := hc''.orient reverse
        rw [List.append_assoc _ [c]] at h3
        refine (h3.connect hi hS hcp').of_perm ?_
        simp only [List.append_assoc]
        exact List.Perm.append_left _ List.perm_append_comm
      | none =>
        -- no edge joins them: the path being grown is finished and the one taken starts anew
        show Conserves g S ((merged.push c).toList ++ [if reverse then next.reverse else next] ++
          livePaths (slots.set! index none))
        refine (hc'.orient reverse).of_perm ?_
        simp only [Option.toList_some, Array.toList_push, List.append_assoc]
        exact List.Perm.append_left _ (List.Perm.append_left _ List.perm_append_comm)

theorem Conserves.step (hi : g.Inv) (hS : S.Nodup) {w : MergeWalk} (hc : Conserves g S w.held) (e : Int) :
    Conserves g S (w.step g e).held := by
  rw [step_eq]
  split
  · exact Conserves.take hi hS (w := { w with lastEnd := e }) hc _ _
  · exact hc

theorem Conserves.foldl_step (hi : g.Inv) (hS : S.Nodup) :
    ∀ (l : List Int) {w : MergeWalk}, Conserves g S w.held → Conserves g S (l.foldl (MergeWalk.step g) w).held
  | [], _, hc => hc
  | e :: l, _, hc => Conserves.foldl_step hi hS l (hc.step hi hS e)

namespace MergeWalk

/-- Reading a run of pairs empties the slot of every path it names and no other. -/
theorem slots_foldl_blocks {l : List Int} (hb : Blocks l) (hnd : l.Nodup) :
    ∀ w : MergeWalk, -w.lastEnd ∉ l → ∀ i p, ((l.foldl (step g) w).slots[i]?).join = some p →
      (w.slots[i]?).join = some p ∧ ∀ x ∈ l, x.natAbs ≠ i + 1 := by
  induction hb with
  | nil => exact fun w _ i p h => ⟨h, by simp⟩
  | @cons x l hb ih =>
    intro w hlast i p h
    have hx : x ∉ -x :: l := (List.nodup_cons.1 hnd).1
    have hxl : x ∉ l := fun h => hx (List.mem_cons_of_mem _ h)
    -- the first end of the pair only becomes the last end; the second takes the path
    have h1 : w.step g x = { w with lastEnd := x } := by
      rw [step_eq, if_neg (fun h => hlast (by rw [← h]; exact List.mem_cons_self))]
    have h2 : ({ w with lastEnd := x } : MergeWalk).step g (-x) =
        take g { w with lastEnd := -x } ((-x).natAbs - 1) (decide (0 < -x)) := by
      rw [step_eq, if_pos rfl]
    rw [List.foldl_cons, List.foldl_cons, h1, h2] at h
    have hlast' : -(take g { w with lastEnd := -x } ((-x).natAbs - 1) (decide (0 < -x))).lastEnd ∉ l := by
      rw [lastEnd_take]
      show -(-x) ∉ l
      rw [Int.neg_neg]
      exact hxl
    obtain ⟨hw, hl⟩ := ih (List.nodup_cons.1 (List.nodup_cons.1 hnd).2).2 _ hlast' i p h
    rw [join_getElem?_take] at hw
    split at hw
    · cases hw
    next hne =>
      rw [Int.natAbs_neg] at hne
      refine ⟨hw, fun y hy => ?_⟩
      rcases List.mem_cons.1 hy with rfl | hy
      · omega
      rcases List.mem_cons.1 hy with rfl | hy
      · rw [Int.natAbs_neg]
        omega
      · exact hl y hy

/-- Walking one end list from a fresh start, then finishing the path being grown. -/
def run (g : AssemblyGraph) (w : MergeWalk) (ends : List Int) : MergeWalk :=
  let w := ends.foldl (step g) { w with current := none, lastEnd := 0 }
  match w.current with
  | some p => { w with merged := w.merged.push p }
  | none => w

/-- The paths held between two lists: those finished and those in their slots. -/
def kept (w : MergeWalk) : List Path := w.merged.toList ++ livePaths w.slots

theorem join_getElem?_run (g : AssemblyGraph) (w : MergeWalk) (ends : List Int) (i : Nat) :
    ((run g w ends).slots[i]?).join =
      ((ends.foldl (step g) { w with current := none, lastEnd := 0 }).slots[i]?).join := by
  unfold run
  dsimp only
  split <;> rfl

end MergeWalk

theorem Conserves.run (hi : g.Inv) (hS : S.Nodup) {w : MergeWalk} (hc : Conserves g S w.kept)
    (ends : List Int) : Conserves g S (run g w ends).kept := by
  have h0 : Conserves g S ({ w with current := none, lastEnd := 0 } : MergeWalk).held := by
    simpa [held, kept] using hc
  have h1 := Conserves.foldl_step hi hS ends h0
  unfold MergeWalk.run
  dsimp only
  split
  next p hp => simpa [held, kept, hp] using h1
  next hp => simpa [held, kept, hp] using h1

/-! ## The walk over all end lists -/

/-- Walking end lists that are runs of pairs and name, between them, the path of
every live slot leaves every path finished. -/
theorem Conserves.foldl_run (hi : g.Inv) (hS : S.Nodup) (F : MergeWalk → Int × List Int → MergeWalk)
    (hF : ∀ w kl, F w kl = MergeWalk.run g w kl.2) :
    ∀ (L : List (Int × List Int)) (w : MergeWalk), (∀ kl ∈ L, Blocks kl.2 ∧ kl.2.Nodup ∧ (0 : Int) ∉ kl.2) →
      Conserves g S w.kept → (∀ i p, (w.slots[i]?).join = some p → ∃ kl ∈ L, ∃ x ∈ kl.2, x.natAbs = i + 1) →
      Conserves g S (L.foldl F w).merged.toList
  | [], w, _, hc, hlive => by
    -- no list is left, so no slot is
    have hnil : livePaths w.slots = [] := livePaths_eq_nil fun i p h => by simpa using hlive i p h
    simpa [kept, hnil] using hc
  | kl :: L, w, hL, hc, hlive => by
    obtain ⟨hb, hnd, h0⟩ := hL kl List.mem_cons_self
    rw [List.foldl_cons, hF]
    refine Conserves.foldl_run hi hS F hF L _ (fun kl' h => hL kl' (List.mem_cons_of_mem _ h))
      (hc.run hi hS kl.2) fun i p h => ?_
    rw [join_getElem?_run] at h
    obtain ⟨hw, hout⟩ := slots_foldl_blocks hb hnd _ (by simpa using h0) i p h
    obtain ⟨kl', hkl', x, hx, hxi⟩ := hlive i p hw
    rcases List.mem_cons.1 hkl' with rfl | hkl'
    · exact absurd hxi (hout x hx)
    · exact ⟨kl', hkl', x, hx, hxi⟩

theorem forall₂_renumber (f : Path × Nat → Path) (hf : ∀ x, f x = { x.1 with id := (f x).id }) :
    ∀ (ps : List Path) (n : Nat), List.Forall₂ (fun p q => q = { p with id := q.id }) ps ((ps.zipIdx n).map f)
  | [], _ => .nil
  | p :: ps, n => by
    rw [List.zipIdx_cons, List.map_cons]
    exact .cons (hf (p, n)) (forall₂_renumber f hf ps (n + 1))

/-- Merging paths along the end lists keeps every sequence they spell, once,
and every path and alternative a simple walk. -/
theorem mergeClosePaths_conserves (hi : g.Inv) (hS : S.Nodup) {t : LayoutThresholds} {paths out : List Path}
    {costs : RunningStats} (hc : Conserves g S paths) (h : t.mergeClosePaths g paths costs = .ok out) :
    Conserves g S out := by
  unfold LayoutThresholds.mergeClosePaths at h
  obtain ⟨js, -, h⟩ := bind_ok h
  cases h
  rw [Std.TreeMap.foldl_eq_foldl_toList]
  refine Conserves.foldl_run hi hS _ (fun _ _ => rfl) _ _ (fun kl hkl => ?_) ?_ fun i p hp => ?_
  · -- every list of `pairEnds` is a run of pairs with no end twice and none zero
    obtain ⟨k, l⟩ := kl
    have hl := Std.TreeMap.mem_toList_iff_getElem?_eq_some.1 hkl
    exact ⟨(EndsOk.endsOk_pairEnds js _).blocks k l hl, (EndsOk.endsOk_pairEnds js _).nodup k l hl,
      (EndsOk.endsOk_pairEnds js _).nonzero k l hl⟩
  · -- the walk starts with the paths, renumbered, in their slots
    simp only [MergeWalk.kept, List.nil_append, livePaths_map_some]
    exact hc.renumber (forall₂_renumber _ (fun ⟨p, i⟩ => rfl) paths 0)
  · -- and the path of every slot has its ends in some list
    obtain ⟨hlt, -⟩ := Array.getElem?_eq_some_iff.1 (Option.join_eq_some_iff.1 hp)
    rw [Array.size_map, List.size_toArray] at hlt
    obtain ⟨k, l, hkl, hil⟩ := (EndsOk.endsOk_pairEnds js _).covers i hlt
    exact ⟨(k, l), Std.TreeMap.mem_toList_iff_getElem?_eq_some.2 hkl, _, hil, Int.natAbs_natCast (i + 1)⟩

end OverlapLayout
