import Mathlib
import OverlapLayout.Proofs.Layout.Merging
/-!
  The end lists chain whole paths through the junctions applied.

  `pairEnds` starts with each path `i` alone, as the list `[i, -i]` of its two signed ends, and
  takes the junctions by increasing cost: a junction `(p1, p2)` whose ends are both unused and
  lie at an end of two different lists puts the two lists end to end, the second turned if
  need be, so that `p1` and `p2` meet. So every list holds whole paths, each read one way
  (`blockEnds`), and two consecutive paths of a list face each other at the two ends of an
  applied junction (`Chained`). `Linked` is this state of the pass, with the junctions applied
  and the ends they used; `joinEnds_cases` says once what a step can do, `Linked.joinEnds`
  that it keeps `Linked`, and `linked_pairEnds` that the whole pass does.

  The pairing walk of `mergeClosePaths` reads each list from a fresh start. On a list of whole
  paths it closes a pair exactly at the second end of each path, taking that path from a slot
  still full (`findsSlots_blocks`); since the lists name every path once, over all of them it
  never reaches an emptied slot (`FindsAllSlots`) and leaves no slot full (`pairEnds_chains`).
-/

namespace OverlapLayout

/-! ## Whole paths -/

/-- The signed ends of paths read in the directions `fs`: path `|x|` entered at end `x` and
left at end `-x`. -/
def blockEnds (fs : List Int) : List Int := fs.flatMap fun x => [x, -x]

@[simp] theorem blockEnds_nil : blockEnds [] = [] := rfl

@[simp] theorem blockEnds_cons (x : Int) (fs : List Int) :
    blockEnds (x :: fs) = x :: -x :: blockEnds fs := rfl

@[simp] theorem blockEnds_append (fs fs' : List Int) :
    blockEnds (fs ++ fs') = blockEnds fs ++ blockEnds fs' :=
  List.flatMap_append

/-- Read backwards, each path is entered at its other end. -/
theorem reverse_blockEnds (fs : List Int) : (blockEnds fs).reverse = blockEnds (fs.reverse.map Neg.neg) := by
  induction fs with
  | nil => rfl
  | cons x fs ih => simp [ih]

theorem mem_blockEnds {fs : List Int} {y : Int} : y ∈ blockEnds fs ↔ y ∈ fs ∨ -y ∈ fs := by
  simp only [blockEnds, List.mem_flatMap, List.mem_cons, List.not_mem_nil, or_false]
  constructor
  · rintro ⟨x, hx, rfl | rfl⟩
    · exact .inl hx
    · exact .inr (by rwa [Int.neg_neg])
  · rintro (h | h)
    · exact ⟨y, h, .inl rfl⟩
    · exact ⟨-y, h, .inr (Int.neg_neg y).symm⟩

theorem head?_blockEnds (fs : List Int) : (blockEnds fs).head? = fs.head? := by
  cases fs <;> rfl

theorem getLast?_blockEnds (fs : List Int) : (blockEnds fs).getLast? = fs.getLast?.map Neg.neg := by
  rw [← List.head?_reverse, reverse_blockEnds, head?_blockEnds, List.head?_map, List.head?_reverse]

/-- With no end twice, no path is read twice. -/
theorem nodup_natAbs_of_nodup_blockEnds {fs : List Int} (h : (blockEnds fs).Nodup) :
    (fs.map Int.natAbs).Nodup := by
  induction fs with
  | nil => exact List.nodup_nil
  | cons x fs ih =>
    rw [blockEnds_cons, List.nodup_cons, List.nodup_cons, List.mem_cons, not_or] at h
    obtain ⟨⟨-, hx⟩, hnx, hnd⟩ := h
    refine List.nodup_cons.2 ⟨fun hm => ?_, ih hnd⟩
    obtain ⟨y, hy, hxy⟩ := List.mem_map.1 hm
    rcases Int.natAbs_eq_natAbs_iff.1 hxy with rfl | rfl
    · exact hx (mem_blockEnds.2 (.inl hy))
    · exact hnx (mem_blockEnds.2 (.inl hy))

/-- A run of pairs holds, with each end, the other end of its path. -/
theorem Blocks.neg_mem {l : List Int} (h : Blocks l) {x : Int} (hx : x ∈ l) : -x ∈ l := by
  induction h with
  | nil => exact absurd hx List.not_mem_nil
  | cons y _ ih =>
    simp only [List.mem_cons] at hx ⊢
    rcases hx with rfl | rfl | hx
    · exact .inr (.inl rfl)
    · exact .inl (Int.neg_neg y)
    · exact .inr (.inr (ih hx))

/-! ## Lists chained by junctions -/

/-- The ends `a` and `b` are the two ends of a junction of `applied`, in either order. -/
def Meets (applied : List (Int × Int)) (a b : Int) : Prop :=
  (a, b) ∈ applied ∨ (b, a) ∈ applied

theorem Meets.symm {applied : List (Int × Int)} {a b : Int} (h : Meets applied a b) : Meets applied b a :=
  Or.symm h

theorem Meets.cons {applied : List (Int × Int)} {a b : Int} (j : Int × Int) (h : Meets applied a b) :
    Meets (j :: applied) a b := by
  rcases h with h | h
  · exact .inl (List.mem_cons_of_mem j h)
  · exact .inr (List.mem_cons_of_mem j h)

/-- `l` holds whole paths one after another, each read one way, and two consecutive paths face
each other at the two ends of an applied junction: the exit `-x` of one and the entry `y` of
the next. -/
def Chained (applied : List (Int × Int)) (l : List Int) : Prop :=
  ∃ fs, l = blockEnds fs ∧ fs.IsChain fun x y => Meets applied (-x) y

namespace Chained

variable {applied : List (Int × Int)} {l l' : List Int}

theorem single (x : Int) : Chained applied [x, -x] :=
  ⟨[x], rfl, List.isChain_singleton x⟩

theorem cons (j : Int × Int) (h : Chained applied l) : Chained (j :: applied) l := by
  obtain ⟨fs, rfl, hc⟩ := h
  exact ⟨fs, rfl, hc.imp fun _ _ h => h.cons j⟩

/-- Read backwards, the paths are entered at their other ends and meet at the same junctions. -/
theorem reverse (h : Chained applied l) : Chained applied l.reverse := by
  obtain ⟨fs, rfl, hc⟩ := h
  refine ⟨fs.reverse.map Neg.neg, reverse_blockEnds fs, ?_⟩
  rw [List.isChain_map, List.isChain_reverse]
  exact hc.imp fun x y h => by simpa using h.symm

/-- Two chained lists put end to end, where the last end of the first meets the first end of
the second. -/
theorem append (h : Chained applied l) (h' : Chained applied l') {a b : Int} (ha : l.getLast? = some a)
    (hb : l'.head? = some b) (hab : Meets applied a b) : Chained applied (l ++ l') := by
  obtain ⟨fs, rfl, hc⟩ := h
  obtain ⟨fs', rfl, hc'⟩ := h'
  refine ⟨fs ++ fs', (blockEnds_append fs fs').symm, List.isChain_append.2 ⟨hc, hc', fun x hx y hy => ?_⟩⟩
  rw [getLast?_blockEnds, Option.mem_def.1 hx, Option.map_some, Option.some.injEq] at ha
  rw [head?_blockEnds, Option.mem_def.1 hy, Option.some.injEq] at hb
  rw [ha, hb]
  exact hab

end Chained

/-! ## One step of the pass -/

theorem choice_eq_some {l : List Int} {p : Int} {b : Bool}
    (h : (if l.getLast? == some p then some true else if l.head? == some p then some false else none) =
      some b) :
    (if b then l.getLast? else l.head?) = some p := by
  split at h
  next hl =>
    cases h
    simpa using hl
  split at h
  next hh =>
    cases h
    simpa using hh
  cases h

/-- What one step of the pass can do: nothing, or put the list holding `p2` (turned when `rev`)
after the list holding `p1` (or, when `app` is false, before it, the two turned), where `p1`
and `p2` are unused ends of two different lists, each at the end named, and mark both used. -/
theorem joinEnds_cases (groups : Std.HashMap Int Int) (lists : EndLists) (used : List Int) (p1 p2 : Int) :
    (joinEnds (groups, lists, used) p1 p2).2 = (lists, used) ∨
      ∃ (g1 g2 : Int) (first second : List Int) (rev app : Bool), g1 ≠ g2 ∧ lists[g1]? = some first ∧
        lists[g2]? = some second ∧ p1 ∉ used ∧ p2 ∉ used ∧
        (if rev then second.getLast? else second.head?) = some p2 ∧
        (if app then first.getLast? else first.head?) = some p1 ∧
        (joinEnds (groups, lists, used) p1 p2).2 =
          ((lists.erase g2).insert g1 (if app then first ++ (if rev then second.reverse else second)
            else (if rev then second.reverse else second).reverse ++ first), p2 :: p1 :: used) := by
  unfold joinEnds
  dsimp only
  split
  · exact .inl rfl
  next hused =>
    simp only [Bool.or_eq_true, List.contains_iff_mem, not_or] at hused
    split
    next g1 g2 _ _ =>
      split
      · exact .inl rfl
      next hne =>
        split
        next first second h1 h2 =>
          split
          next rev app hrev happ =>
            exact .inr ⟨g1, g2, first, second, rev, app, by simpa using hne, h1, h2, hused.1, hused.2,
              choice_eq_some hrev, choice_eq_some happ, rfl⟩
          · exact .inl rfl
        · exact .inl rfl
    · exact .inl rfl

/-- The state of the pass over the junctions `js` for `n` paths: end lists in which every end of
a path from `1` to `n` stands once (`EndsOk`) and no other end, each chained by the junctions
applied; these are junctions of `js`, and the ends marked used are theirs, none twice. -/
structure Linked (js : Junctions) (n : Nat) (lists : EndLists) (used : List Int)
    (applied : List (Int × Int)) : Prop where
  ends : EndsOk n lists
  bounded : ∀ (k : Int) (l : List Int), lists[k]? = some l → ∀ x ∈ l, x.natAbs ≤ n
  chained : ∀ (k : Int) (l : List Int), lists[k]? = some l → Chained applied l
  keys : ∀ j ∈ applied, j ∈ js
  used_eq : used = applied.flatMap fun j => [j.2, j.1]
  used_nodup : used.Nodup

namespace Linked

variable {js : Junctions} {n : Nat} {lists : EndLists} {used : List Int} {applied : List (Int × Int)}

/-- Joining at a junction of `js` keeps the state, with that junction applied. -/
theorem joinEnds (h : Linked js n lists used applied) (groups : Std.HashMap Int Int) {p1 p2 : Int}
    (hk : (p1, p2) ∈ js) :
    ∃ applied', Linked js n (OverlapLayout.joinEnds (groups, lists, used) p1 p2).2.1
      (OverlapLayout.joinEnds (groups, lists, used) p1 p2).2.2 applied' := by
  have hends := h.ends.joinEnds groups used p1 p2
  rcases joinEnds_cases groups lists used p1 p2 with heq | ⟨g1, g2, first, second, rev, app, hne, h1, h2,
    hu1, hu2, hrev, happ, heq⟩
  · rw [heq] at hends ⊢
    exact ⟨applied, { h with ends := hends }⟩
  rw [heq] at hends ⊢
  dsimp only at hends ⊢
  -- the second list turned so that `p2` comes first
  have hturned : Chained ((p1, p2) :: applied) (if rev then second.reverse else second) ∧
      (if rev then second.reverse else second).head? = some p2 := by
    cases rev
    · exact ⟨(h.chained _ _ h2).cons _, hrev⟩
    · exact ⟨(h.chained _ _ h2).reverse.cons _, by simpa [List.head?_reverse] using hrev⟩
  obtain ⟨hcs, hhead⟩ := hturned
  have hjoined : Chained ((p1, p2) :: applied) (if app then first ++ (if rev then second.reverse else second)
      else (if rev then second.reverse else second).reverse ++ first) := by
    have hcf := (h.chained _ _ h1).cons (p1, p2)
    cases app
    · exact hcs.reverse.append hcf (by simpa [List.getLast?_reverse] using hhead) happ
        (.inr List.mem_cons_self)
    · exact hcf.append hcs happ hhead (.inl List.mem_cons_self)
  -- `p1` and `p2` stand in two different lists, so they differ
  have hp1 : p1 ∈ first := by
    cases app
    · exact List.mem_of_head? happ
    · exact List.mem_of_getLast? happ
  have hp2 : p2 ∈ second := by
    cases rev
    · exact List.mem_of_head? hrev
    · exact List.mem_of_getLast? hrev
  have hp12 : p1 ≠ p2 := fun he => h.ends.apart _ _ _ _ hne h1 h2 p1 hp1 (he ▸ hp2)
  refine ⟨(p1, p2) :: applied, hends, fun k l hl x hx => ?_, fun k l hl => ?_, fun j hj => ?_, ?_, ?_⟩
  · rcases EndsOk.eq_of_getElem?_join hne hl with ⟨-, rfl⟩ | ⟨-, -, hl⟩
    · -- every end of the joined list comes from one of the two lists
      have hx' : x ∈ first ∨ x ∈ second := by
        cases app <;> cases rev <;> simp_all [or_comm]
      rcases hx' with hx' | hx'
      · exact h.bounded _ _ h1 x hx'
      · exact h.bounded _ _ h2 x hx'
    · exact h.bounded _ _ hl x hx
  · rcases EndsOk.eq_of_getElem?_join hne hl with ⟨-, rfl⟩ | ⟨-, -, hl⟩
    · exact hjoined
    · exact (h.chained _ _ hl).cons _
  · rcases List.mem_cons.1 hj with rfl | hj
    · exact hk
    · exact h.keys j hj
  · rw [h.used_eq]
    rfl
  · refine List.nodup_cons.2 ⟨?_, List.nodup_cons.2 ⟨hu1, h.used_nodup⟩⟩
    rw [List.mem_cons, not_or]
    exact ⟨Ne.symm hp12, hu2⟩

/-- The pass along any list of junctions of `js` keeps the state. -/
theorem foldl_joinEnds : ∀ (pairs : List ((Int × Int) × Nat)), (∀ x ∈ pairs, x.1 ∈ js) →
    ∀ (st : Std.HashMap Int Int × EndLists × List Int) (applied : List (Int × Int)),
      Linked js n st.2.1 st.2.2 applied →
      ∃ applied', Linked js n (pairs.foldl (fun st x => OverlapLayout.joinEnds st x.1.1 x.1.2) st).2.1
        (pairs.foldl (fun st x => OverlapLayout.joinEnds st x.1.1 x.1.2) st).2.2 applied'
  | [], _, _, applied, h => ⟨applied, h⟩
  | x :: pairs, hpairs, (groups, lists, used), applied, h => by
    obtain ⟨applied', h'⟩ := h.joinEnds groups (hpairs x List.mem_cons_self)
    exact foldl_joinEnds pairs (fun y hy => hpairs y (List.mem_cons_of_mem x hy)) _ applied' h'

/-- Each path alone in the list of its two ends, with nothing applied. -/
theorem init (js : Junctions) (n : Nat) :
    Linked js n (((List.range n).map fun i => ((i + 1 : Nat) : Int)).foldl
      (fun (m : EndLists) i => m.insert i [i, -i]) ∅) [] [] := by
  have hread : ∀ (k : Int) (l : List Int), (((List.range n).map fun i => ((i + 1 : Nat) : Int)).foldl
      (fun (m : EndLists) i => m.insert i [i, -i]) ∅)[k]? = some l → 0 < k ∧ k ≤ n ∧ l = [k, -k] := by
    intro k l hl
    rw [EndsOk.getElem?_foldl_insert] at hl
    split at hl
    next hk =>
      obtain ⟨i, hi, rfl⟩ := List.mem_map.1 hk
      rw [List.mem_range] at hi
      exact ⟨by omega, by omega, (Option.some.inj hl).symm⟩
    · simp at hl
  refine ⟨EndsOk.init n, fun k l hl x hx => ?_, fun k l hl => ?_, by simp, rfl, List.nodup_nil⟩
  · obtain ⟨h0, hn, rfl⟩ := hread k l hl
    simp only [List.mem_cons, List.not_mem_nil, or_false] at hx
    omega
  · obtain ⟨-, -, rfl⟩ := hread k l hl
    exact Chained.single k

end Linked

theorem mem_of_mem_sorted {js : Junctions} {x : (Int × Int) × Nat} {le : (Int × Int) × Nat → (Int × Int) × Nat → Bool}
    (hx : x ∈ (js.toList.map fun kv => (kv.1, kv.2.cost)).mergeSort le) : x.1 ∈ js := by
  obtain ⟨⟨k, v⟩, hkv, rfl⟩ := List.mem_map.1 (List.mem_mergeSort.1 hx)
  exact Std.HashMap.mem_iff_isSome_getElem?.2 (by simp [Std.HashMap.mem_toList_iff_getElem?_eq_some.1 hkv])

/-- The whole pass keeps the state: the end lists of `pairEnds` are chained by junctions of `js`
that use no end twice. -/
theorem linked_pairEnds (js : Junctions) (n : Nat) :
    ∃ used applied, Linked js n (pairEnds js n) used applied := by
  unfold pairEnds
  dsimp only
  obtain ⟨applied, h⟩ :=
    Linked.foldl_joinEnds _ (fun x hx => mem_of_mem_sorted hx) (_, _, []) [] (Linked.init js n)
  exact ⟨_, applied, h⟩

/-! ## The lists name every path once -/

/-- The signed ends of paths `1 … n`: `1, -1, …, n, -n`. -/
def signedEnds (n : Nat) : List Int :=
  (List.range n).flatMap fun i => [((i + 1 : Nat) : Int), -((i + 1 : Nat) : Int)]

theorem mem_signedEnds {n : Nat} {x : Int} : x ∈ signedEnds n ↔ x ≠ 0 ∧ x.natAbs ≤ n := by
  simp only [signedEnds, List.mem_flatMap, List.mem_range, List.mem_cons, List.not_mem_nil, or_false]
  constructor
  · rintro ⟨i, hi, rfl | rfl⟩ <;> omega
  · rintro ⟨h0, hn⟩
    exact ⟨x.natAbs - 1, by omega, by omega⟩

theorem nodup_signedEnds (n : Nat) : (signedEnds n).Nodup := by
  refine List.nodup_flatMap.2 ⟨fun i _ => ?_, List.nodup_range.imp fun {i j} hij => ?_⟩
  · rw [List.nodup_cons, List.mem_singleton]
    exact ⟨by omega, List.nodup_singleton _⟩
  · intro x hx hx'
    simp only [List.mem_cons, List.not_mem_nil, or_false] at hx hx'
    omega

/-- Lists under two different keys name no path in common. -/
theorem EndsOk.toList_pairwise {n : Nat} {lists : EndLists} (h : EndsOk n lists) :
    lists.toList.Pairwise fun a b => ∀ x ∈ a.2, ∀ y ∈ b.2, x.natAbs ≠ y.natAbs := by
  refine Std.TreeMap.distinct_keys_toList.imp_of_mem fun {a b} ha hb hab x hx y hy hxy => ?_
  have hne : a.1 ≠ b.1 := fun he => hab (by simp [he])
  have hla := Std.TreeMap.mem_toList_iff_getElem?_eq_some.1 ha
  have hlb := Std.TreeMap.mem_toList_iff_getElem?_eq_some.1 hb
  -- `y` is `x` or its other end, and the list of `x` holds both
  rcases Int.natAbs_eq_natAbs_iff.1 hxy with rfl | rfl
  · exact h.apart _ _ _ _ hne hla hlb x hx hy
  · exact h.apart _ _ _ _ hne hla hlb y (by simpa using (h.blocks _ _ hla).neg_mem hx) hy

/-- Lists of ends in which every path from `1` to `n` has its ends once, and no other end
stands, hold together exactly the ends `1, -1, …, n, -n`. -/
theorem EndsOk.perm_signedEnds {n : Nat} {lists : EndLists} (h : EndsOk n lists)
    (hb : ∀ (k : Int) (l : List Int), lists[k]? = some l → ∀ x ∈ l, x.natAbs ≤ n) :
    (lists.toList.flatMap (·.2)).Perm (signedEnds n) := by
  refine (List.perm_ext_iff_of_nodup ?_ (nodup_signedEnds n)).2 fun x => ?_
  · refine List.nodup_flatMap.2 ⟨fun kl hkl => h.nodup _ _ (Std.TreeMap.mem_toList_iff_getElem?_eq_some.1 hkl), ?_⟩
    exact h.toList_pairwise.imp fun hab x hxa hxb => hab x hxa x hxb rfl
  · rw [List.mem_flatMap, mem_signedEnds]
    constructor
    · rintro ⟨⟨k, l⟩, hkl, hx⟩
      have hl := Std.TreeMap.mem_toList_iff_getElem?_eq_some.1 hkl
      exact ⟨fun h0 => h.nonzero _ _ hl (h0 ▸ hx), hb _ _ hl x hx⟩
    · rintro ⟨h0, hn⟩
      obtain ⟨k, l, hl, hi⟩ := h.covers (x.natAbs - 1) (by omega)
      refine ⟨(k, l), Std.TreeMap.mem_toList_iff_getElem?_eq_some.2 hl, ?_⟩
      -- the list of path `|x|` holds both its ends
      have hx : ((x.natAbs - 1 + 1 : Nat) : Int) = x ∨ ((x.natAbs - 1 + 1 : Nat) : Int) = -x := by omega
      rcases hx with hx | hx
      · exact hx ▸ hi
      · simpa [hx] using (h.blocks _ _ hl).neg_mem hi

namespace Linked

variable {js : Junctions} {n : Nat} {lists : EndLists} {used : List Int} {applied : List (Int × Int)}

/-- Every list holds whole paths, none twice, consecutive ones meeting at an applied junction. -/
theorem chains (h : Linked js n lists used applied) {k : Int} {l : List Int} (hl : lists[k]? = some l) :
    ∃ fs : List Int, l = blockEnds fs ∧ (fs.map Int.natAbs).Nodup ∧ fs.IsChain fun x y => Meets applied (-x) y := by
  obtain ⟨fs, rfl, hc⟩ := h.chained k l hl
  exact ⟨fs, rfl, nodup_natAbs_of_nodup_blockEnds (h.ends.nodup k _ hl), hc⟩

/-- No end takes part in two applied junctions. -/
theorem applied_nodup (h : Linked js n lists used applied) : (applied.flatMap fun j => [j.1, j.2]).Nodup := by
  have hp : (applied.flatMap fun j => [j.2, j.1]).Perm (applied.flatMap fun j => [j.1, j.2]) :=
    List.Perm.flatMap_left _ fun j _ => List.Perm.swap j.1 j.2 []
  rw [← hp.nodup_iff, ← h.used_eq]
  exact h.used_nodup

end Linked

/-! ## The pairing walk -/

namespace MergeWalk

variable {g : AssemblyGraph}

/-- Reading the ends `l` from `w`, every end that closes a pair finds the path of its slot still
there: the walk never reaches a path it has taken already. -/
def FindsSlots (g : AssemblyGraph) : MergeWalk → List Int → Prop
  | _, [] => True
  | w, e :: l => (e = -w.lastEnd → ∃ p, (w.slots[e.natAbs - 1]?).join = some p) ∧ FindsSlots g (w.step g e) l

/-- Reading the lists one after another, each from a fresh start, no end that closes a pair finds
its slot emptied. -/
def FindsAllSlots (g : AssemblyGraph) : MergeWalk → List (Int × List Int) → Prop
  | _, [] => True
  | w, kl :: L => FindsSlots g { w with current := none, lastEnd := 0 } kl.2 ∧ FindsAllSlots g (run g w kl.2) L

/-- Reading ends none of which closes a pair at slot `i` leaves slot `i` as it is. -/
theorem join_getElem?_foldl_step {i : Nat} : ∀ (l : List Int) (w : MergeWalk), (∀ e ∈ l, e.natAbs - 1 ≠ i) →
    ((l.foldl (step g) w).slots[i]?).join = (w.slots[i]?).join
  | [], _, _ => rfl
  | e :: l, w, hl => by
    rw [List.foldl_cons, join_getElem?_foldl_step l _ fun e' he' => hl e' (List.mem_cons_of_mem e he'), step_eq]
    split
    · rw [join_getElem?_take, if_neg (Ne.symm (hl e List.mem_cons_self))]
    · rfl

/-- On a run of pairs with no end twice and none zero, from a walk whose last end closes no pair
of it and which holds the path of every end named, each pair is closed on a full slot. -/
theorem findsSlots_blocks {l : List Int} (hb : Blocks l) (hnd : l.Nodup) (h0 : (0 : Int) ∉ l) :
    ∀ w : MergeWalk, -w.lastEnd ∉ l → (∀ x ∈ l, ∃ p, (w.slots[x.natAbs - 1]?).join = some p) →
      FindsSlots g w l := by
  induction hb with
  | nil => exact fun _ _ _ => trivial
  | @cons x l hb ih =>
    intro w hlast hfull
    have hx : x ∉ -x :: l := (List.nodup_cons.1 hnd).1
    have hnx : -x ∉ l := (List.nodup_cons.1 (List.nodup_cons.1 hnd).2).1
    have hx0 : x ≠ 0 := fun h => h0 (h ▸ List.mem_cons_self)
    -- the first end of the pair only becomes the last end; the second closes the pair
    have hopen : x ≠ -w.lastEnd := fun h => hlast (h ▸ List.mem_cons_self)
    have h1 : w.step g x = { w with lastEnd := x } := by rw [step_eq, if_neg hopen]
    have h2 : ({ w with lastEnd := x } : MergeWalk).step g (-x) =
        take g { w with lastEnd := -x } ((-x).natAbs - 1) (decide (0 < -x)) := by
      rw [step_eq, if_pos rfl]
    refine ⟨fun h => absurd h hopen, ?_⟩
    rw [h1]
    refine ⟨fun _ => by simpa using hfull x List.mem_cons_self, ?_⟩
    rw [h2]
    refine ih (List.nodup_cons.1 (List.nodup_cons.1 hnd).2).2
      (fun h => h0 (List.mem_cons_of_mem _ (List.mem_cons_of_mem _ h))) _ ?_ fun y hy => ?_
    · rw [lastEnd_take]
      show -(-x) ∉ l
      rw [Int.neg_neg]
      exact fun h => hx (List.mem_cons_of_mem _ h)
    · -- the other paths of the run keep their slots
      have hy0 : y ≠ 0 := fun h => h0 (List.mem_cons_of_mem _ (List.mem_cons_of_mem _ (h ▸ hy)))
      have hne : y.natAbs ≠ x.natAbs := fun he => by
        rcases Int.natAbs_eq_natAbs_iff.1 he with rfl | rfl
        · exact hx (List.mem_cons_of_mem _ hy)
        · exact hnx hy
      rw [join_getElem?_take, if_neg (by rw [Int.natAbs_neg]; omega)]
      exact hfull y (List.mem_cons_of_mem _ (List.mem_cons_of_mem _ hy))

/-- Reading lists of whole paths that name no path in common, from a walk holding every path
they name: each list, read from a fresh start, closes its pairs on full slots. -/
theorem findsAllSlots : ∀ (L : List (Int × List Int)) (w : MergeWalk),
    (∀ kl ∈ L, Blocks kl.2 ∧ kl.2.Nodup ∧ (0 : Int) ∉ kl.2) →
    L.Pairwise (fun a b => ∀ x ∈ a.2, ∀ y ∈ b.2, x.natAbs ≠ y.natAbs) →
    (∀ kl ∈ L, ∀ x ∈ kl.2, ∃ p, (w.slots[x.natAbs - 1]?).join = some p) →
    FindsAllSlots g w L
  | [], _, _, _, _ => trivial
  | kl :: L, w, hL, hpw, hfull => by
    obtain ⟨hb, hnd, h0⟩ := hL kl List.mem_cons_self
    refine ⟨findsSlots_blocks hb hnd h0 _ (by simpa using h0) (hfull kl List.mem_cons_self), ?_⟩
    refine findsAllSlots L _ (fun kl' h => hL kl' (List.mem_cons_of_mem _ h)) (List.pairwise_cons.1 hpw).2
      fun kl' hkl' y hy => ?_
    have hy0 : y ≠ 0 := fun h => (hL kl' (List.mem_cons_of_mem _ hkl')).2.2 (h ▸ hy)
    rw [join_getElem?_run, join_getElem?_foldl_step]
    · exact hfull kl' (List.mem_cons_of_mem _ hkl') y hy
    · -- the list read names other paths than the later ones
      intro e he
      have hne := (List.pairwise_cons.1 hpw).1 kl' hkl' e he y hy
      have he0 : e ≠ 0 := fun h => h0 (h ▸ he)
      omega

/-- Reading lists of whole paths that name, between them, the path of every full slot leaves no
slot full. -/
theorem join_getElem?_foldl_run : ∀ (L : List (Int × List Int)) (w : MergeWalk),
    (∀ kl ∈ L, Blocks kl.2 ∧ kl.2.Nodup ∧ (0 : Int) ∉ kl.2) →
    (∀ (i : Nat) (p : Path), (w.slots[i]?).join = some p → ∃ kl ∈ L, ∃ x ∈ kl.2, x.natAbs = i + 1) →
    ∀ i : Nat, ((L.foldl (fun w kl => run g w kl.2) w).slots[i]?).join = none
  | [], w, _, hlive, i => by
    rw [List.foldl_nil]
    cases h : (w.slots[i]?).join with
    | none => rfl
    | some p =>
      obtain ⟨kl, hkl, -⟩ := hlive i p h
      exact absurd hkl List.not_mem_nil
  | kl :: L, w, hL, hlive, i => by
    obtain ⟨hb, hnd, h0⟩ := hL kl List.mem_cons_self
    rw [List.foldl_cons]
    refine join_getElem?_foldl_run L _ (fun kl' h => hL kl' (List.mem_cons_of_mem _ h)) (fun i p h => ?_) i
    rw [join_getElem?_run] at h
    -- a slot still full after the list was full before and is not named by the list
    obtain ⟨hw, hout⟩ := slots_foldl_blocks hb hnd _ (by simpa using h0) i p h
    obtain ⟨kl', hkl', x, hx, hxi⟩ := hlive i p hw
    rcases List.mem_cons.1 hkl' with rfl | hkl'
    · exact absurd hxi (hout x hx)
    · exact ⟨kl', hkl', x, hx, hxi⟩

end MergeWalk

/-- The pairing walk over the end lists of `pairEnds` for the paths `paths`: it starts with every
path in its slot, closes each pair on a full slot and leaves no slot full. -/
theorem Linked.scan {js : Junctions} {used : List Int} {applied : List (Int × Int)} (g : AssemblyGraph)
    (paths : List Path) {lists : EndLists} (h : Linked js paths.length lists used applied) :
    MergeWalk.FindsAllSlots g { slots := paths.toArray.map some, merged := #[] } lists.toList ∧
      ∀ i : Nat, ((lists.foldl (fun w _ ends => MergeWalk.run g w ends)
        { slots := paths.toArray.map some, merged := #[] }).slots[i]?).join = none := by
  have hL : ∀ kl ∈ lists.toList, Blocks kl.2 ∧ kl.2.Nodup ∧ (0 : Int) ∉ kl.2 := fun kl hkl => by
    have hl := Std.TreeMap.mem_toList_iff_getElem?_eq_some.1 hkl
    exact ⟨h.ends.blocks _ _ hl, h.ends.nodup _ _ hl, h.ends.nonzero _ _ hl⟩
  -- the slot of path `i + 1` is full exactly when `i` is below the number of paths
  have hslot : ∀ i : Nat, (((paths.toArray.map some)[i]?).join).isSome ↔ i < paths.length := by
    intro i
    by_cases hi : i < paths.length <;> simp [hi]
  refine ⟨MergeWalk.findsAllSlots _ _ hL h.ends.toList_pairwise fun kl hkl x hx => ?_, ?_⟩
  · have hl := Std.TreeMap.mem_toList_iff_getElem?_eq_some.1 hkl
    have h0 : x ≠ 0 := fun h0 => h.ends.nonzero _ _ hl (h0 ▸ hx)
    have hn := h.bounded _ _ hl x hx
    exact Option.isSome_iff_exists.1 ((hslot _).2 (by omega))
  · rw [Std.TreeMap.foldl_eq_foldl_toList]
    refine MergeWalk.join_getElem?_foldl_run _ _ hL fun i p hp => ?_
    obtain ⟨k, l, hl, hi⟩ := h.ends.covers i ((hslot i).1 (Option.isSome_iff_exists.2 ⟨p, hp⟩))
    exact ⟨(k, l), Std.TreeMap.mem_toList_iff_getElem?_eq_some.2 hl, _, hi, Int.natAbs_natCast (i + 1)⟩

/-- The end lists of `pairEnds`, whatever the junctions: together they hold the ends
`1, -1, …, n, -n`, each once; each holds whole paths, none twice, two consecutive ones facing
each other at the two ends of an applied junction; and the junctions applied are junctions of
`js` using no end twice. So the pairing walk of `mergeClosePaths` over the end lists of its
paths closes every pair on a slot still full and leaves no slot full: it takes each path
exactly once. -/
theorem pairEnds_chains (js : Junctions) (n : Nat) :
    ((pairEnds js n).toList.flatMap (·.2)).Perm (signedEnds n) ∧
      (∃ applied : List (Int × Int), (∀ j ∈ applied, j ∈ js) ∧ (applied.flatMap fun j => [j.1, j.2]).Nodup ∧
        ∀ (k : Int) (l : List Int), (pairEnds js n)[k]? = some l → ∃ fs : List Int, l = blockEnds fs ∧
          (fs.map Int.natAbs).Nodup ∧ fs.IsChain fun x y => Meets applied (-x) y) ∧
      ∀ (g : AssemblyGraph) (paths : List Path),
        MergeWalk.FindsAllSlots g { slots := paths.toArray.map some, merged := #[] }
            (pairEnds js paths.length).toList ∧
          ∀ i : Nat, (((pairEnds js paths.length).foldl (fun w _ ends => MergeWalk.run g w ends)
            { slots := paths.toArray.map some, merged := #[] }).slots[i]?).join = none := by
  obtain ⟨used, applied, h⟩ := linked_pairEnds js n
  refine ⟨h.ends.perm_signedEnds h.bounded, ⟨applied, h.keys, h.applied_nodup, fun k l hl => h.chains hl⟩,
    fun g paths => ?_⟩
  obtain ⟨used', applied', h'⟩ := linked_pairEnds js paths.length
  exact h'.scan g paths

end OverlapLayout
