import Mathlib
import OverlapLayout.Proofs.Paths.UnionFind
/-!
  Disjoint sets after any run of calls.

  From the sets of `0 .. n - 1`, a run of `find` and `union` calls on elements
  below `n` never fails (`runCalls`). `Classes` says what every set it passes
  through holds: the walks end at representatives, two elements share one
  exactly when the union calls made so far link them (`Linked`), and each
  representative records the size of its class. `Classes.findHalving` and
  `Classes.union` are its step lemmas, `Classes.runCalls` the run.

  `runCalls_classes` reads it for the next call: a `find` answers the
  representative and leaves every element's representative as it was, and a
  `union` answers whether its two elements were apart.
-/

namespace OverlapLayout

namespace UnionFind

/-- A call on the sets. -/
inductive Call where
  /-- The representative of an element. -/
  | find (x : Nat)
  /-- Joining the classes of two elements. -/
  | union (a b : Nat)
  deriving DecidableEq, Repr

/-- Every element the call names is below `n`. -/
def Call.Within (n : Nat) : Call → Prop
  | .find x => x < n
  | .union a b => a < n ∧ b < n

instance (n : Nat) : DecidablePred (Call.Within n)
  | .find x => inferInstanceAs (Decidable (x < n))
  | .union a b => inferInstanceAs (Decidable (a < n ∧ b < n))

/-- Makes the calls in order, each refusing an element outside the sets, and gives the sets
they leave. -/
def runCalls (u : UnionFind) : List Call → Except Panic UnionFind
  | [] => .ok u
  | .find x :: cs => do
    let (_, u) ← u.findChecked x
    u.runCalls cs
  | .union a b :: cs => do
    let (_, u) ← u.unionChecked a b
    u.runCalls cs

theorem findChecked_of_lt {u : UnionFind} {x : Nat} (h : x < u.count) :
    u.findChecked x = .ok (u.findHalving x) := by
  simp [findChecked, check, h]

theorem unionChecked_of_lt {u : UnionFind} {a b : Nat} (ha : a < u.count) (hb : b < u.count) :
    u.unionChecked a b = .ok (u.union a b) := by
  simp [unionChecked, check, ha, hb]
  rfl

/-! ## Elements linked by the union calls -/

/-- Two elements linked through the pairs of the union calls among `cs`. -/
def Linked (cs : List Call) : Nat → Nat → Prop :=
  Relation.EqvGen fun a b => Call.union a b ∈ cs

/-- Without union calls only an element is linked to itself. -/
theorem linked_nil {x y : Nat} : Linked [] x y ↔ x = y :=
  eqvGen_iff_eq_of_empty fun _ _ => List.not_mem_nil

theorem linked_append_find (cs : List Call) (x : Nat) : Linked (cs ++ [.find x]) = Linked cs := by
  have : (fun a b => Call.union a b ∈ cs ++ [.find x]) = fun a b => Call.union a b ∈ cs := by
    funext a b
    simp
  rw [Linked, this, Linked]

/-- A union call links what it links through the calls before it. -/
theorem linked_append_union {cs : List Call} {a b x y : Nat} :
    Linked (cs ++ [.union a b]) x y ↔ Linked cs x y ∨ (Linked cs x a ∧ Linked cs y b) ∨
      (Linked cs x b ∧ Linked cs y a) := by
  have : (fun c d => Call.union c d ∈ cs ++ [.union a b]) =
      fun c d => Call.union c d ∈ cs ∨ c = a ∧ d = b := by
    funext c d
    simp
  rw [Linked, this]
  exact eqvGen_or_pair

/-! ## The invariant -/

/-- What the sets over `0 .. n - 1` hold after the calls `cs`. -/
structure Classes (n : Nat) (cs : List Call) (u : UnionFind) : Prop where
  count_eq : u.count = n
  /-- Every walk reaches a representative within the number of parents. -/
  wf : u.WF
  find_lt : ∀ x < n, u.find x < n
  find_eq_iff : ∀ x y, u.find x = u.find y ↔ Linked cs x y
  classSize_eq : ∀ r < n, u.parent[r]? = none →
    u.classSize r = ((Finset.range n).filter fun x => u.find x = r).card

variable {n : Nat} {cs : List Call} {u : UnionFind}

theorem classes_new (n : Nat) : Classes n [] (new n) where
  count_eq := rfl
  wf := wf_new n
  find_lt x hx := by rwa [find_new]
  find_eq_iff x y := by rw [find_new, find_new, linked_nil]
  classSize_eq r hr _ := by
    have hone : ((Finset.range n).filter fun x => x = r) = {r} := by
      ext x
      simp only [Finset.mem_filter, Finset.mem_range, Finset.mem_singleton]
      constructor
      · exact And.right
      · rintro rfl
        exact ⟨hr, rfl⟩
    simp only [find_new, hone, Finset.card_singleton]
    simp [classSize, new]

/-- Sets whose walks were halved, with the sizes kept, hold what the sets before held. -/
theorem Classes.of_halves (h : Classes n cs u) {v : UnionFind} (hw : Halves u.parent v.parent)
    (hs : v.size = u.size) (hc : v.count = u.count) : Classes n cs v where
  count_eq := hc.trans h.count_eq
  wf := hw.wf h.wf
  find_lt x hx := by rw [hw.find_eq h.wf]; exact h.find_lt x hx
  find_eq_iff x y := by rw [hw.find_eq h.wf, hw.find_eq h.wf]; exact h.find_eq_iff x y
  classSize_eq r hr hroot := by
    have hsize : v.classSize r = u.classSize r := by simp only [classSize, hs]
    rw [hsize, h.classSize_eq r hr ((hw.root_iff r).1 hroot)]
    simp only [hw.find_eq h.wf]

theorem Classes.of_linked_eq {cs' : List Call} (h : Classes n cs u) (hl : Linked cs' = Linked cs) :
    Classes n cs' u :=
  { h with find_eq_iff := fun x y => by rw [hl]; exact h.find_eq_iff x y }

theorem Classes.findHalving (h : Classes n cs u) (x : Nat) :
    Classes n (cs ++ [.find x]) (u.findHalving x).2 :=
  (h.of_halves (findHalving_spec h.wf x).2 rfl rfl).of_linked_eq (linked_append_find cs x)

/-- Grafting one of the two representatives of a union under the other gives the classes the
union call links, with the size of both at the one on top. -/
theorem Classes.graft (h : Classes n cs u) {a b r1 r2 : Nat} (ha : a < n) (hb : b < n)
    (hab : u.find a ≠ u.find b)
    (hr : (r1 = u.find a ∧ r2 = u.find b) ∨ (r1 = u.find b ∧ r2 = u.find a)) :
    Classes n (cs ++ [.union a b]) (u.graft r1 r2) := by
  obtain ⟨hwf, hjoin⟩ := graft_pair h.wf hab hr
  have hroots : u.parent[r1]? = none ∧ u.parent[r2]? = none ∧ r1 ≠ r2 ∧ r1 < n ∧ r2 < n := by
    rcases hr with ⟨rfl, rfl⟩ | ⟨rfl, rfl⟩
    · exact ⟨find_isRoot h.wf a, find_isRoot h.wf b, hab, h.find_lt a ha, h.find_lt b hb⟩
    · exact ⟨find_isRoot h.wf b, find_isRoot h.wf a, Ne.symm hab, h.find_lt b hb, h.find_lt a ha⟩
  obtain ⟨h1, h2, hne, hlt1, hlt2⟩ := hroots
  have hfind := find_graft h.wf h1 h2 hne
  refine ⟨h.count_eq, hwf, fun x hx => ?_, fun x y => ?_, fun r hr hroot => ?_⟩
  · rw [hfind]
    split
    · exact hlt1
    · exact h.find_lt x hx
  · simp only [hjoin, linked_append_union, h.find_eq_iff]
  · -- a representative after the graft is one before it, and not `r2`
    simp only [graft_parent, Std.HashMap.getElem?_insert] at hroot
    split at hroot
    · cases hroot
    rename_i hr2
    have hr2 : r ≠ r2 := fun h => hr2 (by simp [h])
    rw [classSize_graft]
    split
    · -- the class of `r1` took in the class of `r2`
      subst r
      rw [h.classSize_eq r1 hlt1 h1, h.classSize_eq r2 hlt2 h2,
        ← Finset.card_union_of_disjoint (Finset.disjoint_filter.2 fun x _ hx => by rw [hx]; exact hne),
        ← Finset.filter_or]
      congr 1
      refine Finset.filter_congr fun x _ => ?_
      rw [hfind]
      by_cases hx : u.find x = r2
      · rw [if_pos hx]
        exact iff_of_true (.inr hx) rfl
      · rw [if_neg hx]
        exact or_iff_left hx
    · rename_i hr1
      rw [h.classSize_eq r hr hroot]
      congr 1
      refine Finset.filter_congr fun x _ => ?_
      rw [hfind]
      by_cases hx : u.find x = r2
      · rw [if_pos hx, hx]
        exact iff_of_false (Ne.symm hr2) (Ne.symm hr1)
      · rw [if_neg hx]

theorem Classes.union (h : Classes n cs u) {a b : Nat} (ha : a < n) (hb : b < n) :
    Classes n (cs ++ [.union a b]) (u.union a b).2 := by
  obtain ⟨w, hw, hs, hc, ⟨hab, hunion⟩ | ⟨hab, r1, r2, hr, hunion⟩⟩ := union_cases h.wf a b
  · -- one class already: the call links nothing new
    rw [hunion]
    have hl : Linked cs a b := (h.find_eq_iff a b).1 hab
    refine (h.of_halves hw hs hc).of_linked_eq (funext fun x => funext fun y => propext ?_)
    rw [linked_append_union]
    constructor
    · rintro (h | ⟨h1, h2⟩ | ⟨h1, h2⟩)
      · exact h
      · exact .trans _ _ _ h1 (.trans _ _ _ hl (.symm _ _ h2))
      · exact .trans _ _ _ h1 (.trans _ _ _ (.symm _ _ hl) (.symm _ _ h2))
    · exact Or.inl
  · have hfind := hw.find_eq h.wf
    rw [hunion]
    exact (h.of_halves hw hs hc).graft ha hb (by rwa [hfind, hfind]) (by rwa [hfind, hfind])

/-- A run of calls on elements below `n` goes through and keeps `Classes`. -/
theorem Classes.runCalls (h : Classes n cs u) (calls : List Call) (hcalls : ∀ c ∈ calls, c.Within n) :
    ∃ v, u.runCalls calls = .ok v ∧ Classes n (cs ++ calls) v := by
  induction calls generalizing cs u with
  | nil => exact ⟨u, rfl, by simpa using h⟩
  | cons c calls ih =>
    have hc := hcalls c List.mem_cons_self
    have hrest : ∀ c ∈ calls, c.Within n := fun c' hc' => hcalls c' (List.mem_cons_of_mem _ hc')
    cases c with
    | find x =>
      obtain ⟨v, hv, hcl⟩ := ih (h.findHalving x) hrest
      refine ⟨v, ?_, by simpa using hcl⟩
      rw [runCalls, findChecked_of_lt (h.count_eq ▸ hc)]
      exact hv
    | union a b =>
      obtain ⟨v, hv, hcl⟩ := ih (h.union hc.1 hc.2) hrest
      refine ⟨v, ?_, by simpa using hcl⟩
      rw [runCalls, unionChecked_of_lt (h.count_eq ▸ hc.1) (h.count_eq ▸ hc.2)]
      exact hv

/-! ## Any run of calls -/

/-- From the sets of `0 .. n - 1`, any run of calls on elements below `n` goes through. In the
sets it leaves every walk reaches a representative within its bound; the walk of a `find` ends
at the element's representative and leaves every element's representative as it was; a `union`
answers `true` exactly when its two elements are not linked by the union calls made; two
elements share a representative exactly when those calls link them; and each representative
records the number of elements in its class. -/
theorem runCalls_classes (n : Nat) (cs : List Call) (hcs : ∀ c ∈ cs, c.Within n) :
    ∃ u, (new n).runCalls cs = .ok u ∧ u.WF ∧
      (∀ x, u.parent[(u.findHalving x).1]? = none ∧ (u.findHalving x).1 = u.find x ∧
        ∀ y, (u.findHalving x).2.find y = u.find y) ∧
      (∀ a b, (u.union a b).1 = true ↔ ¬ Linked cs a b) ∧
      (∀ x y, u.find x = u.find y ↔ Linked cs x y) ∧
      ∀ r < n, u.parent[r]? = none →
        u.classSize r = ((Finset.range n).filter fun x => u.find x = r).card := by
  obtain ⟨u, hrun, h⟩ := (classes_new n).runCalls cs hcs
  rw [List.nil_append] at h
  refine ⟨u, hrun, h.wf, fun x => ?_, fun a b => ?_, h.find_eq_iff, h.classSize_eq⟩
  · obtain ⟨hfind, hw⟩ := findHalving_spec h.wf x
    refine ⟨?_, hfind, hw.find_eq h.wf⟩
    rw [hfind]
    exact find_isRoot h.wf x
  · rw [(union_spec h.wf a b).1, ← h.find_eq_iff]
    simp

theorem runCalls_classes_five :
    (∀ c ∈ [Call.union 0 1, .union 3 4, .union 1 0, .union 1 4, .find 0, .find 3, .find 2],
        c.Within 5) ∧
      ∃ u, (new 5).runCalls [.union 0 1, .union 3 4, .union 1 0, .union 1 4, .find 0, .find 3,
          .find 2] = .ok u ∧ u.WF ∧
        (∀ x, u.parent[(u.findHalving x).1]? = none ∧ (u.findHalving x).1 = u.find x ∧
          ∀ y, (u.findHalving x).2.find y = u.find y) ∧
        (∀ a b, (u.union a b).1 = true ↔ ¬ Linked [.union 0 1, .union 3 4, .union 1 0,
          .union 1 4, .find 0, .find 3, .find 2] a b) ∧
        (∀ x y, u.find x = u.find y ↔ Linked [.union 0 1, .union 3 4, .union 1 0, .union 1 4,
          .find 0, .find 3, .find 2] x y) ∧
        ∀ r < 5, u.parent[r]? = none →
          u.classSize r = ((Finset.range 5).filter fun x => u.find x = r).card :=
  ⟨by decide, runCalls_classes 5 _ (by decide)⟩

end UnionFind

end OverlapLayout
