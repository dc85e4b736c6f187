import Mathlib
import OverlapLayout.Graph.UnionFind
/-!
  The disjoint sets answer what their unions say.

  * `UnionFind.Reaches`: following parents from an element reaches a
    representative in a number of links; `UnionFind.WF`: every element reaches
    one within as many links as there are parents, so `find`'s walk is long
    enough.
  * `UnionFind.find_eq_of_reaches`, `find_of_link`: `find` answers the
    representative reached.
  * `UnionFind.Halves`, `halveLoop_spec`: the walk of `findHalving` ends at the
    representative and halves the path to it, which keeps every representative
    and makes no walk longer.
  * `UnionFind.union_cases`: everything a union can do; `union_spec`: it
    reports whether the two classes were apart and merges exactly them.
-/

namespace OverlapLayout

namespace UnionFind

/-- Following parents from `x` reaches the representative `r` in `k` links. -/
inductive Reaches (parent : Std.HashMap Nat Nat) : Nat → Nat → Nat → Prop
  | root {r : Nat} : parent[r]? = none → Reaches parent 0 r r
  | link {k x p r : Nat} : parent[x]? = some p → Reaches parent k p r → Reaches parent (k + 1) x r

/-- Every element reaches a representative within as many links as there are parents. -/
def WF (u : UnionFind) : Prop := ∀ x, ∃ k r, k ≤ u.parent.size ∧ Reaches u.parent k x r

variable {parent : Std.HashMap Nat Nat}

theorem Reaches.isRoot {k x r : Nat} (h : Reaches parent k x r) : parent[r]? = none := by
  induction h with
  | root hr => exact hr
  | link _ _ ih => exact ih

theorem Reaches.unique {k k' x r r' : Nat} (h : Reaches parent k x r) (h' : Reaches parent k' x r') :
    k = k' ∧ r = r' := by
  induction h generalizing k' with
  | root hr =>
    cases h' with
    | root _ => exact ⟨rfl, rfl⟩
    | link hp _ => rw [hr] at hp; cases hp
  | link hp _ ih =>
    cases h' with
    | root hr => rw [hr] at hp; cases hp
    | link hp' h'' =>
      rw [hp] at hp'
      cases hp'
      obtain ⟨rfl, rfl⟩ := ih h''
      exact ⟨rfl, rfl⟩

theorem rootLoop_of_reaches {k x r : Nat} (h : Reaches parent k x r) :
    ∀ fuel, k ≤ fuel → rootLoop parent fuel x = r := by
  induction h with
  | root hr =>
    intro fuel _
    cases fuel with
    | zero => rfl
    | succ fuel => simp [rootLoop, hr]
  | link hp _ ih =>
    intro fuel hk
    obtain ⟨fuel, rfl⟩ : ∃ f, fuel = f + 1 := ⟨fuel - 1, by omega⟩
    simp only [rootLoop, Std.HashMap.get?_eq_getElem?, hp]
    exact ih fuel (by omega)

section wf

variable {u : UnionFind} (hu : u.WF)
include hu

theorem find_eq_of_reaches {k x r : Nat} (h : Reaches u.parent k x r) : u.find x = r := by
  obtain ⟨k', r', hk', h'⟩ := hu x
  obtain ⟨rfl, rfl⟩ := h.unique h'
  exact rootLoop_of_reaches h _ hk'

theorem find_isRoot (x : Nat) : u.parent[u.find x]? = none := by
  obtain ⟨k, r, -, h⟩ := hu x
  rw [find_eq_of_reaches hu h]
  exact h.isRoot

theorem find_of_root {x : Nat} (h : u.parent[x]? = none) : u.find x = x :=
  find_eq_of_reaches hu (.root h)

theorem find_of_link {x p : Nat} (h : u.parent[x]? = some p) : u.find x = u.find p := by
  obtain ⟨k, r, -, hp⟩ := hu p
  rw [find_eq_of_reaches hu (.link h hp), find_eq_of_reaches hu hp]

end wf

theorem wf_new (n : Nat) : (new n).WF := fun x => ⟨0, x, Nat.zero_le _, .root (by simp [new])⟩

theorem find_new (n x : Nat) : (new n).find x = x := find_of_root (wf_new n) (by simp [new])

/-! ## Path halving -/

/-- `parent'` has the representatives and the number of parents of `parent`, and in it every
element reaches the same representative in no more links. -/
structure Halves (parent parent' : Std.HashMap Nat Nat) : Prop where
  root_iff : ∀ x : Nat, parent'[x]? = none ↔ parent[x]? = none
  size_eq : parent'.size = parent.size
  reaches : ∀ {k x r : Nat}, Reaches parent k x r → ∃ k' ≤ k, Reaches parent' k' x r

theorem Halves.refl (parent : Std.HashMap Nat Nat) : Halves parent parent :=
  ⟨fun _ => Iff.rfl, rfl, fun h => ⟨_, Nat.le_refl _, h⟩⟩

theorem Halves.trans {p₁ p₂ p₃ : Std.HashMap Nat Nat} (h₁ : Halves p₁ p₂) (h₂ : Halves p₂ p₃) :
    Halves p₁ p₃ where
  root_iff x := (h₂.root_iff x).trans (h₁.root_iff x)
  size_eq := h₂.size_eq.trans h₁.size_eq
  reaches h := by
    obtain ⟨k₁, hk₁, h₁'⟩ := h₁.reaches h
    obtain ⟨k₂, hk₂, h₂'⟩ := h₂.reaches h₁'
    exact ⟨k₂, Nat.le_trans hk₂ hk₁, h₂'⟩

theorem Reaches.tail {k x p r : Nat} (h : Reaches parent k x r) (hp : parent[x]? = some p) :
    ∃ j, k = j + 1 ∧ Reaches parent j p r := by
  cases h with
  | root hr => rw [hr] at hp; cases hp
  | link hp' h' =>
    rw [hp] at hp'
    cases hp'
    exact ⟨_, rfl, h'⟩

/-- An element that reaches a representative is not its own parent. -/
theorem Reaches.parent_ne {k x p r : Nat} (h : Reaches parent k x r) (hp : parent[x]? = some p) :
    p ≠ x := by
  rintro rfl
  obtain ⟨j, rfl, h'⟩ := h.tail hp
  exact absurd (h.unique h').1 (by omega)

/-- The walk goes on at the grandparent, or at the parent when that is the representative:
nearer the representative. -/
theorem Reaches.grandparent {k x p r : Nat} (h : Reaches parent k x r) (hp : parent[x]? = some p) :
    ∃ j < k, Reaches parent j (parent[p]?.getD p) r := by
  obtain ⟨j, rfl, hj⟩ := h.tail hp
  obtain hq | ⟨q, hq⟩ := parent[p]?.eq_none_or_eq_some
  · exact ⟨j, by omega, by simpa [hq] using hj⟩
  · obtain ⟨i, rfl, hi⟩ := hj.tail hq
    exact ⟨i, by omega, by simpa [hq] using hi⟩

/-- Pointing an element at its grandparent changes no representative and makes no walk longer. -/
theorem halves_insert {x p : Nat} (hp : parent[x]? = some p) :
    Halves parent (parent.insert x (parent[p]?.getD p)) where
  root_iff y := by
    by_cases hy : x = y
    · subst hy
      simp [hp]
    · rw [Std.HashMap.getElem?_insert, if_neg (by simpa using hy)]
  size_eq := by
    rw [Std.HashMap.size_insert, if_pos (Std.HashMap.mem_iff_isSome_getElem?.2 (by simp [hp]))]
  reaches h := by
    induction h with
    | @root y hr =>
      have hy : x ≠ y := by
        rintro rfl
        rw [hp] at hr
        cases hr
      exact ⟨0, Nat.le_refl _, .root (by rw [Std.HashMap.getElem?_insert, if_neg (by simpa using hy)]; exact hr)⟩
    | @link k y p' r hy h' ih =>
      obtain ⟨k', hk', ih⟩ := ih
      by_cases hyx : x = y
      · subst hyx
        rw [hp] at hy
        cases hy
        have hpx : p ≠ x := (Reaches.link hp h').parent_ne hp
        obtain hq | ⟨q, hq⟩ := parent[p]?.eq_none_or_eq_some
        · exact ⟨k' + 1, by omega, .link (by simp [hq]) ih⟩
        · -- the old walk went on through `p` to `q`; the new one skips `p`
          have hpq : (parent.insert x (parent[p]?.getD p))[p]? = some q := by
            rw [Std.HashMap.getElem?_insert, if_neg (by simpa using hpx.symm)]
            exact hq
          obtain ⟨j, rfl, hj⟩ := ih.tail hpq
          exact ⟨j + 1, by omega, .link (by simp [hq]) hj⟩
      · refine ⟨k' + 1, by omega, .link ?_ ih⟩
        rw [Std.HashMap.getElem?_insert, if_neg (by simpa using hyx)]
        exact hy

/-- A walk given at least as many steps as the element's links ends at its representative,
having halved the path to it. -/
theorem halveLoop_spec {fuel k x r : Nat} (h : Reaches parent k x r) (hk : k ≤ fuel) :
    (halveLoop parent fuel x).1 = r ∧ Halves parent (halveLoop parent fuel x).2 := by
  induction fuel generalizing parent x k with
  | zero =>
    obtain rfl : k = 0 := by omega
    cases h with
    | root _ => exact ⟨rfl, .refl _⟩
  | succ fuel ih =>
    obtain hx | ⟨p, hp⟩ := parent[x]?.eq_none_or_eq_some
    · cases h with
      | root _ =>
        simp only [halveLoop, Std.HashMap.get?_eq_getElem?, hx, true_and]
        exact .refl _
      | link hp _ => rw [hx] at hp; cases hp
    · obtain ⟨j, hj, hg⟩ := h.grandparent hp
      have hstep := halves_insert hp
      obtain ⟨j', hj', hg'⟩ := hstep.reaches hg
      obtain ⟨h1, h2⟩ := ih hg' (by omega)
      simp only [halveLoop, Std.HashMap.get?_eq_getElem?, hp]
      exact ⟨h1, hstep.trans h2⟩

@[simp] theorem findHalving_fst (u : UnionFind) (x : Nat) :
    (u.findHalving x).1 = (halveLoop u.parent u.parent.size x).1 := rfl

@[simp] theorem findHalving_parent (u : UnionFind) (x : Nat) :
    (u.findHalving x).2.parent = (halveLoop u.parent u.parent.size x).2 := rfl

@[simp] theorem findHalving_size (u : UnionFind) (x : Nat) : (u.findHalving x).2.size = u.size := rfl

@[simp] theorem findHalving_count (u : UnionFind) (x : Nat) : (u.findHalving x).2.count = u.count := rfl

section halves

variable {u v : UnionFind}

theorem Halves.wf (hu : u.WF) (h : Halves u.parent v.parent) : v.WF := by
  intro x
  obtain ⟨k, r, hk, hr⟩ := hu x
  obtain ⟨k', hk', hr'⟩ := h.reaches hr
  exact ⟨k', r, by rw [h.size_eq]; omega, hr'⟩

theorem Halves.find_eq (hu : u.WF) (h : Halves u.parent v.parent) (x : Nat) : v.find x = u.find x := by
  obtain ⟨k, r, -, hr⟩ := hu x
  obtain ⟨k', -, hr'⟩ := h.reaches hr
  rw [find_eq_of_reaches (h.wf hu) hr', find_eq_of_reaches hu hr]

/-- The walk of `findHalving` answers the representative and changes no representative. -/
theorem findHalving_spec (hu : u.WF) (x : Nat) :
    (u.findHalving x).1 = u.find x ∧ Halves u.parent (u.findHalving x).2.parent := by
  obtain ⟨k, r, hk, h⟩ := hu x
  obtain ⟨h1, h2⟩ := halveLoop_spec h hk
  rw [findHalving_fst, findHalving_parent, find_eq_of_reaches hu h]
  exact ⟨h1, h2⟩

end halves

/-! ## Grafting one representative under another -/

section link

variable {r1 r2 : Nat} (h1 : parent[r1]? = none) (h2 : parent[r2]? = none) (hne : r1 ≠ r2)
include h1 h2 hne

/-- After linking `r2` under `r1`, whatever reached `r2` reaches `r1` one link later. -/
theorem Reaches.link_root {k x r : Nat} (h : Reaches parent k x r) :
    Reaches (parent.insert r2 r1) (if r = r2 then k + 1 else k) x (if r = r2 then r1 else r) := by
  have hr1 : (parent.insert r2 r1)[r1]? = none := by
    rw [Std.HashMap.getElem?_insert, if_neg (by simpa using Ne.symm hne)]
    exact h1
  induction h with
  | @root r hr =>
    by_cases hr2 : r = r2
    · subst hr2
      simp only [↓reduceIte]
      exact .link (by simp) (.root hr1)
    · simp only [hr2, ↓reduceIte]
      exact .root (by rw [Std.HashMap.getElem?_insert, if_neg (by simpa using Ne.symm hr2)]; exact hr)
  | @link k x p r hp _ ih =>
    -- `x` has a parent, so it is not the root `r2` that gets one
    have hx : x ≠ r2 := fun hx => by rw [hx, h2] at hp; cases hp
    have hp' : (parent.insert r2 r1)[x]? = some p := by
      rw [Std.HashMap.getElem?_insert, if_neg (by simpa using Ne.symm hx)]
      exact hp
    by_cases hr2 : r = r2
    · simp only [hr2, ↓reduceIte] at ih ⊢
      exact .link hp' ih
    · simp only [hr2, ↓reduceIte] at ih ⊢
      exact .link hp' ih

end link

@[simp] theorem graft_parent (u : UnionFind) (ra rb : Nat) :
    (u.graft ra rb).parent = u.parent.insert rb ra := rfl

@[simp] theorem graft_count (u : UnionFind) (ra rb : Nat) : (u.graft ra rb).count = u.count := rfl

theorem classSize_graft (u : UnionFind) (ra rb r : Nat) :
    (u.graft ra rb).classSize r = if r = ra then u.classSize ra + u.classSize rb else u.classSize r := by
  by_cases hr : r = ra
  · subst hr
    simp [graft, classSize]
  · simp only [graft, classSize, Std.HashMap.getD_insert, if_neg hr]
    rw [if_neg (by simpa using Ne.symm hr)]

section graft

variable {u : UnionFind} (hu : u.WF) {r1 r2 : Nat} (h1 : u.parent[r1]? = none)
  (h2 : u.parent[r2]? = none) (hne : r1 ≠ r2)
include hu h1 h2 hne

theorem wf_graft : (u.graft r1 r2).WF := by
  intro x
  obtain ⟨k, r, hk, h⟩ := hu x
  refine ⟨_, _, ?_, h.link_root h1 h2 hne⟩
  have hsize : (u.parent.insert r2 r1).size = u.parent.size + 1 := by
    rw [Std.HashMap.size_insert, if_neg]
    simp [Std.HashMap.mem_iff_isSome_getElem?, h2]
  rw [graft_parent, hsize]
  split <;> omega

/-- After grafting the representative `r2` under `r1`, the class of `r2` joins that of `r1`. -/
theorem find_graft (x : Nat) :
    (u.graft r1 r2).find x = if u.find x = r2 then r1 else u.find x := by
  obtain ⟨k, r, -, h⟩ := hu x
  rw [find_eq_of_reaches hu h]
  exact find_eq_of_reaches (wf_graft hu h1 h2 hne) (h.link_root h1 h2 hne)

/-- Grafting one representative under another joins exactly their two classes. -/
theorem find_graft_eq_iff (x y : Nat) :
    (u.graft r1 r2).find x = (u.graft r1 r2).find y ↔
      u.find x = u.find y ∨ (u.find x = r1 ∧ u.find y = r2) ∨ (u.find x = r2 ∧ u.find y = r1) := by
  rw [find_graft hu h1 h2 hne, find_graft hu h1 h2 hne]
  grind

end graft

/-! ## Union -/

/-- Everything a union can do: its walks leave sets `w` with the same representatives and
sizes, and then either the two classes were one and `w` is the answer, or one of the two
representatives is grafted under the other. -/
theorem union_cases {u : UnionFind} (hu : u.WF) (a b : Nat) :
    ∃ w : UnionFind, Halves u.parent w.parent ∧ w.size = u.size ∧ w.count = u.count ∧
      ((u.find a = u.find b ∧ u.union a b = (false, w)) ∨
        (u.find a ≠ u.find b ∧ ∃ r1 r2, ((r1 = u.find a ∧ r2 = u.find b) ∨
          (r1 = u.find b ∧ r2 = u.find a)) ∧ u.union a b = (true, w.graft r1 r2))) := by
  obtain ⟨ha, hua⟩ := findHalving_spec hu a
  obtain ⟨hb, hw⟩ := findHalving_spec (hua.wf hu) b
  rw [hua.find_eq hu] at hb
  refine ⟨((u.findHalving a).2.findHalving b).2, hua.trans hw, rfl, rfl, ?_⟩
  have hunion : u.union a b =
      if (u.findHalving a).1 = ((u.findHalving a).2.findHalving b).1 then
        (false, ((u.findHalving a).2.findHalving b).2)
      else if ((u.findHalving a).2.findHalving b).2.classSize (u.findHalving a).1 <
          ((u.findHalving a).2.findHalving b).2.classSize ((u.findHalving a).2.findHalving b).1 then
        (true, ((u.findHalving a).2.findHalving b).2.graft ((u.findHalving a).2.findHalving b).1
          (u.findHalving a).1)
      else (true, ((u.findHalving a).2.findHalving b).2.graft (u.findHalving a).1
          ((u.findHalving a).2.findHalving b).1) := rfl
  rw [hunion, ha, hb]
  by_cases hab : u.find a = u.find b
  · exact .inl ⟨hab, if_pos hab⟩
  · refine .inr ⟨hab, ?_⟩
    rw [if_neg hab]
    split
    · exact ⟨_, _, .inr ⟨rfl, rfl⟩, rfl⟩
    · exact ⟨_, _, .inl ⟨rfl, rfl⟩, rfl⟩

/-- Grafting either of two distinct representatives under the other joins exactly their classes. -/
theorem graft_pair {u : UnionFind} (hu : u.WF) {a b r1 r2 : Nat} (hab : u.find a ≠ u.find b)
    (hr : (r1 = u.find a ∧ r2 = u.find b) ∨ (r1 = u.find b ∧ r2 = u.find a)) :
    (u.graft r1 r2).WF ∧ ∀ x y, (u.graft r1 r2).find x = (u.graft r1 r2).find y ↔
      u.find x = u.find y ∨ (u.find x = u.find a ∧ u.find y = u.find b) ∨
        (u.find x = u.find b ∧ u.find y = u.find a) := by
  rcases hr with ⟨rfl, rfl⟩ | ⟨rfl, rfl⟩
  · exact ⟨wf_graft hu (find_isRoot hu a) (find_isRoot hu b) hab,
      find_graft_eq_iff hu (find_isRoot hu a) (find_isRoot hu b) hab⟩
  · refine ⟨wf_graft hu (find_isRoot hu b) (find_isRoot hu a) (Ne.symm hab), fun x y => ?_⟩
    -- the swapped graft lists the two joins the other way round
    rw [find_graft_eq_iff hu (find_isRoot hu b) (find_isRoot hu a) (Ne.symm hab), or_comm (a := _ ∧ _)]

theorem union_spec {u : UnionFind} (hu : u.WF) (a b : Nat) :
    (u.union a b).1 = !decide (u.find a = u.find b) ∧ (u.union a b).2.WF ∧
      ∀ x y, (u.union a b).2.find x = (u.union a b).2.find y ↔
        u.find x = u.find y ∨ (u.find x = u.find a ∧ u.find y = u.find b) ∨
          (u.find x = u.find b ∧ u.find y = u.find a) := by
  obtain ⟨w, hw, -, -, ⟨hab, hunion⟩ | ⟨hab, r1, r2, hr, hunion⟩⟩ := union_cases hu a b
  · -- one class already: the walks leave every class as it was
    rw [hunion]
    refine ⟨by simp [hab], hw.wf hu, fun x y => ?_⟩
    rw [hw.find_eq hu, hw.find_eq hu]
    constructor
    · exact Or.inl
    · rintro (h | ⟨hx, hy⟩ | ⟨hx, hy⟩) <;> simp_all
  · have hfind := hw.find_eq hu
    rw [← hfind, ← hfind] at hab hr
    obtain ⟨hwf, hjoin⟩ := graft_pair (hw.wf hu) hab hr
    rw [hunion]
    refine ⟨by simpa [hfind] using hab, hwf, fun x y => ?_⟩
    simpa only [hfind] using hjoin x y

/-! ## Classes linked by pairs -/

/-- Without pairs only an element is linked to itself. -/
theorem eqvGen_iff_eq_of_empty {α : Type*} {R : α → α → Prop} (h : ∀ u v, ¬ R u v) {x y : α} :
    Relation.EqvGen R x y ↔ x = y := by
  constructor
  · intro hxy
    exact eq_equivalence.eqvGen_iff.1 (Relation.EqvGen.mono (fun u v huv => absurd huv (h u v)) x y hxy)
  · rintro rfl
    exact .refl x

/-- One more pair links what it links through the pairs already there. -/
theorem eqvGen_or_pair {α : Type*} {R : α → α → Prop} {a b x y : α} :
    Relation.EqvGen (fun u v => R u v ∨ u = a ∧ v = b) x y ↔ Relation.EqvGen R x y ∨
      (Relation.EqvGen R x a ∧ Relation.EqvGen R y b) ∨
        (Relation.EqvGen R x b ∧ Relation.EqvGen R y a) := by
  constructor
  · intro h
    induction h with
    | rel u v huv =>
      rcases huv with huv | ⟨rfl, rfl⟩
      · exact .inl (.rel _ _ huv)
      · exact .inr (.inl ⟨.refl _, .refl _⟩)
    | refl u => exact .inl (.refl u)
    | symm u v _ ih =>
      rcases ih with h | ⟨h1, h2⟩ | ⟨h1, h2⟩
      · exact .inl (.symm _ _ h)
      · exact .inr (.inr ⟨h2, h1⟩)
      · exact .inr (.inl ⟨h2, h1⟩)
    | trans u v w _ _ ih1 ih2 =>
      -- going through the new pair twice is not needed
      rcases ih1 with h | ⟨h1, h2⟩ | ⟨h1, h2⟩ <;> rcases ih2 with h' | ⟨h1', h2'⟩ | ⟨h1', h2'⟩
      · exact .inl (.trans _ _ _ h h')
      · exact .inr (.inl ⟨.trans _ _ _ h h1', h2'⟩)
      · exact .inr (.inr ⟨.trans _ _ _ h h1', h2'⟩)
      · exact .inr (.inl ⟨h1, .trans _ _ _ (.symm _ _ h') h2⟩)
      · exact .inr (.inl ⟨h1, h2'⟩)
      · exact .inl (.trans _ _ _ h1 (.symm _ _ h2'))
      · exact .inr (.inr ⟨h1, .trans _ _ _ (.symm _ _ h') h2⟩)
      · exact .inl (.trans _ _ _ h1 (.symm _ _ h2'))
      · exact .inr (.inr ⟨h1, h2'⟩)
  · have hmono : ∀ {u v}, Relation.EqvGen R u v →
        Relation.EqvGen (fun u v => R u v ∨ u = a ∧ v = b) u v :=
      fun h => Relation.EqvGen.mono (fun _ _ => Or.inl) _ _ h
    have hab : Relation.EqvGen (fun u v => R u v ∨ u = a ∧ v = b) a b := .rel _ _ (.inr ⟨rfl, rfl⟩)
    rintro (h | ⟨h1, h2⟩ | ⟨h1, h2⟩)
    · exact hmono h
    · exact .trans _ _ _ (hmono h1) (.trans _ _ _ hab (.symm _ _ (hmono h2)))
    · exact .trans _ _ _ (hmono h1) (.trans _ _ _ (.symm _ _ hab) (.symm _ _ (hmono h2)))

end UnionFind

end OverlapLayout
