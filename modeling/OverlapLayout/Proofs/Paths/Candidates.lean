import Mathlib
import OverlapLayout.Graph.Select
/-!
  The candidates of path building: exactly the live edges among the given ids
  that join two sequences in no host, each once, in strictly increasing
  `(cost, id)` (`mem_pathCandidates`, `pairwise_pathCandidates`).
-/

namespace OverlapLayout

namespace AssemblyGraph

/-- `a` comes before `b` in increasing `(cost, id)`. -/
def Precedes (a b : Nat × Edge) : Prop := a.2.cost < b.2.cost ∨ (a.2.cost = b.2.cost ∧ a.1 < b.1)

theorem Precedes.irrefl (a : Nat × Edge) : ¬ Precedes a a := by
  unfold Precedes; omega

theorem Precedes.trans {a b c : Nat × Edge} (h : Precedes a b) (h' : Precedes b c) : Precedes a c := by
  unfold Precedes at *; omega

/-- Two entries of different ids are ordered one way or the other. -/
theorem Precedes.total {a b : Nat × Edge} (h : a.1 ≠ b.1) : Precedes a b ∨ Precedes b a := by
  unfold Precedes; omega

/-! ## Dropping repeated ids -/

section dedup

/-- The order of the sorted list: by `(cost, id)`, ties only between equal ids. -/
def SortedBy (a b : Nat × Edge) : Prop := Precedes a b ∨ (a.2.cost = b.2.cost ∧ a.1 = b.1)

variable {l : List (Nat × Edge)} {x : Nat × Edge}

theorem mem_of_mem_dedupIds (h : x ∈ dedupIds l) : x ∈ l := by
  fun_induction dedupIds l with
  | case1 a b rest _ ih =>
    rcases List.mem_cons.1 (ih h) with rfl | hx
    · exact List.mem_cons_self
    · exact List.mem_cons_of_mem _ (List.mem_cons_of_mem _ hx)
  | case2 a b rest _ ih =>
    rcases List.mem_cons.1 h with rfl | hx
    · exact List.mem_cons_self
    · exact List.mem_cons_of_mem _ (ih hx)
  | case3 l _ => exact h

theorem mem_dedupIds (hfun : ∀ a ∈ l, ∀ b ∈ l, a.1 = b.1 → a = b) (h : x ∈ l) : x ∈ dedupIds l := by
  fun_induction dedupIds l with
  | case1 a b rest hab ih =>
    -- `b` is `a` again, so the entries kept are those of `a :: rest`
    have hba : b = a :=
      hfun b (by simp) a (by simp) (by simpa using (beq_iff_eq.1 hab).symm)
    refine ih (fun c hc d hd => hfun c ?_ d ?_) ?_
    · rcases List.mem_cons.1 hc with rfl | hc <;> simp [hc]
    · rcases List.mem_cons.1 hd with rfl | hd <;> simp [hd]
    · rcases List.mem_cons.1 h with rfl | h
      · exact List.mem_cons_self
      · rcases List.mem_cons.1 h with rfl | h
        · rw [hba]; exact List.mem_cons_self
        · exact List.mem_cons_of_mem _ h
  | case2 a b rest _ ih =>
    rcases List.mem_cons.1 h with rfl | h
    · exact List.mem_cons_self
    · exact List.mem_cons_of_mem _
        (ih (fun c hc d hd => hfun c (List.mem_cons_of_mem _ hc) d (List.mem_cons_of_mem _ hd)) h)
  | case3 l _ => exact h

theorem pairwise_dedupIds (hfun : ∀ a ∈ l, ∀ b ∈ l, a.1 = b.1 → a = b) (hs : l.Pairwise SortedBy) :
    (dedupIds l).Pairwise Precedes := by
  fun_induction dedupIds l with
  | case1 a b rest _ ih =>
    refine ih (fun c hc d hd => hfun c ?_ d ?_) ?_
    · rcases List.mem_cons.1 hc with rfl | hc <;> simp [hc]
    · rcases List.mem_cons.1 hd with rfl | hd <;> simp [hd]
    · exact List.Pairwise.sublist (.cons_cons _ (.cons _ (List.Sublist.refl _))) hs
  | case2 a b rest hab ih =>
    have hab : a.1 ≠ b.1 := by simpa using hab
    have hs' := List.pairwise_cons.1 hs
    refine List.pairwise_cons.2 ⟨fun y hy => ?_, ih (fun c hc d hd =>
      hfun c (List.mem_cons_of_mem _ hc) d (List.mem_cons_of_mem _ hd)) hs'.2⟩
    have hy' := mem_of_mem_dedupIds hy
    -- an entry after `a` with the id of `a` would be `a` itself, after `b`
    have hya : y.1 ≠ a.1 := by
      intro hya
      have hy_eq : y = a := hfun y (List.mem_cons_of_mem _ hy') a List.mem_cons_self hya
      rcases List.mem_cons.1 hy' with rfl | hyr
      · exact hab (hya.symm.trans (by rw [hy_eq]))
      · have hba : SortedBy b a := hy_eq ▸ (List.pairwise_cons.1 hs'.2).1 y hyr
        have hab' : SortedBy a b := hs'.1 b List.mem_cons_self
        unfold SortedBy Precedes at hba hab'
        omega
    rcases hs'.1 y hy' with h | h
    · exact h
    · exact absurd h.2.symm hya
  | case3 l hl =>
    match l, hl with
    | [], _ => exact List.Pairwise.nil
    | [_], _ => exact List.pairwise_singleton _ _
    | _ :: _ :: _, hl => exact absurd rfl (hl _ _ _)

end dedup

/-! ## The candidates -/

variable {g : AssemblyGraph} {ids : List Nat}

/-- Entries read off the arena are determined by their ids. -/
theorem eq_of_edge? {l : List (Nat × Edge)} (h : ∀ a ∈ l, g.edge? a.1 = some a.2) :
    ∀ a ∈ l, ∀ b ∈ l, a.1 = b.1 → a = b := by
  intro a ha b hb hab
  have hb' := h b hb
  rw [← hab, h a ha] at hb'
  exact Prod.ext hab (Option.some.inj hb')

theorem mem_sorted_live {p : Nat × Edge → Bool} {le : Nat × Edge → Nat × Edge → Bool} {a : Nat × Edge} :
    a ∈ ((ids.filterMap fun id => (g.edge? id).map (id, ·)).filter p).mergeSort le ↔
      a.1 ∈ ids ∧ g.edge? a.1 = some a.2 ∧ p a = true := by
  simp only [List.mem_mergeSort, List.mem_filter, List.mem_filterMap, Option.map_eq_some_iff]
  constructor
  · rintro ⟨⟨id, hid, e, he, rfl⟩, hp⟩
    exact ⟨hid, he, hp⟩
  · rintro ⟨hid, he, hp⟩
    exact ⟨⟨a.1, hid, a.2, he, rfl⟩, hp⟩

theorem mem_pathCandidates {x : Nat × Edge} :
    x ∈ g.pathCandidates ids ↔ x.1 ∈ ids ∧ g.edge? x.1 = some x.2 ∧ g.joinsFree x.2 = true := by
  unfold pathCandidates
  refine ⟨fun h => mem_sorted_live.1 (mem_of_mem_dedupIds h), fun h => ?_⟩
  exact mem_dedupIds (eq_of_edge? fun a ha => (mem_sorted_live.1 ha).2.1) (mem_sorted_live.2 h)

theorem pairwise_pathCandidates : (g.pathCandidates ids).Pairwise Precedes := by
  unfold pathCandidates
  refine pairwise_dedupIds (eq_of_edge? fun a ha => (mem_sorted_live.1 ha).2.1) ?_
  refine (List.pairwise_mergeSort ?_ ?_ _).imp ?_
  · intro a b c hab hbc
    simp only [Bool.or_eq_true, decide_eq_true_eq, Bool.and_eq_true, beq_iff_eq] at *
    omega
  · intro a b
    simp only [Bool.or_eq_true, decide_eq_true_eq, Bool.and_eq_true, beq_iff_eq]
    omega
  · intro a b h
    simp only [Bool.or_eq_true, decide_eq_true_eq, Bool.and_eq_true, beq_iff_eq] at h
    unfold SortedBy Precedes
    omega

end AssemblyGraph

end OverlapLayout
