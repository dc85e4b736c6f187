import Mathlib
import OverlapLayout.Layout.Merge
/-!
  The end lists of `pairEnds`.

  Every path `i` starts as the list `[i, -i]` of its two signed ends, and
  `joinEnds` only puts two whole lists end to end, one of them maybe
  reversed. So, whatever the votes, every list stays a run of adjacent pairs
  `x, -x` (`Blocks`), no end is in two lists or twice in one, and every path
  has its ends in some list (`endsOk_pairEnds`).
-/

namespace OverlapLayout

/-- Signed path ends in adjacent pairs `x, -x`: each path read one way or the other. -/
inductive Blocks : List Int → Prop
  | nil : Blocks []
  | cons (x : Int) {l : List Int} : Blocks l → Blocks (x :: -x :: l)

namespace Blocks

theorem append {l l' : List Int} (h : Blocks l) (h' : Blocks l') : Blocks (l ++ l') := by
  induction h with
  | nil => exact h'
  | cons x _ ih => exact .cons x ih

theorem reverse {l : List Int} (h : Blocks l) : Blocks l.reverse := by
  induction h with
  | nil => exact .nil
  | cons x _ ih =>
    have hx : Blocks [-x, - -x] := .cons (-x) .nil
    rw [Int.neg_neg] at hx
    simpa using ih.append hx

end Blocks

/-- The end lists of `n` paths: runs of pairs holding no end twice and no zero,
no end in two lists, and the end `i + 1` of every path `i` in some list. -/
structure EndsOk (n : Nat) (lists : EndLists) : Prop where
  blocks : ∀ (k : Int) (l : List Int), lists[k]? = some l → Blocks l
  nodup : ∀ (k : Int) (l : List Int), lists[k]? = some l → l.Nodup
  nonzero : ∀ (k : Int) (l : List Int), lists[k]? = some l → (0 : Int) ∉ l
  apart : ∀ (k k' : Int) (l l' : List Int), k ≠ k' → lists[k]? = some l → lists[k']? = some l' →
    ∀ x ∈ l, x ∉ l'
  covers : ∀ i < n, ∃ (k : Int) (l : List Int), lists[k]? = some l ∧ ((i + 1 : Nat) : Int) ∈ l

namespace EndsOk

variable {n : Nat} {lists : EndLists}

section join

variable {g1 g2 : Int} {first second joined : List Int}

/-- Reads of the lists after the list at `g2` is moved onto the one at `g1`. -/
theorem getElem?_join (hne : g1 ≠ g2) (k : Int) : ((lists.erase g2).insert g1 joined)[k]? =
    if k = g1 then some joined else if k = g2 then none else lists[k]? := by
  rw [Std.TreeMap.getElem?_insert, Std.TreeMap.getElem?_erase]
  by_cases h1 : k = g1
  · subst h1
    simp
  · by_cases h2 : k = g2
    · subst h2
      simp [Ne.symm h1, h1]
    · simp [Ne.symm h1, Ne.symm h2, h1, h2]

theorem eq_of_getElem?_join (hne : g1 ≠ g2) {k : Int} {l : List Int}
    (hl : ((lists.erase g2).insert g1 joined)[k]? = some l) :
    (k = g1 ∧ l = joined) ∨ (k ≠ g1 ∧ k ≠ g2 ∧ lists[k]? = some l) := by
  rw [getElem?_join hne] at hl
  split at hl
  next hk =>
    cases hl
    exact .inl ⟨hk, rfl⟩
  next hk =>
    split at hl
    · cases hl
    next hk2 => exact .inr ⟨hk, hk2, hl⟩

variable (hne : g1 ≠ g2) (h1 : lists[g1]? = some first) (h2 : lists[g2]? = some second)
  (hp : joined.Perm (first ++ second))
include hne h1 h2 hp

/-- Where an end of a list after the move was before it: the list at `g2` went to `g1`. -/
theorem source_join {k : Int} {l : List Int} (hl : ((lists.erase g2).insert g1 joined)[k]? = some l)
    {x : Int} (hx : x ∈ l) : ∃ k0 l0, lists[k0]? = some l0 ∧ x ∈ l0 ∧ k = if k0 = g2 then g1 else k0 := by
  rcases eq_of_getElem?_join hne hl with ⟨rfl, rfl⟩ | ⟨-, hk2, hl⟩
  · rcases List.mem_append.1 (hp.subset hx) with hx | hx
    · exact ⟨k, first, h1, hx, by rw [if_neg hne]⟩
    · exact ⟨g2, second, h2, hx, by rw [if_pos rfl]⟩
  · exact ⟨k, l, hl, hx, by rw [if_neg hk2]⟩

/-- Where an end of a list before the move is after it. -/
theorem target_join {k0 : Int} {l0 : List Int} (hl0 : lists[k0]? = some l0) {x : Int} (hx : x ∈ l0) :
    ∃ l, ((lists.erase g2).insert g1 joined)[if k0 = g2 then g1 else k0]? = some l ∧ x ∈ l := by
  by_cases hk2 : k0 = g2
  · subst hk2
    rw [h2, Option.some.injEq] at hl0
    subst hl0
    rw [if_pos rfl, getElem?_join hne, if_pos rfl]
    exact ⟨joined, rfl, hp.symm.subset (List.mem_append_right _ hx)⟩
  · rw [if_neg hk2, getElem?_join hne]
    by_cases hk1 : k0 = g1
    · subst hk1
      rw [h1, Option.some.injEq] at hl0
      subst hl0
      exact ⟨joined, if_pos rfl, hp.symm.subset (List.mem_append_left _ hx)⟩
    · rw [if_neg hk1, if_neg hk2]
      exact ⟨l0, hl0, hx⟩

/-- Moving one list onto another, joined as a run of pairs, keeps the end lists. -/
theorem join (h : EndsOk n lists) (hb : Blocks joined) : EndsOk n ((lists.erase g2).insert g1 joined) := by
  have hnd : joined.Nodup := hp.nodup_iff.2 (List.nodup_append.2 ⟨h.nodup _ _ h1, h.nodup _ _ h2,
    fun a ha b hb' hab => h.apart _ _ _ _ hne h1 h2 a ha (hab ▸ hb')⟩)
  refine ⟨fun k l hl => ?_, fun k l hl => ?_, fun k l hl => ?_, fun k k' l l' hkk' hl hl' x hx hx' => ?_,
    fun i hi => ?_⟩
  · rcases eq_of_getElem?_join hne hl with ⟨-, rfl⟩ | ⟨-, -, hl⟩
    · exact hb
    · exact h.blocks _ _ hl
  · rcases eq_of_getElem?_join hne hl with ⟨-, rfl⟩ | ⟨-, -, hl⟩
    · exact hnd
    · exact h.nodup _ _ hl
  · rcases eq_of_getElem?_join hne hl with ⟨-, rfl⟩ | ⟨-, -, hl⟩
    · intro h0
      rcases List.mem_append.1 (hp.subset h0) with h0 | h0
      · exact h.nonzero _ _ h1 h0
      · exact h.nonzero _ _ h2 h0
    · exact h.nonzero _ _ hl
  · -- two ends in one list before the move would land in one list after it
    obtain ⟨k0, l0, hl0, hx0, rfl⟩ := source_join hne h1 h2 hp hl hx
    obtain ⟨k0', l0', hl0', hx0', rfl⟩ := source_join hne h1 h2 hp hl' hx'
    by_cases hk : k0 = k0'
    · subst hk
      exact hkk' rfl
    · exact h.apart _ _ _ _ hk hl0 hl0' x hx0 hx0'
  · obtain ⟨k0, l0, hl0, hx0⟩ := h.covers i hi
    obtain ⟨l, hl, hx⟩ := target_join hne h1 h2 hp hl0 hx0
    exact ⟨_, l, hl, hx⟩

end join

theorem joinEnds (h : EndsOk n lists) (groups : Std.HashMap Int Int) (used : List Int) (p1 p2 : Int) :
    EndsOk n (OverlapLayout.joinEnds (groups, lists, used) p1 p2).2.1 := by
  unfold OverlapLayout.joinEnds
  dsimp only
  split
  · exact h
  split
  next g1 g2 hg1 hg2 =>
    split
    · exact h
    next hne =>
      split
      next first second h1 h2 =>
        split
        next rev app hrev happ =>
          have hne' : g1 ≠ g2 := by simpa using hne
          -- the second list, turned to meet the first, is still a run of pairs of the same ends
          have hsb : Blocks (if rev = true then second.reverse else second) := by
            split
            · exact (h.blocks _ _ h2).reverse
            · exact h.blocks _ _ h2
          have hsp : (if rev = true then second.reverse else second).Perm second := by
            split
            · exact List.reverse_perm _
            · exact List.Perm.refl _
          refine h.join hne' h1 h2 ?_ ?_
          · split
            · exact hsp.append_left first
            · exact List.perm_append_comm.trans (((List.reverse_perm _).trans hsp).append_left first)
          · split
            · exact (h.blocks _ _ h1).append hsb
            · exact hsb.reverse.append (h.blocks _ _ h1)
        · exact h
      · exact h
  · exact h

/-- Joining along any list of junctions keeps the end lists. -/
theorem foldl_joinEnds : ∀ (pairs : List ((Int × Int) × Nat)) (st : Std.HashMap Int Int × EndLists × List Int),
    EndsOk n st.2.1 → EndsOk n (pairs.foldl (fun st x => OverlapLayout.joinEnds st x.1.1 x.1.2) st).2.1
  | [], _, h => h
  | x :: pairs, (groups, _, used), h => foldl_joinEnds pairs _ (h.joinEnds groups used x.1.1 x.1.2)

theorem getElem?_foldl_insert (ids : List Int) (m : EndLists) (k : Int) :
    (ids.foldl (fun m i => m.insert i [i, -i]) m)[k]? = if k ∈ ids then some [k, -k] else m[k]? := by
  induction ids generalizing m with
  | nil => simp
  | cons i ids ih =>
    rw [List.foldl_cons, ih, Std.TreeMap.getElem?_insert]
    by_cases hk : k ∈ ids
    · simp [hk]
    · by_cases hik : i = k
      · subst hik
        simp
      · simp [hk, hik, Ne.symm hik]

/-- Each path alone in the list of its two ends. -/
theorem init (n : Nat) :
    EndsOk n (((List.range n).map fun i => ((i + 1 : Nat) : Int)).foldl
      (fun (m : EndLists) i => m.insert i [i, -i]) ∅) := by
  have hread : ∀ k l, (((List.range n).map fun i => ((i + 1 : Nat) : Int)).foldl
      (fun (m : EndLists) i => m.insert i [i, -i]) ∅)[k]? = some l → 0 < k ∧ l = [k, -k] := by
    intro k l hl
    rw [getElem?_foldl_insert] at hl
    split at hl
    next hk =>
      obtain ⟨i, -, rfl⟩ := List.mem_map.1 hk
      exact ⟨by omega, (Option.some.inj hl).symm⟩
    · simp at hl
  refine ⟨fun k l hl => ?_, fun k l hl => ?_, fun k l hl => ?_, fun k k' l l' hkk' hl hl' x hx hx' => ?_,
    fun i hi => ⟨((i + 1 : Nat) : Int), [((i + 1 : Nat) : Int), -((i + 1 : Nat) : Int)], ?_, List.mem_cons_self⟩⟩
  · obtain ⟨-, rfl⟩ := hread k l hl
    exact .cons k .nil
  · obtain ⟨hk, rfl⟩ := hread k l hl
    simp
    omega
  · obtain ⟨hk, rfl⟩ := hread k l hl
    simp
    omega
  · obtain ⟨hk, rfl⟩ := hread k l hl
    obtain ⟨hk', rfl⟩ := hread k' l' hl'
    simp at hx hx'
    omega
  · rw [getElem?_foldl_insert, if_pos (List.mem_map.2 ⟨i, List.mem_range.2 hi, rfl⟩)]

theorem endsOk_pairEnds (js : Junctions) (n : Nat) : EndsOk n (pairEnds js n) := by
  unfold pairEnds
  dsimp only
  exact foldl_joinEnds _ _ (init n)

end EndsOk

end OverlapLayout
