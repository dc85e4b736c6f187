import Mathlib
import OverlapLayout.Graph.Basic
import OverlapLayout.Error
import OverlapLayout.Proofs.Success
/-!
  The containment records, kept once by contained sequence and once by host.

  * `Mirror`: the two maps hold the same records: a sequence's list holds
    only its own records and a host's list only its own, no list is empty, and
    the records of one sequence in one host are the same, in the same order, in
    both maps.
  * `Mirror.push`, `Mirror.drop`, `Mirror.mapM`: recording a placement in both
    maps, dropping a placement from both, and rewriting every record by one
    function that keeps sequence and host, each keep the mirror.
-/

namespace OverlapLayout

/-- Containment lists by key. -/
abbrev RecordMap := Std.TreeMap Nat (Array Containment) compare

/-! ## Two maps of one set of records -/

/-- The records of the two containment maps mirror each other. -/
structure Mirror (bySequence byHost : RecordMap) : Prop where
  sequence_key : ∀ s c, c ∈ bySequence.getD s #[] → c.sequence = s
  host_key : ∀ h c, c ∈ byHost.getD h #[] → c.host = h
  same : ∀ s h, (bySequence.getD s #[]).toList.filter (·.host == h) =
    (byHost.getD h #[]).toList.filter (·.sequence == s)
  sequence_nonempty : ∀ (s : Nat) (l : Array Containment), bySequence[s]? = some l → l.size ≠ 0
  host_nonempty : ∀ (h : Nat) (l : Array Containment), byHost[h]? = some l → l.size ≠ 0

theorem mirror_empty : Mirror {} {} :=
  ⟨by simp, by simp, by simp, by simp, by simp⟩

namespace Mirror

variable {bs bh : RecordMap}

/-! ### Recording a placement -/

/-- The map with `c` appended to the list of `k`. -/
theorem getD_alter_push (m : RecordMap) (k s : Nat) (c : Containment) :
    (m.alter k fun l => some ((l.getD #[]).push c)).getD s #[] =
      if k = s then (m.getD s #[]).push c else m.getD s #[] := by
  simp only [Std.TreeMap.getD_eq_getD_getElem?, Std.TreeMap.getElem?_alter, Nat.compare_eq_eq]
  split
  · rename_i h; subst h; simp
  · rfl

/-- Recording a placement in both maps keeps the mirror. -/
theorem push (hm : Mirror bs bh) (c : Containment) :
    Mirror (bs.alter c.sequence fun l => some ((l.getD #[]).push c))
      (bh.alter c.host fun l => some ((l.getD #[]).push c)) := by
  refine ⟨?_, ?_, ?_, ?_, ?_⟩
  · intro s x hx
    rw [getD_alter_push] at hx
    split at hx
    · rcases Array.mem_push.1 hx with hx | rfl
      · exact hm.sequence_key s x hx
      · assumption
    · exact hm.sequence_key s x hx
  · intro h x hx
    rw [getD_alter_push] at hx
    split at hx
    · rcases Array.mem_push.1 hx with hx | rfl
      · exact hm.host_key h x hx
      · assumption
    · exact hm.host_key h x hx
  · intro s h
    rw [getD_alter_push, getD_alter_push]
    have hsame := hm.same s h
    by_cases hs : c.sequence = s <;> by_cases hh : c.host = h <;>
      simp [hs, hh, Array.toList_push, List.filter_append, hsame]
  · intro s l hl
    rw [Std.TreeMap.getElem?_alter] at hl
    split at hl
    · cases hl; simp
    · exact hm.sequence_nonempty s l hl
  · intro h l hl
    rw [Std.TreeMap.getElem?_alter] at hl
    split at hl
    · cases hl; simp
    · exact hm.host_nonempty h l hl

/-! ### Dropping a placement -/

theorem getD_dropPlacement (m : RecordMap) (k s : Nat) (c : Containment) :
    (AssemblyGraph.dropPlacement m k c).2.getD s #[] =
      if k = s then (m.getD s #[]).filter (!·.samePlacement c) else m.getD s #[] := by
  unfold AssemblyGraph.dropPlacement
  cases hk : m[k]? with
  | none =>
    simp only [Std.TreeMap.get?_eq_getElem?, hk]
    split
    · rename_i h; subst h; simp [Std.TreeMap.getD_eq_getD_getElem?, hk]
    · rfl
  | some l =>
    simp only [Std.TreeMap.get?_eq_getElem?, hk]
    split
    · rename_i he
      simp only [Std.TreeMap.getD_eq_getD_getElem?, Std.TreeMap.getElem?_erase, Nat.compare_eq_eq]
      split
      · rename_i h; subst h; simp [hk, Array.isEmpty_iff.1 he]
      · rfl
    · simp only [Std.TreeMap.getD_eq_getD_getElem?, Std.TreeMap.getElem?_insert, Nat.compare_eq_eq]
      split
      · rename_i h; subst h; simp [hk]
      · rfl

theorem nonempty_dropPlacement {m : RecordMap}
    (hm : ∀ (s : Nat) (l : Array Containment), m[s]? = some l → l.size ≠ 0) (k : Nat)
    (c : Containment) :
    ∀ (s : Nat) (l : Array Containment), (AssemblyGraph.dropPlacement m k c).2[s]? = some l →
      l.size ≠ 0 := by
  intro s l hl
  unfold AssemblyGraph.dropPlacement at hl
  split at hl
  · exact hm s l hl
  · simp only at hl
    split at hl
    · rw [Std.TreeMap.getElem?_erase] at hl
      split at hl
      · cases hl
      · exact hm s l hl
    · rename_i he
      rw [Std.TreeMap.getElem?_insert] at hl
      split at hl
      · cases hl; simpa [Array.isEmpty_iff] using he
      · exact hm s l hl

theorem mem_of_mem_dropPlacement {m : RecordMap} {k s : Nat} {c x : Containment}
    (hx : x ∈ (AssemblyGraph.dropPlacement m k c).2.getD s #[]) : x ∈ m.getD s #[] := by
  rw [getD_dropPlacement] at hx
  split at hx
  · exact (Array.mem_filter.1 hx).1
  · exact hx

/-- A record of another sequence, or of another host, is never the placement dropped. -/
theorem filter_samePlacement_of_ne {l : List Containment} {c : Containment} {p : Containment → Bool}
    (hp : ∀ x, p x = true → x.samePlacement c = false) :
    (l.filter p).filter (!·.samePlacement c) = l.filter p := by
  rw [List.filter_filter]
  congr 1
  funext x
  by_cases h : p x = true
  · simp [h, hp x h]
  · simp [Bool.eq_false_iff.2 h]

/-- Dropping a placement from both maps keeps the mirror. -/
theorem drop (hm : Mirror bs bh) (c : Containment) :
    Mirror (AssemblyGraph.dropPlacement bs c.sequence c).2 (AssemblyGraph.dropPlacement bh c.host c).2 := by
  refine ⟨fun s x hx => hm.sequence_key s x (mem_of_mem_dropPlacement hx),
    fun h x hx => hm.host_key h x (mem_of_mem_dropPlacement hx), ?_,
    nonempty_dropPlacement hm.sequence_nonempty _ c, nonempty_dropPlacement hm.host_nonempty _ c⟩
  intro s h
  rw [getD_dropPlacement, getD_dropPlacement]
  have hsame := hm.same s h
  -- dropping commutes with picking one host or one sequence
  have hcomm : ∀ (l : List Containment) (p : Containment → Bool),
      (l.filter (!·.samePlacement c)).filter p = (l.filter p).filter (!·.samePlacement c) := by
    intro l p
    rw [List.filter_filter, List.filter_filter]
    congr 1; funext x; exact Bool.and_comm _ _
  split_ifs with hs hh hh
  · rw [Array.toList_filter, Array.toList_filter, hcomm, hcomm, hsame]
  · rw [Array.toList_filter]
    calc _ = ((bs.getD s #[]).toList.filter (·.host == h)).filter (!·.samePlacement c) := hcomm _ _
      _ = (bs.getD s #[]).toList.filter (·.host == h) := by
        refine filter_samePlacement_of_ne fun x hx => ?_
        simp only [beq_iff_eq] at hx
        simp [Containment.samePlacement, hx, Ne.symm hh]
      _ = _ := hsame
  · rw [Array.toList_filter]
    calc _ = (bh.getD h #[]).toList.filter (·.sequence == s) := hsame
      _ = ((bh.getD h #[]).toList.filter (·.sequence == s)).filter (!·.samePlacement c) := by
        refine (filter_samePlacement_of_ne fun x hx => ?_).symm
        simp only [beq_iff_eq] at hx
        simp [Containment.samePlacement, hx, Ne.symm hs]
      _ = _ := (hcomm _ _).symm
  · exact hsame

/-! ### Rewriting every record -/

section rewrite

variable {F : Containment → Except Panic Containment}

/-- Rebuilding a map key by key, each list traversed by `F`, from the map's entries. -/
theorem foldlM_insert_mapM (L : List (Nat × Array Containment)) :
    ∀ (init r : RecordMap), L.Pairwise (fun a b => ¬ compare a.1 b.1 = .eq) →
      L.foldlM (fun (acc : RecordMap) b => do pure (acc.insert b.1 (← b.2.mapM F))) init = .ok r →
      ∀ k, (k ∉ L.map Prod.fst → r[k]? = init[k]?) ∧
        ∀ l, (k, l) ∈ L → ∃ l', l.mapM F = .ok l' ∧ r[k]? = some l' := by
  induction L with
  | nil =>
    intro init r _ h k
    simp only [List.foldlM_nil, pure, Except.pure, Except.ok.injEq] at h
    subst h
    simp
  | cons b L ih =>
    intro init r hd h k
    obtain ⟨k0, l0⟩ := b
    simp only [List.foldlM_cons, bind, Except.bind] at h
    cases hl0 : l0.mapM F with
    | error e => simp [hl0] at h
    | ok l0' =>
      simp only [hl0, pure, Except.pure] at h
      have hd' := List.pairwise_cons.1 hd
      obtain ⟨ih1, ih2⟩ := ih _ r hd'.2 h k
      -- the key of the head entry appears nowhere later
      have hfresh : k0 ∉ L.map Prod.fst := by
        intro hk
        obtain ⟨b', hb', hb'k⟩ := List.mem_map.1 hk
        exact hd'.1 b' hb' (by simp [← hb'k])
      refine ⟨fun hk => ?_, fun l hl => ?_⟩
      · simp only [List.map_cons, List.mem_cons, not_or] at hk
        rw [ih1 hk.2, Std.TreeMap.getElem?_insert, if_neg (by simpa using Ne.symm hk.1)]
      · rcases List.mem_cons.1 hl with hl | hl
        · simp only [Prod.mk.injEq] at hl
          obtain ⟨rfl, rfl⟩ := hl
          refine ⟨l0', hl0, ?_⟩
          rw [ih1 hfresh, Std.TreeMap.getElem?_insert, if_pos (by simp)]
        · exact ih2 l hl

/-- Every list of the rebuilt map is its old list traversed by `F`. -/
theorem getD_foldlM_mapM {m r : RecordMap}
    (h : m.foldlM (fun (acc : RecordMap) k l => do pure (acc.insert k (← l.mapM F))) {} = .ok r) (k : Nat) :
    (m.getD k #[]).toList.mapM F = .ok (r.getD k #[]).toList ∧ (r[k]? = none ↔ m[k]? = none) := by
  rw [Std.TreeMap.foldlM_eq_foldlM_toList] at h
  obtain ⟨h1, h2⟩ := foldlM_insert_mapM m.toList {} r Std.TreeMap.distinct_keys_toList h k
  simp only [Std.TreeMap.getD_eq_getD_getElem?]
  cases hk : m[k]? with
  | none =>
    have hnot : k ∉ m.toList.map Prod.fst := by
      intro hm
      obtain ⟨⟨k', l⟩, hb, rfl⟩ := List.mem_map.1 hm
      rw [Std.TreeMap.mem_toList_iff_getElem?_eq_some] at hb
      simp [hk] at hb
    rw [h1 hnot]
    simp [pure, Except.pure]
  | some l =>
    obtain ⟨l', hl', hr⟩ := h2 l (Std.TreeMap.mem_toList_iff_getElem?_eq_some.2 hk)
    rw [hr]
    exact ⟨mapM_ok_array hl', by simp⟩

/-- Rewriting every record of both maps by one function that keeps sequence and
host keeps the mirror. -/
theorem mapM (hm : Mirror bs bh)
    (hF : ∀ c c', F c = .ok c' → c'.sequence = c.sequence ∧ c'.host = c.host) {rs rh : RecordMap}
    (hs : bs.foldlM (fun (acc : RecordMap) k l => do pure (acc.insert k (← l.mapM F))) {} = .ok rs)
    (hh : bh.foldlM (fun (acc : RecordMap) k l => do pure (acc.insert k (← l.mapM F))) {} = .ok rh) :
    Mirror rs rh := by
  refine ⟨?_, ?_, ?_, ?_, ?_⟩
  · intro s c' hc'
    obtain ⟨c, hc, hfc⟩ := mapM_ok_mem (getD_foldlM_mapM hs s).1 (Array.mem_toList_iff.2 hc')
    rw [(hF c c' hfc).1]
    exact hm.sequence_key s c (Array.mem_toList_iff.1 hc)
  · intro h c' hc'
    obtain ⟨c, hc, hfc⟩ := mapM_ok_mem (getD_foldlM_mapM hh h).1 (Array.mem_toList_iff.2 hc')
    rw [(hF c c' hfc).2]
    exact hm.host_key h c (Array.mem_toList_iff.1 hc)
  · intro s h
    have h1 := mapM_ok_filter (p := (·.host == h)) (q := (·.host == h))
      (fun c c' hc => by rw [(hF c c' hc).2]) (getD_foldlM_mapM hs s).1
    have h2 := mapM_ok_filter (p := (·.sequence == s)) (q := (·.sequence == s))
      (fun c c' hc => by rw [(hF c c' hc).1]) (getD_foldlM_mapM hh h).1
    rw [hm.same s h, h2] at h1
    exact (Except.ok.inj h1).symm
  · intro s l' hl'
    have hr := getD_foldlM_mapM hs s
    cases hk : bs[s]? with
    | none => rw [hr.2.2 hk] at hl'; cases hl'
    | some l =>
      have hlen := mapM_ok_length hr.1
      simp only [Std.TreeMap.getD_eq_getD_getElem?, hk, hl', Option.getD_some,
        Array.length_toList] at hlen
      rw [hlen]
      exact hm.sequence_nonempty s l hk
  · intro h l' hl'
    have hr := getD_foldlM_mapM hh h
    cases hk : bh[h]? with
    | none => rw [hr.2.2 hk] at hl'; cases hl'
    | some l =>
      have hlen := mapM_ok_length hr.1
      simp only [Std.TreeMap.getD_eq_getD_getElem?, hk, hl', Option.getD_some,
        Array.length_toList] at hlen
      rw [hlen]
      exact hm.host_nonempty h l hk

end rewrite

end Mirror

end OverlapLayout
