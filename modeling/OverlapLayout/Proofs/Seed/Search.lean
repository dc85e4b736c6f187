import Mathlib
import OverlapLayout.Seed.Index
import OverlapLayout.Proofs.Seed.Scan
import OverlapLayout.Proofs.Seed.Hits
/-!
  Searching the seed index answers from the indexed sequences alone.

  An index built by indexing sequences under distinct 32-bit ids holds, for each minimizer code,
  where the code occurs (`occurrences`), each occurrence packed into a word. It keeps them in
  the order the sequences came, but a search reads them only through their number and through
  the positions in each sequence, which come in the order of its scan (`positionsIn`): so what
  a search answers does not depend on the order of indexing.

  * `Stores`: what an index holds: for each code and sequence, the positions of the code in
    that sequence in order, no empty entry, and no entry longer than the occurrences stored.
  * `Built`: the indexes reached from an empty one by indexing sequences under new ids, each
    with an allocator that let it succeed, and by setting the repetitive threshold. Each stores
    its sequences (`Built.stores`), and an allocator that serves every request lets a stored
    index take one more sequence (`Stores.addSequence_of_serves`).
  * `searched`: one query minimizer as a search takes it when no growth fails, and `hitTable`
    the table it so gives. A search that returns gives it (`search_eq_ok`), and an allocator
    that serves every request lets every search of a short enough query return
    (`search_of_serves`).
  * `Answers`, `search_answers`: the hit table of a query, in terms of the occurrences.
-/

namespace OverlapLayout

namespace Occurrence

/-- An occurrence of a 32-bit sequence id at a 32-bit position comes back from its word. -/
theorem unpack_pack {o : Occurrence} (hs : o.sequence < 2 ^ 32) (hp : o.position < 2 ^ 32) :
    unpack (pack o) = o := by
  obtain ⟨i, p⟩ := o
  simp only [unpack, pack, @Hit.unpack_pack ⟨i, p⟩ hs hp]

theorem position_unpack_lt (w : UInt64) : (unpack w).position < 2 ^ 32 :=
  Hit.unpack_subject_lt w

end Occurrence

namespace SeedIndex

open MinimizerScheme

/-! ## Where codes occur among indexed sequences -/

section Occurrences

variable (s : MinimizerScheme) (pairs : List (Nat × Bytes))

/-- The positions of the minimizers of `seq` with code `c`, in the order of the scan. -/
def positionsOf (seq : Bytes) (c : UInt64) : List Nat :=
  ((s.minimizers seq).toList.filter fun m => m.code = c).map (·.position)

/-- The occurrences of code `c` among the sequences `pairs`, each an id and its bytes:
sequence by sequence, its minimizers with code `c`. -/
def occurrences (c : UInt64) : List Occurrence :=
  pairs.flatMap fun p => (positionsOf s p.2 c).map fun pos => ⟨p.1, pos⟩

/-- The positions of code `c` in the sequence indexed as `id`; none if no sequence has that
id. -/
def positionsIn (c : UInt64) (id : Nat) : List Nat :=
  ((pairs.lookup id).map fun seq => positionsOf s seq c).getD []

variable {s pairs}

theorem lookup_eq_none_of_not_mem {id : Nat} (hid : id ∉ pairs.map Prod.fst) :
    pairs.lookup id = none :=
  List.lookup_eq_none_iff.mpr fun p hp => by
    simpa using fun heq : id = p.1 => hid (List.mem_map.mpr ⟨p, hp, heq.symm⟩)

/-- A new sequence has its own positions, and leaves those of the others. -/
theorem positionsIn_append {id : Nat} (hid : id ∉ pairs.map Prod.fst) (seq : Bytes) (c : UInt64)
    (id' : Nat) :
    positionsIn s (pairs ++ [(id, seq)]) c id' =
      if id' = id then positionsOf s seq c else positionsIn s pairs c id' := by
  unfold positionsIn
  rw [List.lookup_append]
  by_cases h : id' = id
  · subst h
    simp [lookup_eq_none_of_not_mem hid]
  · have hb : (id' == id) = false := by simpa using h
    cases pairs.lookup id' <;> simp [h, List.lookup_cons, hb]

/-- With distinct ids, the occurrences in one sequence are its positions, in order. -/
theorem filter_occurrences (hnd : (pairs.map Prod.fst).Nodup) (c : UInt64) (id : Nat) :
    (occurrences s pairs c).filter (fun o => o.sequence = id) =
      (positionsIn s pairs c id).map fun p => ⟨id, p⟩ := by
  induction pairs with
  | nil => rfl
  | cons p pairs ih =>
    obtain ⟨i, seq⟩ := p
    obtain ⟨hi, hnd⟩ := List.nodup_cons.mp hnd
    rw [occurrences, List.flatMap_cons, ← occurrences, List.filter_append, ih hnd]
    unfold positionsIn
    by_cases h : id = i
    · -- the sequence `id` is this one, so none of the others
      subst h
      simp [lookup_eq_none_of_not_mem hi, List.filter_map, Function.comp_def]
    · have hb : (id == i) = false := by simpa using h
      simp [Ne.symm h, List.lookup_cons, hb, List.filter_map, Function.comp_def]

end Occurrences

/-! ## What an index holds -/

section Held

variable (ix : SeedIndex)

/-- The occurrences of code `c` the index holds, unpacked, in the order they were added. -/
def held (c : UInt64) : List Occurrence :=
  (ix.entries.getD c {}).items.toList.map Occurrence.unpack

/-- Those of them in sequences other than the query `q`. -/
def heldOthers (q : Nat) (c : UInt64) : List Occurrence :=
  (ix.held c).filter fun o => o.sequence ≠ q

variable {ix}

theorem position_lt_of_mem_held {c : UInt64} {o : Occurrence} (ho : o ∈ ix.held c) :
    o.position < 2 ^ 32 := by
  obtain ⟨w, -, rfl⟩ := List.mem_map.mp ho
  exact Occurrence.position_unpack_lt w

end Held

section Stores

variable {ix ix' : SeedIndex} {pairs : List (Nat × Bytes)}

/-- The index holds the occurrences of `pairs`: for each code and sequence, the positions of
the code in that sequence, in order (how the sequences interleave is free); no code without an
occurrence; and no code with more occurrences than the index has stored. -/
structure Stores (ix : SeedIndex) (pairs : List (Nat × Bytes)) : Prop where
  nodup : (pairs.map Prod.fst).Nodup
  entries : ∀ c id, (ix.held c).filter (fun o => o.sequence = id) =
    (positionsIn ix.scheme pairs c id).map fun p => ⟨id, p⟩
  nonempty : ∀ (c : UInt64) (occ : GrowingVec UInt64), ix.entries[c]? = some occ → occ.items ≠ #[]
  sized : ∀ c, (ix.entries.getD c {}).items.size ≤ ix.totalEntries

/-- An entry holds the occurrences of its code, in some order. -/
theorem Stores.perm (h : ix.Stores pairs) (c : UInt64) :
    (ix.held c).Perm (occurrences ix.scheme pairs c) := by
  refine List.perm_iff_count.mpr fun o => ?_
  -- an occurrence is counted among those of its own sequence
  have hc := congrArg (List.count o) (h.entries c o.sequence)
  rwa [← filter_occurrences h.nodup, List.count_filter (by simp), List.count_filter (by simp)] at hc

theorem stores_new (k w depth : Nat) : (SeedIndex.new k w depth).Stores [] where
  nodup := List.nodup_nil
  entries _ _ := by simp [SeedIndex.new, held, positionsIn]
  nonempty _ _ h := by simp [SeedIndex.new] at h
  sized _ := by simp [SeedIndex.new]

/-- The entries once one occurrence is appended, its code's entry grown as a push grows it. -/
def insertOccurrence (id : Nat) (e : Std.HashMap UInt64 (GrowingVec UInt64)) (m : Minimizer) :
    Std.HashMap UInt64 (GrowingVec UInt64) :=
  e.insert m.code ((e.getD m.code {}).pushed (Occurrence.pack ⟨id, m.position⟩))

theorem addOccurrence_eq_ok {alloc : Allocator} {id : Nat} {e e' : Std.HashMap UInt64 (GrowingVec UInt64)}
    {m : Minimizer} (h : addOccurrence alloc id e m = .ok e') : e' = insertOccurrence id e m := by
  unfold addOccurrence at h
  obtain ⟨occ, hocc, h⟩ := bind_ok h
  rw [GrowingVec.eq_pushed hocc] at h
  exact (Except.ok.inj h).symm

/-- Indexing appends, to the entry of each code, the words of the minimizers with that code. -/
theorem getD_foldl_insertOccurrence (id : Nat) (ms : List Minimizer)
    (e : Std.HashMap UInt64 (GrowingVec UInt64)) (c : UInt64) :
    ((ms.foldl (insertOccurrence id) e).getD c {}).items.toList =
      (e.getD c {}).items.toList ++
        (ms.filter fun m => m.code = c).map fun m => Occurrence.pack ⟨id, m.position⟩ := by
  induction ms generalizing e with
  | nil => simp
  | cons m ms ih =>
    rw [List.foldl_cons, ih, insertOccurrence, Std.HashMap.getD_insert]
    by_cases hc : m.code = c
    · simp [hc]
    · simp [hc]

theorem nonempty_foldl_insertOccurrence (id : Nat) (ms : List Minimizer)
    (e : Std.HashMap UInt64 (GrowingVec UInt64)) (he : ∀ (c : UInt64) (occ : GrowingVec UInt64), e[c]? = some occ → occ.items ≠ #[]) :
    ∀ (c : UInt64) (occ : GrowingVec UInt64), (ms.foldl (insertOccurrence id) e)[c]? = some occ → occ.items ≠ #[] := by
  induction ms generalizing e with
  | nil => exact he
  | cons m ms ih =>
    refine ih _ fun c occ hocc => ?_
    rw [insertOccurrence, Std.HashMap.getElem?_insert] at hocc
    split at hocc
    · rw [← Option.some.inj hocc]
      exact Array.push_ne_empty
    · exact he c occ hocc

/-- Indexing a sequence scans it and appends its minimizers to the entries of their codes. -/
theorem addSequence_eq_ok {alloc : Allocator} {id : Nat} {seq : Bytes}
    (h : ix.addSequence alloc id seq = .ok ix') :
    ix.scheme.scan alloc seq = .ok (ix.scheme.minimizers seq) ∧
      ix' = { ix with
        entries := (ix.scheme.minimizers seq).toList.foldl (insertOccurrence id) ix.entries
        indexed := ix.indexed.insert id (ix.scheme.minimizers seq).size
        totalEntries := ix.totalEntries + (ix.scheme.minimizers seq).size } := by
  unfold addSequence at h
  obtain ⟨ms, hscan, h⟩ := bind_ok h
  rw [mapError_eq_ok] at hscan
  obtain ⟨-, rfl⟩ := (scan_eq_ok_iff alloc ix.scheme seq ms).mp hscan
  obtain ⟨e, he, h⟩ := bind_ok h
  rw [mapError_eq_ok, ← Array.foldlM_toList] at he
  refine ⟨hscan, ?_⟩
  rw [foldlM_ok_eq_foldl (fun _ _ _ => addOccurrence_eq_ok) _ _ _ he] at h
  exact (Except.ok.inj h).symm

/-- Indexing a sequence under a new 32-bit id stores its occurrences beside the others. -/
theorem Stores.addSequence (h : ix.Stores pairs) {alloc : Allocator} {id : Nat} {seq : Bytes}
    (hid : id ∉ pairs.map Prod.fst) (hid32 : id < 2 ^ 32) (hadd : ix.addSequence alloc id seq = .ok ix') :
    ix'.Stores (pairs ++ [(id, seq)]) := by
  obtain ⟨-, rfl⟩ := addSequence_eq_ok hadd
  have hwords := (minimizers_words ix.scheme seq).1
  refine ⟨?_, fun c id' => ?_, nonempty_foldl_insertOccurrence id _ _ h.nonempty, fun c => ?_⟩
  · rw [List.map_append, List.nodup_append]
    refine ⟨h.nodup, by simp, fun a ha b hb heq => hid ?_⟩
    simp only [List.map_cons, List.map_nil, List.mem_singleton] at hb
    rw [hb] at heq
    exact heq ▸ ha
  · have hold := h.entries c id'
    simp only [held] at hold ⊢
    rw [getD_foldl_insertOccurrence, List.map_append, List.filter_append, hold,
      positionsIn_append hid, List.map_map]
    -- the new words unpack to the occurrences they were packed from
    have hnew : ((ix.scheme.minimizers seq).toList.filter fun m => m.code = c).map
        (Occurrence.unpack ∘ fun m => Occurrence.pack ⟨id, m.position⟩) =
        ((ix.scheme.minimizers seq).toList.filter fun m => m.code = c).map
          fun m => (⟨id, m.position⟩ : Occurrence) :=
      List.map_congr_left fun m hm => Occurrence.unpack_pack hid32
        (hwords m (Array.mem_toList_iff.mp (List.mem_of_mem_filter hm)))
    rw [hnew]
    by_cases hid' : id' = id
    · subst hid'
      have hnone : positionsIn ix.scheme pairs c id' = [] := by
        simp [positionsIn, lookup_eq_none_of_not_mem hid]
      simp [hnone, positionsOf, List.filter_map, Function.comp_def]
    · simp [hid', Ne.symm hid', List.filter_map, Function.comp_def]
  · -- an entry grows by at most the minimizers of the sequence
    have hlen := congrArg List.length
      (getD_foldl_insertOccurrence id (ix.scheme.minimizers seq).toList ix.entries c)
    have hf := List.length_filter_le (fun m => decide (m.code = c)) (ix.scheme.minimizers seq).toList
    simp only [Array.length_toList, List.length_append, List.length_map] at hlen hf
    have := h.sized c
    show ((ix.scheme.minimizers seq).toList.foldl (insertOccurrence id) ix.entries |>.getD c {}).items.size ≤
      ix.totalEntries + (ix.scheme.minimizers seq).size
    omega

theorem Stores.setMaxOccurrences (h : ix.Stores pairs) (n : Nat) :
    (ix.setMaxOccurrences n).Stores pairs := ⟨h.nodup, h.entries, h.nonempty, h.sized⟩

/-- An allocator that serves every request appends an occurrence to an entry far from the
largest collection. -/
theorem addOccurrence_of_serves {alloc : Allocator} (hserves : ∀ n, alloc.serves n = true) (id : Nat)
    {e : Std.HashMap UInt64 (GrowingVec UInt64)} {m : Minimizer}
    (hfit : (e.getD m.code {}).items.size < 2 ^ 59) :
    addOccurrence alloc id e m = .ok (insertOccurrence id e m) := by
  have hpush : (2 * (e.getD m.code {}).items.size + 1) * HitTable.hitBytes ≤ maxCollectionBytes 8 := by
    simp only [HitTable.hitBytes, maxCollectionBytes, Nat.pow_eq]
    omega
  simp only [addOccurrence, GrowingVec.push_of_serves hserves hpush, insertOccurrence]
  rfl

/-- An allocator that serves every request indexes the minimizers `ms` into entries that stay
far from the largest collection. -/
theorem foldlM_addOccurrence_of_serves {alloc : Allocator} (hserves : ∀ n, alloc.serves n = true)
    (id : Nat) (ms : List Minimizer) (e : Std.HashMap UInt64 (GrowingVec UInt64))
    (hroom : ∀ c, (e.getD c {}).items.size + ms.length < 2 ^ 59) :
    ms.foldlM (addOccurrence alloc id) e = .ok (ms.foldl (insertOccurrence id) e) := by
  -- each entry has room for the occurrences still to come
  refine foldlM_eq_ok_of_room (fun n e => ∀ c, (e.getD c {}).items.size + n < 2 ^ 59)
    (fun n e m he => addOccurrence_of_serves hserves id (by have := he m.code; omega))
    (fun n e m he c => ?_) ms e hroom
  have := he c
  rw [insertOccurrence, Std.HashMap.getD_insert]
  split
  · next hc =>
    rw [beq_iff_eq] at hc
    subst hc
    simp only [GrowingVec.items_pushed, Array.size_push]
    omega
  · omega

/-- An allocator that serves every request lets an index that stores its sequences take one
more, when the room for the deque of the scan fits a collection and the occurrences stay far
from the largest one. -/
theorem Stores.addSequence_of_serves (h : ix.Stores pairs) {alloc : Allocator}
    (hserves : ∀ n, alloc.serves n = true) (hw : 32 * (ix.scheme.w + 1) ≤ maxCollectionBytes 8)
    (id : Nat) {seq : Bytes} (hlen : ix.totalEntries + seq.length < 2 ^ 57) :
    ∃ ix', ix.addSequence alloc id seq = .ok ix' := by
  have hscan : ix.scheme.scan alloc seq = .ok (ix.scheme.minimizers seq) :=
    (scan_eq_ok_iff alloc ix.scheme seq _).mpr ⟨reserveWindow_of_serves hw (hserves _), rfl⟩
  have hms := (minimizers_words ix.scheme seq).2
  have hfold := foldlM_addOccurrence_of_serves hserves id (ix.scheme.minimizers seq).toList ix.entries
    fun c => by
      have := h.sized c
      simp only [Array.length_toList]
      omega
  rw [Array.foldlM_toList] at hfold
  cases hadd : ix.addSequence alloc id seq with
  | ok ix' => exact ⟨ix', rfl⟩
  | error e =>
    -- the scan and every append succeed, so the indexing does
    unfold SeedIndex.addSequence at hadd
    rw [hscan] at hadd
    simp only [Except.mapError, bind, Except.bind] at hadd
    rw [hfold] at hadd
    cases hadd

end Stores

/-! ## Indexes built by indexing sequences -/

/-- The indexes reached from an empty one, of k-mer length `k`, window length `w` and
expected depth `depth`, by indexing the sequences `pairs` in order under distinct 32-bit ids,
each with an allocator that lets the indexing succeed, and by setting the repetitive threshold
at any time. -/
inductive Built (k w depth : Nat) : SeedIndex → List (Nat × Bytes) → Prop
  | empty : Built k w depth (SeedIndex.new k w depth) []
  | add {ix ix' : SeedIndex} {pairs : List (Nat × Bytes)} {id : Nat} {seq : Bytes} (alloc : Allocator) :
      Built k w depth ix pairs → id ∉ pairs.map Prod.fst → id < 2 ^ 32 →
      ix.addSequence alloc id seq = .ok ix' → Built k w depth ix' (pairs ++ [(id, seq)])
  | setMax {ix : SeedIndex} {pairs : List (Nat × Bytes)} (n : Nat) :
      Built k w depth ix pairs → Built k w depth (ix.setMaxOccurrences n) pairs

/-- A built index stores its sequences, with the scheme and depth it was made with. -/
theorem Built.stores {k w depth : Nat} {ix : SeedIndex} {pairs : List (Nat × Bytes)}
    (h : Built k w depth ix pairs) :
    ix.Stores pairs ∧ ix.scheme = .new k w ∧ ix.depth = max depth 1 := by
  induction h with
  | empty => exact ⟨stores_new k w depth, rfl, rfl⟩
  | add alloc _ hid hid32 hadd ih =>
    obtain ⟨hst, hscheme, hdepth⟩ := ih
    obtain ⟨-, rfl⟩ := addSequence_eq_ok hadd
    exact ⟨hst.addSequence hid hid32 hadd, hscheme, hdepth⟩
  | setMax n _ ih => exact ⟨ih.1.setMaxOccurrences n, ih.2⟩

/-! ## One query minimizer -/

section Step

variable (ix : SeedIndex)

/-- A kept code is counted by the number `n` of hits it gives: as not found for none, as a
multi-hit for more than one. -/
def tally (n : Nat) (t : HitTable) : HitTable :=
  if n = 0 then t.recordNotFound else if n = 1 then t else t.recordMultihit

/-- The hits of the query k-mer at `p` against the occurrences `l`, in order. -/
def addHits (p : Nat) (l : List Occurrence) (t : HitTable) : HitTable :=
  l.foldl (fun t o => t.added o.sequence p o.position) t

/-- The weights once code `c` is kept: a code the index holds weighs
`min (depth / occurrences) 1`. -/
def weighed (c : UInt64) (W : Std.HashMap UInt64 Float) : Std.HashMap UInt64 Float :=
  if ix.held c = [] then W
  else W.insert c (min (ix.depth.toFloat / (ix.held c).length.toFloat) 1.0)

/-- One query minimizer as a search takes it when no growth fails: a code held more often than
the threshold is counted as repetitive; any other is registered, hits each occurrence in
another sequence, is tallied by their number, and is weighed. -/
def searched (q : Nat) (m : Minimizer) (acc : HitTable × Std.HashMap UInt64 Float) :
    HitTable × Std.HashMap UInt64 Float :=
  if ix.maxOccurrences < (ix.held m.code).length then (acc.1.recordRepetitive, acc.2)
  else
    (tally (ix.heldOthers q m.code).length
      (addHits m.position (ix.heldOthers q m.code) (acc.1.registerCode m.position m.code)),
     ix.weighed m.code acc.2)

/-- The hit table a search gives for the query minimizers `ms` when no growth fails. -/
def hitTable (q : Nat) (ms : List Minimizer) : HitTable :=
  let r := ms.foldl (fun acc m => ix.searched q m acc) (HitTable.empty, {})
  r.1.setWeights r.2

variable {ix}

/-- One query minimizer, in one piece: a code held more often than the threshold is counted as
repetitive, and any other is registered and hits each occurrence in another sequence, each hit
added as `addHit` adds it. -/
theorem searchCode_eq (hne : ∀ (c : UInt64) (occ : GrowingVec UInt64), ix.entries[c]? = some occ → occ.items ≠ #[]) (alloc : Allocator)
    (q : Nat) (m : Minimizer) (acc : HitTable × Std.HashMap UInt64 Float) :
    ix.searchCode alloc q m acc =
      if ix.maxOccurrences < (ix.held m.code).length then .ok (acc.1.recordRepetitive, acc.2)
      else
        (ix.heldOthers q m.code).foldlM (fun t o => t.addHit alloc o.sequence m.position o.position)
            (acc.1.registerCode m.position m.code) >>= fun t =>
          .ok (tally (ix.heldOthers q m.code).length t, ix.weighed m.code acc.2) := by
  obtain ⟨t, W⟩ := acc
  unfold searchCode heldOthers weighed held
  cases hc : ix.entries.get? m.code with
  | none =>
    -- an absent code is registered and not found
    have hget : ix.entries.getD m.code {} = {} := by
      rw [Std.HashMap.getD_eq_getD_getElem?, ← Std.HashMap.get?_eq_getElem?, hc]
      rfl
    simp [hget, tally, bind, Except.bind, pure, Except.pure]
  | some occ =>
    have hget : ix.entries.getD m.code {} = occ := by
      rw [Std.HashMap.getD_eq_getD_getElem?, ← Std.HashMap.get?_eq_getElem?, hc]
      rfl
    have hocc : occ.items.toList.map Occurrence.unpack ≠ [] := by
      simpa using hne _ _ (by rw [← Std.HashMap.get?_eq_getElem?, hc])
    dsimp only
    rw [hget, if_neg hocc]
    simp only [← Array.toList_map, ← Array.toList_filter, Array.foldlM_toList, Array.length_toList,
      Array.size_map, tally]
    rfl

/-- Whatever the allocator, a query minimizer it lets the search take gives `searched`. -/
theorem searchCode_eq_ok (hne : ∀ (c : UInt64) (occ : GrowingVec UInt64), ix.entries[c]? = some occ → occ.items ≠ #[])
    {alloc : Allocator} {q : Nat} {m : Minimizer} {acc r : HitTable × Std.HashMap UInt64 Float}
    (h : ix.searchCode alloc q m acc = .ok r) : r = ix.searched q m acc := by
  rw [searchCode_eq hne] at h
  unfold searched
  split at h
  · next hrep =>
    rw [if_pos hrep]
    exact (Except.ok.inj h).symm
  · next hrep =>
    rw [if_neg hrep]
    obtain ⟨t, ht, h⟩ := bind_ok h
    rw [foldlM_ok_eq_foldl (fun t o t' (h : t.addHit alloc o.sequence m.position o.position = .ok t') =>
      HitTable.addHit_eq_ok h) _ _ _ ht] at h
    exact (Except.ok.inj h).symm

theorem addHits_cons (p : Nat) (o : Occurrence) (l : List Occurrence) (t : HitTable) :
    addHits p (o :: l) t = addHits p l (t.added o.sequence p o.position) := rfl

theorem linked_addHits {t : HitTable} (hl : t.Linked) (p : Nat) (l : List Occurrence) :
    (addHits p l t).Linked := by
  induction l generalizing t with
  | nil => exact hl
  | cons o l ih => exact ih (hl.added _ _ _)

/-- Each hit adds at most one row, and one hit to one row. -/
theorem rowsBelow_addHits {t : HitTable} {n : Nat} (hl : t.Linked) (hb : t.RowsBelow n) (p : Nat)
    (l : List Occurrence) : (addHits p l t).RowsBelow (n + l.length) := by
  induction l generalizing t n with
  | nil => exact hb
  | cons o l ih =>
    rw [addHits_cons]
    exact (ih (hl.added _ _ _) (hb.added hl _ _ _)).mono (by simp only [List.length_cons]; omega)

/-- An allocator that serves every request adds every hit to rows that stay below `2 ^ 57`. -/
theorem addHits_of_serves {alloc : Allocator} (hserves : ∀ n, alloc.serves n = true) (p : Nat)
    (l : List Occurrence) {t : HitTable} {n : Nat} (hl : t.Linked) (hb : t.RowsBelow n)
    (hn : n + l.length < 2 ^ 57) :
    l.foldlM (fun t o => t.addHit alloc o.sequence p o.position) t = .ok (addHits p l t) :=
  -- the room: a linked table whose rows have room for the hits still to come
  foldlM_eq_ok_of_room (fun k t => ∃ n, t.Linked ∧ t.RowsBelow n ∧ n + k < 2 ^ 57)
    (fun _ _ _ ⟨_, _, hb, hn⟩ => HitTable.addHit_of_rowsBelow hserves hb (by omega) _ _ _)
    (fun _ _ _ ⟨n, hl, hb, hn⟩ => ⟨n + 1, hl.added _ _ _, hb.added hl _ _ _, by omega⟩)
    l t ⟨n, hl, hb, hn⟩

theorem row_addHits {t : HitTable} (hl : t.Linked) (p : Nat) (l : List Occurrence) (sub : Nat) :
    ((addHits p l t).row sub).toList =
      (t.row sub).toList ++
        (l.filter fun o => o.sequence = sub).map fun o => ⟨p % 2 ^ 32, o.position % 2 ^ 32⟩ := by
  induction l generalizing t with
  | nil => simp [addHits]
  | cons o l ih =>
    rw [addHits_cons, ih (hl.added _ _ _), HitTable.row_added hl]
    by_cases h : o.sequence = sub <;> simp [h]

/-- Adding hits changes only the rows and the number of hits. -/
theorem addHits_frame (p : Nat) (l : List Occurrence) (t : HitTable) :
    (addHits p l t).queryCodes = t.queryCodes ∧ (addHits p l t).notFound = t.notFound ∧
      (addHits p l t).multihit = t.multihit ∧ (addHits p l t).repetitive = t.repetitive ∧
      (addHits p l t).totalHits = t.totalHits + l.length := by
  induction l generalizing t with
  | nil => simp [addHits]
  | cons o l ih =>
    rw [addHits_cons]
    obtain ⟨h₁, h₂, h₃, h₄, h₅⟩ := ih (t.added o.sequence p o.position)
    obtain ⟨f₁, -, f₂, f₃, f₄, f₅⟩ := HitTable.added_frame t o.sequence p o.position
    refine ⟨h₁.trans f₁, h₂.trans f₂, h₃.trans f₃, h₄.trans f₄, ?_⟩
    rw [h₅, f₅, List.length_cons]
    omega

/-- Tallying changes only the counters of codes not found and of multi-hits. -/
theorem tally_frame (n : Nat) (t : HitTable) :
    (tally n t).rowBySubject = t.rowBySubject ∧ (tally n t).rows = t.rows ∧
      (tally n t).queryCodes = t.queryCodes ∧ (tally n t).totalHits = t.totalHits ∧
      (tally n t).repetitive = t.repetitive ∧
      (tally n t).notFound = t.notFound + (if n = 0 then 1 else 0) ∧
      (tally n t).multihit = t.multihit + (if 2 ≤ n then 1 else 0) := by
  unfold tally
  by_cases h₀ : n = 0
  · simp [h₀, HitTable.recordNotFound]
  · by_cases h₁ : n = 1
    · simp [h₁]
    · simp [h₀, h₁, HitTable.recordMultihit, show 2 ≤ n by omega]

theorem linked_tally {t : HitTable} (hl : t.Linked) (n : Nat) : (tally n t).Linked :=
  hl.of_rows (tally_frame n t).1 (tally_frame n t).2.1

theorem rowsBelow_tally {t : HitTable} {k : Nat} (hb : t.RowsBelow k) (n : Nat) : (tally n t).RowsBelow k :=
  hb.of_rows (tally_frame n t).1 (tally_frame n t).2.1

theorem row_tally (n : Nat) (t : HitTable) (sub : Nat) : (tally n t).row sub = t.row sub :=
  HitTable.row_of_rows (tally_frame n t).1 (tally_frame n t).2.1 sub

/-- A kept code has at most the threshold of occurrences, hence of hits. -/
theorem length_heldOthers_le {q : Nat} {c : UInt64} (hkept : ¬ix.maxOccurrences < (ix.held c).length) :
    (ix.heldOthers q c).length ≤ ix.maxOccurrences :=
  (List.length_filter_le _ _).trans (Nat.le_of_not_lt hkept)

/-- An allocator that serves every request fails no hit of a query minimizer when the rows
have room for the threshold of hits more. -/
theorem searchCode_of_serves (hne : ∀ (c : UInt64) (occ : GrowingVec UInt64), ix.entries[c]? = some occ → occ.items ≠ #[])
    {alloc : Allocator} (hserves : ∀ n, alloc.serves n = true) {q : Nat} {m : Minimizer}
    {acc : HitTable × Std.HashMap UInt64 Float} {n : Nat} (hl : acc.1.Linked) (hb : acc.1.RowsBelow n)
    (hn : n + ix.maxOccurrences < 2 ^ 57) :
    ix.searchCode alloc q m acc = .ok (ix.searched q m acc) := by
  rw [searchCode_eq hne]
  unfold searched
  split
  · rfl
  · next hkept =>
    have hlen := length_heldOthers_le (q := q) hkept
    rw [addHits_of_serves hserves m.position _ (hl.registerCode _ _) (hb.registerCode _ _) (by omega)]
    rfl

variable {q : Nat} {acc : HitTable × Std.HashMap UInt64 Float}

theorem linked_searched (hl : acc.1.Linked) (m : Minimizer) : (ix.searched q m acc).1.Linked := by
  unfold searched
  split
  · exact hl.of_rows rfl rfl
  · exact linked_tally (linked_addHits (hl.registerCode _ _) _ _) _

/-- One query minimizer adds at most the threshold of hits. -/
theorem rowsBelow_searched {n : Nat} (hl : acc.1.Linked) (hb : acc.1.RowsBelow n) (m : Minimizer) :
    (ix.searched q m acc).1.RowsBelow (n + ix.maxOccurrences) := by
  unfold searched
  split
  · exact (hb.of_rows rfl rfl).mono (Nat.le_add_right n _)
  · next hkept =>
    have hlen := length_heldOthers_le (q := q) hkept
    exact (rowsBelow_tally (rowsBelow_addHits (hl.registerCode _ _) (hb.registerCode _ _) _ _) _).mono
      (by omega)

/-- The rows after one query minimizer: a kept code gives each subject other than the query
a hit per occurrence there. -/
theorem row_searched (hl : acc.1.Linked) (m : Minimizer) (sub : Nat) :
    ((ix.searched q m acc).1.row sub).toList = (acc.1.row sub).toList ++
      if ix.maxOccurrences < (ix.held m.code).length then []
      else ((ix.heldOthers q m.code).filter fun o => o.sequence = sub).map
        fun o => ⟨m.position % 2 ^ 32, o.position⟩ := by
  unfold searched
  split
  · rw [List.append_nil]
    rfl
  · rw [row_tally, row_addHits (hl.registerCode _ _), HitTable.row_registerCode]
    -- the positions of held occurrences are 32-bit words already
    refine congrArg _ (List.map_congr_left fun o ho => ?_)
    rw [Nat.mod_eq_of_lt (position_lt_of_mem_held
      (List.mem_of_mem_filter (List.mem_of_mem_filter ho)))]

/-- The codes after one query minimizer: a kept code is registered at its position. -/
theorem queryCode?_searched (m : Minimizer) (acc : HitTable × Std.HashMap UInt64 Float) (p : Nat) :
    (ix.searched q m acc).1.queryCode? p =
      if (ix.held m.code).length ≤ ix.maxOccurrences ∧ m.position = p then some m.code
      else acc.1.queryCode? p := by
  unfold searched
  split
  · next h => simp [HitTable.queryCode?, HitTable.recordRepetitive, Nat.not_le.mpr h]
  · next h =>
    have hcodes : (tally (ix.heldOthers q m.code).length (addHits m.position (ix.heldOthers q m.code)
        (acc.1.registerCode m.position m.code))).queryCodes =
          (acc.1.registerCode m.position m.code).queryCodes := by
      rw [(tally_frame _ _).2.2.1, (addHits_frame _ _ _).1]
    simp only [HitTable.queryCode?, hcodes]
    rw [← HitTable.queryCode?, HitTable.queryCode?_registerCode]
    simp [Nat.le_of_not_lt h, HitTable.queryCode?]

/-- The counters after one query minimizer. -/
theorem counters_searched (m : Minimizer) (acc : HitTable × Std.HashMap UInt64 Float) :
    (ix.searched q m acc).1.notFound = acc.1.notFound +
        (if (ix.held m.code).length ≤ ix.maxOccurrences ∧ (ix.heldOthers q m.code).length = 0 then 1
        else 0) ∧
      (ix.searched q m acc).1.multihit = acc.1.multihit +
        (if (ix.held m.code).length ≤ ix.maxOccurrences ∧ 2 ≤ (ix.heldOthers q m.code).length then 1
        else 0) ∧
      (ix.searched q m acc).1.repetitive = acc.1.repetitive +
        (if ix.maxOccurrences < (ix.held m.code).length then 1 else 0) ∧
      (ix.searched q m acc).1.totalHits = acc.1.totalHits +
        (if (ix.held m.code).length ≤ ix.maxOccurrences then (ix.heldOthers q m.code).length
        else 0) := by
  unfold searched
  split
  · next h => simp [HitTable.recordRepetitive, Nat.not_le.mpr h]
  · next h =>
    obtain ⟨-, -, -, htot, hrep, hnf, hmh⟩ := tally_frame (ix.heldOthers q m.code).length
      (addHits m.position (ix.heldOthers q m.code) (acc.1.registerCode m.position m.code))
    obtain ⟨-, hnf', hmh', hrep', htot'⟩ := addHits_frame m.position (ix.heldOthers q m.code)
      (acc.1.registerCode m.position m.code)
    simp only [hnf, hmh, hrep, htot, hnf', hmh', hrep', htot', Nat.le_of_not_lt h, true_and]
    exact ⟨rfl, rfl, rfl, rfl⟩

/-- The weights after one query minimizer: a kept code that the index holds gets the weight
`min (depth / occurrences) 1`. -/
theorem weights_searched (m : Minimizer) (acc : HitTable × Std.HashMap UInt64 Float) (c : UInt64) :
    (ix.searched q m acc).2[c]? =
      if m.code = c ∧ ix.held c ≠ [] ∧ (ix.held c).length ≤ ix.maxOccurrences then
        some (min (ix.depth.toFloat / (ix.held c).length.toFloat) 1.0)
      else acc.2[c]? := by
  unfold searched weighed
  by_cases hmc : m.code = c
  · subst hmc
    split
    · next h => simp [Nat.not_le.mpr h]
    · next h =>
      by_cases hheld : ix.held m.code = []
      · simp [hheld]
      · simp [hheld, Nat.le_of_not_lt h]
  · -- another code's weight is untouched
    split
    · simp [hmc]
    · split <;> simp [Std.HashMap.getElem?_insert, hmc]

end Step

/-! ## A whole search -/

section Fold

variable {ix : SeedIndex} {q : Nat}

/-- A count that each query minimizer raises by `f m` ends raised by their sum. -/
theorem foldl_searched_sum (obs : HitTable → Nat) (f : Minimizer → Nat)
    (hstep : ∀ m acc, obs (ix.searched q m acc).1 = obs acc.1 + f m) (ms : List Minimizer)
    (acc : HitTable × Std.HashMap UInt64 Float) :
    obs (ms.foldl (fun acc m => ix.searched q m acc) acc).1 = obs acc.1 + (ms.map f).sum := by
  induction ms generalizing acc with
  | nil => simp
  | cons m ms ih =>
    rw [List.foldl_cons, ih, hstep, List.map_cons, List.sum_cons]
    omega

theorem sum_map_ite_one (P : Minimizer → Prop) [DecidablePred P] (ms : List Minimizer) :
    (ms.map fun m => if P m then 1 else 0).sum = ms.countP fun m => P m := by
  induction ms with
  | nil => rfl
  | cons m ms ih =>
    rw [List.map_cons, List.sum_cons, ih, List.countP_cons]
    by_cases h : P m <;> simp [h, Nat.add_comm]

theorem linked_foldl_searched {acc : HitTable × Std.HashMap UInt64 Float} (hl : acc.1.Linked)
    (ms : List Minimizer) : (ms.foldl (fun acc m => ix.searched q m acc) acc).1.Linked := by
  induction ms generalizing acc with
  | nil => exact hl
  | cons m ms ih => exact ih (linked_searched hl m)

theorem row_foldl_searched {acc : HitTable × Std.HashMap UInt64 Float} (hl : acc.1.Linked)
    (ms : List Minimizer) (sub : Nat) :
    ((ms.foldl (fun acc m => ix.searched q m acc) acc).1.row sub).toList =
      (acc.1.row sub).toList ++ ms.flatMap fun m =>
        if ix.maxOccurrences < (ix.held m.code).length then []
        else ((ix.heldOthers q m.code).filter fun o => o.sequence = sub).map
          fun o => ⟨m.position % 2 ^ 32, o.position⟩ := by
  induction ms generalizing acc with
  | nil => simp
  | cons m ms ih =>
    rw [List.foldl_cons, ih (linked_searched hl m), row_searched hl, List.flatMap_cons,
      List.append_assoc]

/-- The code at a position is that of the last kept query minimizer there. -/
theorem queryCode?_foldl_searched (ms : List Minimizer) (acc : HitTable × Std.HashMap UInt64 Float)
    (p : Nat) :
    (ms.foldl (fun acc m => ix.searched q m acc) acc).1.queryCode? p =
      ((ms.reverse.find? fun m => (ix.held m.code).length ≤ ix.maxOccurrences ∧ m.position = p).map
        (·.code)).or (acc.1.queryCode? p) := by
  induction ms generalizing acc with
  | nil => simp
  | cons m ms ih =>
    rw [List.foldl_cons, ih, queryCode?_searched, List.reverse_cons, List.find?_append,
      List.find?_singleton]
    by_cases h : (ix.held m.code).length ≤ ix.maxOccurrences ∧ m.position = p
    · cases (ms.reverse.find? fun m => decide ((ix.held m.code).length ≤ ix.maxOccurrences ∧ m.position = p)) <;>
        simp [h]
    · cases (ms.reverse.find? fun m => decide ((ix.held m.code).length ≤ ix.maxOccurrences ∧ m.position = p)) <;>
        simp [h]

theorem weights_foldl_searched (ms : List Minimizer) (acc : HitTable × Std.HashMap UInt64 Float)
    (c : UInt64) :
    (ms.foldl (fun acc m => ix.searched q m acc) acc).2[c]? =
      if (∃ m ∈ ms, m.code = c) ∧ ix.held c ≠ [] ∧ (ix.held c).length ≤ ix.maxOccurrences then
        some (min (ix.depth.toFloat / (ix.held c).length.toFloat) 1.0)
      else acc.2[c]? := by
  induction ms generalizing acc with
  | nil => simp
  | cons m ms ih =>
    rw [List.foldl_cons, ih, weights_searched]
    by_cases hk : ix.held c ≠ [] ∧ (ix.held c).length ≤ ix.maxOccurrences
    · by_cases hm : m.code = c <;> simp [hk, hm]
    · simp [hk]

variable (hne : ∀ (c : UInt64) (occ : GrowingVec UInt64), ix.entries[c]? = some occ → occ.items ≠ #[])
include hne

/-- Whatever the allocator, a search fold that returns gives the fold of `searched`. -/
theorem searchFold_eq_ok {alloc : Allocator} (ms : List Minimizer)
    (acc : HitTable × Std.HashMap UInt64 Float) {r : HitTable × Std.HashMap UInt64 Float}
    (h : ms.foldlM (fun acc m => ix.searchCode alloc q m acc) acc = .ok r) :
    r = ms.foldl (fun acc m => ix.searched q m acc) acc :=
  foldlM_ok_eq_foldl (fun acc m r (h : ix.searchCode alloc q m acc = .ok r) => searchCode_eq_ok hne h)
    ms acc r h

/-- An allocator that serves every request fails no hit of a search whose rows have room for
the threshold of hits per query minimizer. -/
theorem searchFold_of_serves {alloc : Allocator} (hserves : ∀ n, alloc.serves n = true)
    (ms : List Minimizer) (acc : HitTable × Std.HashMap UInt64 Float) {n : Nat} (hl : acc.1.Linked)
    (hb : acc.1.RowsBelow n) (hn : n + ms.length * ix.maxOccurrences < 2 ^ 57) :
    ms.foldlM (fun acc m => ix.searchCode alloc q m acc) acc =
      .ok (ms.foldl (fun acc m => ix.searched q m acc) acc) :=
  foldlM_eq_ok_of_room
    (fun k acc => ∃ n, acc.1.Linked ∧ acc.1.RowsBelow n ∧ n + k * ix.maxOccurrences < 2 ^ 57)
    (fun k _ _ ⟨_, hl, hb, hn⟩ =>
      searchCode_of_serves hne hserves hl hb (by rw [Nat.succ_mul] at hn; omega))
    (fun k _ m ⟨n, hl, hb, hn⟩ => ⟨n + ix.maxOccurrences, linked_searched hl m,
      rowsBelow_searched hl hb m, by rw [Nat.succ_mul] at hn; omega⟩)
    ms acc ⟨n, hl, hb, hn⟩

/-- A search that returns has taken the room for the scan of the query, and gives the table
of its minimizers. -/
theorem search_eq_ok {alloc : Allocator} {seq : Bytes} {t : HitTable}
    (h : ix.search alloc q seq = .ok t) :
    ix.scheme.reserveWindow alloc = .ok () ∧ t = ix.hitTable q (ix.scheme.minimizers seq).toList := by
  unfold search at h
  obtain ⟨ms, hscan, h⟩ := bind_ok h
  rw [mapError_eq_ok] at hscan
  obtain ⟨hw, rfl⟩ := (scan_eq_ok_iff alloc ix.scheme seq ms).mp hscan
  obtain ⟨⟨t', W⟩, hr, h⟩ := bind_ok h
  rw [mapError_eq_ok, ← Array.foldlM_toList] at hr
  refine ⟨hw, ?_⟩
  unfold hitTable
  rw [← searchFold_eq_ok hne _ _ hr]
  exact (Except.ok.inj h).symm

/-- An allocator that serves every request lets a search return when the room for the deque
of the scan fits a collection and the query is short enough for the hits it may give. -/
theorem search_of_serves {alloc : Allocator} (hserves : ∀ n, alloc.serves n = true)
    (hw : 32 * (ix.scheme.w + 1) ≤ maxCollectionBytes 8) {seq : Bytes}
    (hlen : (seq.length + 1) * ix.maxOccurrences < 2 ^ 57) :
    ix.search alloc q seq = .ok (ix.hitTable q (ix.scheme.minimizers seq).toList) := by
  have hscan : ix.scheme.scan alloc seq = .ok (ix.scheme.minimizers seq) :=
    (scan_eq_ok_iff alloc ix.scheme seq _).mpr ⟨reserveWindow_of_serves hw (hserves _), rfl⟩
  have hms := (minimizers_words ix.scheme seq).2
  have hfold : (ix.scheme.minimizers seq).toList.foldlM (fun acc m => ix.searchCode alloc q m acc)
      (HitTable.empty, {}) = _ :=
    searchFold_of_serves hne hserves _ (HitTable.empty, {}) HitTable.linked_empty HitTable.rowsBelow_empty (by
      simp only [Array.length_toList, Nat.zero_add]
      exact Nat.lt_of_le_of_lt (Nat.mul_le_mul_right _ hms) hlen)
  rw [Array.foldlM_toList] at hfold
  unfold SeedIndex.search hitTable
  rw [hscan]
  simp only [Except.mapError, bind, Except.bind]
  rw [hfold]
  rfl

omit hne in
/-- A search that cannot take the room for the scan of the query stops there. -/
theorem search_eq_error {alloc : Allocator} {seq : Bytes} {p : Panic}
    (h : ix.scheme.reserveWindow alloc = .error p) : ix.search alloc q seq = .error (.panic p) := by
  simp [SeedIndex.search, scan_eq_error alloc ix.scheme seq h, Except.mapError, bind, Except.bind]

end Fold

/-! ## What a search answers -/

section Answer

variable (s : MinimizerScheme) (pairs : List (Nat × Bytes)) (maxOcc q : Nat)

/-- A query minimizer is informative unless its code occurs more than `maxOcc` times among
the indexed sequences, the query's own occurrences included. -/
def Informative (m : Minimizer) : Prop := (occurrences s pairs m.code).length ≤ maxOcc

instance (m : Minimizer) : Decidable (Informative s pairs maxOcc m) :=
  inferInstanceAs (Decidable (_ ≤ _))

/-- The number of occurrences of the code of `m` in sequences other than the query `q`. -/
def otherCount (m : Minimizer) : Nat := (occurrences s pairs m.code).countP fun o => o.sequence ≠ q

/-- The hits that query minimizer `m` gives subject `sub`: one per position of its code there,
in the order of its scan, unless `sub` is the query or the code is repetitive. -/
def hitsOf (sub : Nat) (m : Minimizer) : List Hit :=
  if sub ≠ q ∧ Informative s pairs maxOcc m then
    (positionsIn s pairs m.code sub).map fun p => ⟨m.position, p⟩
  else []

/-- The weight of the hits of code `c` for the expected depth `depth`: `min (depth / n) 1`,
for the `n` occurrences of `c`. -/
def weightOf (depth : Nat) (c : UInt64) : Float :=
  min (depth.toFloat / (occurrences s pairs c).length.toFloat) 1.0

/-- The code registered at query position `p` once the query minimizers `ms` are taken in
order: that of the last informative one there. -/
def codeAt (ms : List Minimizer) (p : Nat) : Option UInt64 :=
  (ms.reverse.find? fun m => Informative s pairs maxOcc m ∧ m.position = p).map (·.code)

/-- The weight set for code `c`: that of its occurrences, when a query minimizer has that code,
and the code occurs and is not repetitive. -/
def weightAt (depth : Nat) (ms : List Minimizer) (c : UInt64) : Option Float :=
  if (∃ m ∈ ms, m.code = c) ∧ occurrences s pairs c ≠ [] ∧ (occurrences s pairs c).length ≤ maxOcc
  then some (weightOf s pairs depth c) else none

/-- What the hit table `t` of query `q`, whose minimizers are `ms`, answers when the indexed
sequences are `pairs`, the repetitive threshold `maxOcc` and the expected depth `depth`. -/
structure Answers (depth : Nat) (ms : List Minimizer) (t : HitTable) : Prop where
  /-- Each subject's row: the hits of the query minimizers in order, each one's in the order
  of the subject's scan. -/
  rows : ∀ sub, (t.row sub).toList = ms.flatMap (hitsOf s pairs maxOcc q sub)
  /-- The informative minimizers are registered at their positions, the last one winning. -/
  queryCode : ∀ p, t.queryCode? p = codeAt s pairs maxOcc ms p
  weights : ∀ c, t.codeWeights[c]? = weightAt s pairs maxOcc depth ms c
  /-- The weighted hits of each subject: its hits whose position has a code, with that code's
  weight. -/
  hits : ∀ sub len, (t.hits sub len).toList =
    (ms.flatMap (hitsOf s pairs maxOcc q sub)).filterMap fun x =>
      (codeAt s pairs maxOcc ms x.query).map fun c =>
        { subjectId := sub, query := x.query, subject := x.subject, length := len,
          weight := (weightAt s pairs maxOcc depth ms c).getD 1.0 }
  subjects_sorted : t.subjects.Pairwise (· < ·)
  mem_subjects : ∀ sub, sub ∈ t.subjects ↔ ∃ m ∈ ms, hitsOf s pairs maxOcc q sub m ≠ []
  /-- One code per position of an informative minimizer. -/
  informativeCodes : t.informativeCodes =
    ((ms.filter fun m => Informative s pairs maxOcc m).map (·.position)).toFinset.card
  notFound : t.notFound = ms.countP fun m => Informative s pairs maxOcc m ∧ otherCount s pairs q m = 0
  multihit : t.multihit = ms.countP fun m => Informative s pairs maxOcc m ∧ 2 ≤ otherCount s pairs q m
  repetitive : t.repetitive = ms.countP fun m => ¬Informative s pairs maxOcc m
  totalHits : t.totalHits =
    (ms.map fun m => if Informative s pairs maxOcc m then otherCount s pairs q m else 0).sum

/-! ### The order of indexing does not matter -/

variable {s pairs maxOcc q}

/-- Under distinct ids, looking an id up does not depend on the order of the pairs. -/
theorem lookup_perm {pairs' : List (Nat × Bytes)} (hp : pairs.Perm pairs')
    (hnd : (pairs.map Prod.fst).Nodup) (id : Nat) : pairs.lookup id = pairs'.lookup id := by
  induction hp with
  | nil => rfl
  | cons p _ ih =>
    obtain ⟨i, seq⟩ := p
    rw [List.map_cons, List.nodup_cons] at hnd
    simp only [List.lookup_cons, ih hnd.2]
  | swap p p' l =>
    obtain ⟨i, seq⟩ := p
    obtain ⟨i', seq'⟩ := p'
    simp only [List.map_cons, List.nodup_cons, List.mem_cons, not_or] at hnd
    -- the two swapped ids differ, so at most one of them is `id`
    have hii : i' ≠ i := hnd.1.1
    cases hb : id == i <;> cases hb' : id == i'
    · simp only [List.lookup_cons, hb, hb']
    · simp only [List.lookup_cons, hb, hb']
    · simp only [List.lookup_cons, hb, hb']
    · exact absurd ((beq_iff_eq.mp hb').symm.trans (beq_iff_eq.mp hb)) hii
  | trans hp₁ _ ih₁ ih₂ => exact (ih₁ hnd).trans (ih₂ ((hp₁.map Prod.fst).nodup_iff.mp hnd))

/-- The answer of a search does not depend on the order in which the sequences were indexed. -/
theorem Answers.perm {depth : Nat} {ms : List Minimizer} {t : HitTable}
    (h : Answers s pairs maxOcc q depth ms t) {pairs' : List (Nat × Bytes)} (hp : pairs.Perm pairs')
    (hnd : (pairs.map Prod.fst).Nodup) : Answers s pairs' maxOcc q depth ms t := by
  have hocc : ∀ c, (occurrences s pairs c).Perm (occurrences s pairs' c) := fun c => hp.flatMap_right _
  have hI : ∀ m, Informative s pairs maxOcc m ↔ Informative s pairs' maxOcc m := fun m => by
    rw [Informative, Informative, (hocc m.code).length_eq]
  have hO : ∀ m, otherCount s pairs q m = otherCount s pairs' q m := fun m => (hocc m.code).countP_eq _
  have hH : ∀ sub, hitsOf s pairs maxOcc q sub = hitsOf s pairs' maxOcc q sub := by
    intro sub
    funext m
    unfold hitsOf positionsIn
    rw [lookup_perm hp hnd]
    by_cases hc : sub ≠ q ∧ Informative s pairs maxOcc m
    · rw [if_pos hc, if_pos ⟨hc.1, (hI m).mp hc.2⟩]
    · rw [if_neg hc, if_neg fun hc' => hc ⟨hc'.1, (hI m).mpr hc'.2⟩]
  have hC : ∀ p, codeAt s pairs maxOcc ms p = codeAt s pairs' maxOcc ms p := fun p => by
    simp only [codeAt, hI]
  have hW : ∀ c, weightAt s pairs maxOcc depth ms c = weightAt s pairs' maxOcc depth ms c := by
    intro c
    have hlen := (hocc c).length_eq
    have hnil : occurrences s pairs c = [] ↔ occurrences s pairs' c = [] := by
      rw [← List.length_eq_zero_iff, hlen, List.length_eq_zero_iff]
    simp only [weightAt, weightOf, hlen, ne_eq, hnil]
  refine {
    rows := fun sub => (h.rows sub).trans (by rw [hH])
    queryCode := fun p => (h.queryCode p).trans (hC p)
    weights := fun c => (h.weights c).trans (hW c)
    hits := fun sub len => (h.hits sub len).trans (by simp only [hH, hC, hW])
    subjects_sorted := h.subjects_sorted
    mem_subjects := fun sub => (h.mem_subjects sub).trans (by simp only [hH])
    informativeCodes := h.informativeCodes.trans (by simp only [hI])
    notFound := h.notFound.trans (List.countP_congr fun m _ => by
      simp only [decide_eq_true_eq, hI, hO])
    multihit := h.multihit.trans (List.countP_congr fun m _ => by
      simp only [decide_eq_true_eq, hI, hO])
    repetitive := h.repetitive.trans (List.countP_congr fun m _ => by
      simp only [decide_eq_true_eq, hI])
    totalHits := h.totalHits.trans (congrArg List.sum (List.map_congr_left fun m _ => ?_)) }
  by_cases hinf : Informative s pairs maxOcc m
  · rw [if_pos hinf, if_pos ((hI m).mp hinf), hO]
  · rw [if_neg hinf, if_neg (mt (hI m).mpr hinf)]

end Answer

/-! ## The search of an index that stores its sequences -/

section Stored

variable {ix : SeedIndex} {pairs : List (Nat × Bytes)}

theorem Stores.length_held (h : ix.Stores pairs) (c : UInt64) :
    (ix.held c).length = (occurrences ix.scheme pairs c).length :=
  (h.perm c).length_eq

theorem Stores.held_eq_nil (h : ix.Stores pairs) (c : UInt64) :
    ix.held c = [] ↔ occurrences ix.scheme pairs c = [] := by
  rw [← List.length_eq_zero_iff, h.length_held, List.length_eq_zero_iff]

theorem Stores.length_heldOthers (h : ix.Stores pairs) (q : Nat) (c : UInt64) :
    (ix.heldOthers q c).length = (occurrences ix.scheme pairs c).countP fun o => o.sequence ≠ q := by
  rw [heldOthers, ← List.countP_eq_length_filter]
  exact (h.perm c).countP_eq _

theorem Stores.informative_iff (h : ix.Stores pairs) (m : Minimizer) :
    Informative ix.scheme pairs ix.maxOccurrences m ↔ (ix.held m.code).length ≤ ix.maxOccurrences := by
  rw [Informative, h.length_held]

/-- The held occurrences of a code in a subject other than the query are its positions there. -/
theorem Stores.filter_heldOthers (h : ix.Stores pairs) (q : Nat) (c : UInt64) (sub : Nat) :
    (ix.heldOthers q c).filter (fun o => o.sequence = sub) =
      if sub = q then [] else (positionsIn ix.scheme pairs c sub).map fun p => ⟨sub, p⟩ := by
  rw [heldOthers, List.filter_filter]
  split
  · next hsub =>
    subst hsub
    exact List.filter_eq_nil_iff.mpr fun o _ => by simp
  · next hsub =>
    rw [← h.entries]
    exact List.filter_congr fun o _ => by by_cases ho : o.sequence = sub <;> simp [ho, hsub]

/-- What one query minimizer at a 32-bit position gives a subject, read from the index, is its
reference hits. -/
theorem Stores.hits_eq_hitsOf (h : ix.Stores pairs) (q : Nat) {m : Minimizer}
    (hm : m.position < 2 ^ 32) (sub : Nat) :
    (if ix.maxOccurrences < (ix.held m.code).length then []
      else ((ix.heldOthers q m.code).filter fun o => o.sequence = sub).map
        fun o => (⟨m.position % 2 ^ 32, o.position⟩ : Hit)) =
      hitsOf ix.scheme pairs ix.maxOccurrences q sub m := by
  rw [Nat.mod_eq_of_lt hm]
  unfold hitsOf Informative
  rw [h.length_held, h.filter_heldOthers]
  by_cases hrep : ix.maxOccurrences < (occurrences ix.scheme pairs m.code).length
  · simp [hrep, Nat.not_le.mpr hrep]
  · by_cases hsub : sub = q
    · simp [hsub]
    · simp [hrep, hsub, Nat.le_of_not_lt hrep, Function.comp_def]

/-- The table of the query minimizers `ms`, at 32-bit positions, from an index that stores
`pairs` answers from the occurrences of `pairs`. -/
theorem Stores.answers (h : ix.Stores pairs) (q : Nat) {ms : List Minimizer}
    (hms : ∀ m ∈ ms, m.position < 2 ^ 32) :
    Answers ix.scheme pairs ix.maxOccurrences q ix.depth ms (ix.hitTable q ms) := by
  unfold hitTable
  -- the table before the weights are set
  generalize hr : ms.foldl (fun acc m => ix.searched q m acc) (HitTable.empty, {}) = r
  have hl : r.1.Linked := hr ▸ linked_foldl_searched HitTable.linked_empty ms
  have hrows : ∀ sub, (r.1.row sub).toList = ms.flatMap (hitsOf ix.scheme pairs ix.maxOccurrences q sub) := by
    intro sub
    rw [← hr, row_foldl_searched HitTable.linked_empty, HitTable.row_empty, Array.toList_empty,
      List.nil_append]
    exact List.flatMap_congr fun m hm => h.hits_eq_hitsOf q (hms m hm) sub
  have hcodes : ∀ p, r.1.queryCode? p = codeAt ix.scheme pairs ix.maxOccurrences ms p := by
    intro p
    rw [← hr, queryCode?_foldl_searched, HitTable.queryCode?_empty, Option.or_none]
    simp only [codeAt, h.informative_iff]
  have hweights : ∀ c, r.2[c]? = weightAt ix.scheme pairs ix.maxOccurrences ix.depth ms c := by
    intro c
    rw [← hr, weights_foldl_searched]
    simp [weightAt, h.held_eq_nil, h.length_held, weightOf]
  -- each counter is raised query minimizer by query minimizer
  have hcount : ∀ (obs : HitTable → Nat) (f : Minimizer → Nat),
      (∀ m acc, obs (ix.searched q m acc).1 = obs acc.1 + f m) → obs HitTable.empty = 0 →
      obs r.1 = (ms.map f).sum := by
    intro obs f hstep h0
    rw [← hr, foldl_searched_sum obs f hstep, h0, Nat.zero_add]
  refine {
    rows := hrows
    queryCode := hcodes
    weights := hweights
    hits := fun sub len => ?_
    subjects_sorted := HitTable.subjects_sorted _
    mem_subjects := fun sub => ?_
    informativeCodes := ?_
    notFound := ?_
    multihit := ?_
    repetitive := ?_
    totalHits := ?_ }
  · -- a hit reads the code registered at its query position and that code's weight
    simp only [HitTable.hits, Array.toList_filterMap]
    rw [show (r.1.setWeights r.2).row sub = r.1.row sub from rfl, hrows]
    refine List.filterMap_congr fun x _ => ?_
    rw [show (r.1.setWeights r.2).queryCode? x.query = r.1.queryCode? x.query from rfl, hcodes]
    cases codeAt ix.scheme pairs ix.maxOccurrences ms x.query with
    | none => rfl
    | some c =>
      rw [Option.map_some, Option.map_some, show (r.1.setWeights r.2).codeWeights = r.2 from rfl,
        Std.HashMap.getD_eq_getD_getElem?, hweights]
  · show sub ∈ r.1.subjects ↔ _
    rw [HitTable.mem_subjects hl, ne_eq, ← Array.toList_eq_nil_iff, hrows, List.flatMap_eq_nil_iff]
    simp
  · -- a position holds a code exactly when an informative query minimizer sits there
    refine HitTable.informativeCodes_eq_card fun p => ?_
    rw [show (r.1.setWeights r.2).queryCode? p = r.1.queryCode? p from rfl, hcodes, codeAt]
    simp [List.find?_isSome, and_assoc]
  · show r.1.notFound = _
    rw [hcount _ _ (fun m acc => (counters_searched m acc).1) rfl, sum_map_ite_one]
    exact List.countP_congr fun m _ => by
      simp only [decide_eq_true_eq, h.informative_iff, otherCount, h.length_heldOthers]
  · show r.1.multihit = _
    rw [hcount _ _ (fun m acc => (counters_searched m acc).2.1) rfl, sum_map_ite_one]
    exact List.countP_congr fun m _ => by
      simp only [decide_eq_true_eq, h.informative_iff, otherCount, h.length_heldOthers]
  · show r.1.repetitive = _
    rw [hcount _ _ (fun m acc => (counters_searched m acc).2.2.1) rfl, sum_map_ite_one]
    exact List.countP_congr fun m _ => by
      simp only [decide_eq_true_eq, h.informative_iff, Nat.not_le]
  · show r.1.totalHits = _
    rw [hcount _ _ (fun m acc => (counters_searched m acc).2.2.2) rfl]
    refine congrArg List.sum (List.map_congr_left fun m _ => ?_)
    by_cases hinf : Informative ix.scheme pairs ix.maxOccurrences m
    · rw [if_pos ((h.informative_iff m).mp hinf), if_pos hinf, otherCount, h.length_heldOthers]
    · rw [if_neg (mt (h.informative_iff m).mpr hinf), if_neg hinf]

end Stored

/-! ## Searching a built index -/

/-- The search of a query in an index built from `pairs`, whatever the allocator: when it
returns, it answers from the occurrences of `pairs` alone (`Answers`): the rows, weighted hits,
subjects, registered codes, weights and counters follow the query's minimizers in order and
read the occurrences of each code only through their number and each sequence's positions, so
that any order of indexing gives the same answer (`Answers.perm`). An allocator that serves
every request lets it return when the room for the deque of the scan, `w + 1` candidates of 32
bytes, fits a collection and the query is short enough for the hits it may give; and when that
room passes the largest collection the search stops on an overflow, whatever the index
holds. -/
theorem search_answers {k w depth : Nat} {ix : SeedIndex} {pairs : List (Nat × Bytes)}
    (h : Built k w depth ix pairs) (alloc : Allocator) (q : Nat) (seq : Bytes) :
    let s := MinimizerScheme.new k w
    (∀ t, ix.search alloc q seq = .ok t →
        Answers s pairs ix.maxOccurrences q (max depth 1) (s.minimizers seq).toList t) ∧
      ((∀ n, alloc.serves n = true) → 32 * (s.w + 1) ≤ maxCollectionBytes 8 →
        (seq.length + 1) * ix.maxOccurrences < 2 ^ 57 → ∃ t, ix.search alloc q seq = .ok t) ∧
      (maxCollectionBytes 8 < 32 * (s.w + 1) →
        ix.search alloc q seq =
          .error (.panic (if 2 ^ 64 ≤ s.w + 1 then .addOverflow else .capacityOverflow))) := by
  intro s
  obtain ⟨hst, hscheme, hdepth⟩ := h.stores
  have hwords := (minimizers_words ix.scheme seq).1
  refine ⟨fun t ht => ?_, fun hserves hw hlen => ⟨_, search_of_serves hst.nonempty hserves
    (by rw [hscheme]; exact hw) hlen⟩, fun hover => search_eq_error (by
      rw [hscheme]; exact reserveWindow_of_overflow alloc hover)⟩
  obtain ⟨-, rfl⟩ := search_eq_ok hst.nonempty ht
  have := hst.answers q fun m hm => hwords m (Array.mem_toList_iff.mp hm)
  generalize ix.hitTable q (ix.scheme.minimizers seq).toList = t at this ⊢
  rw [hscheme, hdepth] at this
  exact this

/-- An index of one nucleotide string, built with an allocator that serves every request, and
searched for a string that shares a stretch with it: the search returns, and answers from the
indexed string. -/
theorem search_answers_shared :
    ∃ ix t, Built 3 2 1 ix [(1, [65, 67, 71, 84, 65, 67, 71])] ∧
      ix.search ⟨fun _ => true⟩ 0 [71, 84, 65, 67, 71, 84] = .ok t ∧
      Answers (.new 3 2) [(1, [65, 67, 71, 84, 65, 67, 71])] ix.maxOccurrences 0 (max 1 1)
        ((MinimizerScheme.new 3 2).minimizers [71, 84, 65, 67, 71, 84]).toList t := by
  have hindex : ∃ ix, (SeedIndex.new 3 2 1).addSequence ⟨fun _ => true⟩ 1
      [65, 67, 71, 84, 65, 67, 71] = .ok ix :=
    (stores_new 3 2 1).addSequence_of_serves (fun _ => rfl) (by decide) 1 (by decide)
  obtain ⟨ix, hadd⟩ := hindex
  have hb : Built 3 2 1 ix [(1, [65, 67, 71, 84, 65, 67, 71])] :=
    Built.add ⟨fun _ => true⟩ .empty (by simp) (by decide) hadd
  have hmax : ix.maxOccurrences = 100 := by
    rw [(addSequence_eq_ok hadd).2]
    rfl
  obtain ⟨hans, hok, -⟩ := search_answers hb ⟨fun _ => true⟩ 0 [71, 84, 65, 67, 71, 84]
  obtain ⟨t, ht⟩ := hok (fun _ => rfl) (by decide) (by rw [hmax]; decide)
  exact ⟨ix, t, hb, ht, hans t ht⟩

/-- A window too large for the room of its deque stops the search of an empty index, even with
an allocator that serves every request. -/
theorem search_huge_window_overflows :
    (SeedIndex.new 5 (2 ^ 62) 1).search ⟨fun _ => true⟩ 0 [] = .error (.panic .capacityOverflow) :=
  rfl

end SeedIndex

end OverlapLayout
