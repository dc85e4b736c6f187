import Mathlib
import OverlapLayout.Proofs.Seed.Hits
/-!
  A hit table answers as the log of what was done to it.

  The table reaches its rows through a map from subjects, keeps each hit packed into a word, its
  codes in a tree by query position and its weights in a hash map, and joins them only when
  asked. The log (`HitLog`) keeps what a reader of the table can see: every hit added with its
  subject, oldest first; the code registered last at each position; and the weight of each code,
  replaced wholesale by `setWeights`. Codes and weights are joined to hits when a hit is read,
  so a code registered after a hit was added still changes what the hit reads as.

  * `HitTable.Op`, `HitTable.run`, `HitLog.run`: a sequence of operations, on the table (where
    adding a hit may fail to grow a row) and on the log.
  * `Represents`: the rows, codes and weights of the table are those of the log, and its rows
    are linked to its subjects; kept by every operation (`Represents.applied`), so by every
    run (`Represents.run`).
  * `Agrees`: every observer of the table answers as the log says; `Represents.agrees`.
  * `run_agrees`: from an empty table, or one with reserved room, every run that no failed
    allocation stops leaves a table that agrees with its log, and an allocator that serves
    every request stops none.
-/

namespace OverlapLayout

namespace HitTable

/-- An operation that changes what a hit table answers, with the argument types the table
takes: 32-bit subjects and positions. -/
inductive Op where
  /-- Records a hit of the query k-mer at `query` against `subjectId` at `subject`. -/
  | addHit (subjectId query subject : UInt32)
  /-- Registers the code of the query k-mer at `query`. -/
  | registerCode (query : UInt32) (code : UInt64)
  /-- Sets the weight of one code. -/
  | setWeight (code : UInt64) (weight : Float)
  /-- Replaces all weights. -/
  | setWeights (weights : Std.HashMap UInt64 Float)

/-- Applies one operation to a table, taking memory from `alloc`. -/
def apply (alloc : Allocator) (t : HitTable) : Op → Except ReserveError HitTable
  | .addHit s q p => t.addHit alloc s.toNat q.toNat p.toNat
  | .registerCode q c => pure (t.registerCode q.toNat c)
  | .setWeight c w => pure (t.setWeight c w)
  | .setWeights ws => pure (t.setWeights ws)

/-- Applies operations to a table, in order, until one fails. -/
def run (alloc : Allocator) (t : HitTable) (ops : List Op) : Except ReserveError HitTable :=
  ops.foldlM (apply alloc) t

/-- What an operation makes of a table when it succeeds, whatever the allocator. -/
def applied (t : HitTable) : Op → HitTable
  | .addHit s q p => t.added s.toNat q.toNat p.toNat
  | .registerCode q c => t.registerCode q.toNat c
  | .setWeight c w => t.setWeight c w
  | .setWeights ws => t.setWeights ws

theorem apply_eq_ok {alloc : Allocator} {t t' : HitTable} {op : Op} (h : t.apply alloc op = .ok t') :
    t' = t.applied op := by
  cases op with
  | addHit s q p => exact addHit_eq_ok h
  | registerCode q c => exact (Except.ok.inj h).symm
  | setWeight c w => exact (Except.ok.inj h).symm
  | setWeights ws => exact (Except.ok.inj h).symm

/-- A run that succeeds gives what its operations make of the table. -/
theorem run_eq_ok {alloc : Allocator} {t t' : HitTable} {ops : List Op} (h : t.run alloc ops = .ok t') :
    t' = ops.foldl applied t :=
  foldlM_ok_eq_foldl (fun _ _ _ => apply_eq_ok) ops t t' h

end HitTable

/-- What a hit table should answer, kept as a log of its operations. -/
structure HitLog where
  /-- Every hit added, with its subject, oldest first. -/
  hits : List (Nat × Hit) := []
  /-- The code registered last at each query position. -/
  codes : AList (fun _ : Nat => UInt64) := ∅
  /-- The weight of each code. -/
  weight : UInt64 → Option Float := fun _ => none

namespace HitLog

/-- Applies one operation to a log: a hit goes to the end, a registration replaces the code
of its position, and `setWeights` replaces every weight. -/
def apply (m : HitLog) : HitTable.Op → HitLog
  | .addHit s q p => { m with hits := m.hits ++ [(s.toNat, ⟨q.toNat, p.toNat⟩)] }
  | .registerCode q c => { m with codes := m.codes.insert q.toNat c }
  | .setWeight c w => { m with weight := Function.update m.weight c (some w) }
  | .setWeights ws => { m with weight := fun c => ws[c]? }

/-- Applies operations to a log, in order. -/
def run (m : HitLog) (ops : List HitTable.Op) : HitLog := ops.foldl apply m

/-- The hits of a subject, oldest first. -/
def row (m : HitLog) (s : Nat) : List Hit := (m.hits.filter (·.1 = s)).map (·.2)

/-- The subjects with a hit, ascending. -/
def subjects (m : HitLog) : List Nat := (m.hits.map Prod.fst).toFinset.sort

/-- The hits of a subject whose query position has a code, oldest first, each with the
weight of that code (1 when it has none) and k-mer length `k`. -/
def weightedHits (m : HitLog) (s k : Nat) : List WeightedHit :=
  (m.row s).filterMap fun h => (m.codes.lookup h.query).map fun c =>
    { subjectId := s, query := h.query, subject := h.subject, length := k,
      weight := (m.weight c).getD 1.0 }

/-- Number of distinct codes at the query positions of a subject's hits. -/
def distinctKmers (m : HitLog) (s : Nat) : Nat :=
  ((m.row s).filterMap fun h => m.codes.lookup h.query).toFinset.card

/-- Number of distinct codes registered at positions whose k-mer of length `k` lies in
`[start, stop)`. -/
def distinctCodesIn (m : HitLog) (start stop : Int) (k : Nat) : Nat :=
  ((m.codes.entries.filter fun e => start ≤ (e.1 : Int) ∧ (e.1 : Int) + k ≤ stop).map
    (·.2)).toFinset.card

@[simp] theorem row_addHit (m : HitLog) (s q p : UInt32) (s' : Nat) :
    (m.apply (.addHit s q p)).row s' =
      if s.toNat = s' then m.row s' ++ [⟨q.toNat, p.toNat⟩] else m.row s' := by
  by_cases h : s.toNat = s' <;> simp [apply, row, h]

theorem mem_subjects (m : HitLog) (s : Nat) : s ∈ m.subjects ↔ m.row s ≠ [] := by
  simp [subjects, row, List.filter_eq_nil_iff]

/-- A subject's hits are counted by the occurrences of the subject in the log. -/
theorem length_row (m : HitLog) (s : Nat) : (m.row s).length = (m.hits.map Prod.fst).count s := by
  simp only [row, List.length_map, List.count, List.countP_map]
  rw [List.countP_eq_length_filter]
  congr 1

/-- The hits of all subjects are all the hits. -/
theorem sum_length_row (m : HitLog) : (m.subjects.map fun s => (m.row s).length).sum = m.hits.length := by
  have hperm := Finset.sort_perm_toList (m.hits.map Prod.fst).toFinset (· ≤ ·)
  rw [subjects, (hperm.map _).sum_eq, Finset.sum_map_toList]
  simp only [length_row]
  rw [List.sum_toFinset_count_eq_length, List.length_map]

end HitLog

/-- The number of distinct codes of a list is the size of its set. -/
theorem HitTable.distinctCount_eq_card (codes : List UInt64) :
    HitTable.distinctCount codes = codes.toFinset.card := by
  -- the hash set built so far holds exactly the codes of a finite set
  suffices h : ∀ (S : Std.HashSet UInt64) (F : Finset UInt64), (∀ c, c ∈ S ↔ c ∈ F) →
      S.size = F.card → (codes.foldl (fun s c => s.insert c) S).size = (F ∪ codes.toFinset).card by
    simpa [distinctCount] using h {} ∅ (by simp) (by simp)
  induction codes with
  | nil => intro S F _ hsize; simpa using hsize
  | cons c codes ih =>
    intro S F hmem hsize
    rw [List.foldl_cons, List.toFinset_cons, Finset.union_insert, ← Finset.insert_union]
    refine ih _ _ (fun x => by rw [Std.HashSet.mem_insert, Finset.mem_insert, hmem, beq_iff_eq, eq_comm]) ?_
    rw [Std.HashSet.size_insert]
    by_cases hc : c ∈ F
    · simp [(hmem c).mpr hc, hc, hsize]
    · have : c ∉ S := fun h => hc ((hmem c).mp h)
      simp [this, hc, hsize]

namespace HitTable

/-- The table holds what the log says: the same hits of every subject, in the same order, its
rows linked to its subjects, the same number of hits, and the same codes and weights. -/
structure Represents (t : HitTable) (m : HitLog) : Prop where
  row : ∀ s, (t.row s).toList = m.row s
  linked : t.Linked
  total : t.totalHits = m.hits.length
  code : ∀ p, t.queryCode? p = m.codes.lookup p
  weight : ∀ c, t.codeWeights[c]? = m.weight c

theorem represents_empty : Represents empty {} :=
  ⟨fun _ => by simp [HitLog.row], linked_empty, rfl, fun _ => rfl, fun _ => Std.HashMap.getElem?_empty⟩

/-- A table with reserved room represents the empty log. -/
theorem represents_withCapacity {alloc : Allocator} {c : Nat} {t : HitTable}
    (h : withCapacity alloc c = .ok t) : Represents t {} := by
  have hl := linked_withCapacity h
  rw [eq_of_withCapacity h] at hl ⊢
  exact ⟨fun _ => by simp [HitLog.row, row, entries], hl, rfl, fun _ => rfl,
    fun _ => Std.HashMap.getElem?_empty⟩

variable {t : HitTable} {m : HitLog}

/-- Every operation keeps the table a representation of the log. -/
theorem Represents.applied (h : Represents t m) (op : Op) :
    Represents (t.applied op) (m.apply op) := by
  cases op with
  | addHit s q p =>
    refine ⟨fun s' => ?_, h.linked.added _ _ _, by simp [HitTable.applied, HitLog.apply, h.total],
      fun p' => by simp [HitTable.applied, queryCode?, HitLog.apply, ← h.code],
      fun c => by simp [HitTable.applied, HitLog.apply, ← h.weight]⟩
    rw [HitTable.applied, row_added h.linked, HitLog.row_addHit,
      Nat.mod_eq_of_lt q.toNat_lt, Nat.mod_eq_of_lt p.toNat_lt]
    split <;> simp [h.row]
  | registerCode q c =>
    refine ⟨h.row, h.linked.of_rows rfl rfl, h.total, fun p => ?_, h.weight⟩
    rw [HitTable.applied, queryCode?_registerCode, h.code]
    by_cases hp : q.toNat = p
    · subst hp
      simp [HitLog.apply, AList.lookup_insert]
    · simp [HitLog.apply, hp, AList.lookup_insert_ne (Ne.symm hp)]
  | setWeight c w =>
    refine ⟨h.row, h.linked.of_rows rfl rfl, h.total, h.code, fun c' => ?_⟩
    simp only [HitTable.applied, setWeight, HitLog.apply, Std.HashMap.getElem?_insert, h.weight]
    by_cases hc : c' = c
    · subst hc; simp
    · simp [hc, Ne.symm hc]
  | setWeights ws => exact ⟨h.row, h.linked.of_rows rfl rfl, h.total, h.code, fun _ => rfl⟩

theorem Linked.applied (hl : t.Linked) (op : Op) : (t.applied op).Linked := by
  cases op with
  | addHit s q p => exact hl.added _ _ _
  | _ => exact hl.of_rows rfl rfl

/-- A run of operations keeps the table a representation of the log. -/
theorem Represents.run (h : Represents t m) (ops : List Op) :
    Represents (ops.foldl HitTable.applied t) (m.run ops) := by
  induction ops generalizing t m with
  | nil => exact h
  | cons op ops ih => exact ih (h.applied op)

/-! ## The observers -/

/-- Every observer of the table answers as the log says. -/
structure Agrees (t : HitTable) (m : HitLog) : Prop where
  hitCount : ∀ s, t.hitCount s = (m.row s).length
  totalHits : t.totalHits = (m.subjects.map fun s => (m.row s).length).sum
  subjects : t.subjects = m.subjects
  countsBySubject : t.countsBySubject = m.subjects.map fun s => (s, (m.row s).length)
  hits : ∀ s k, (t.hits s k).toList = m.weightedHits s k
  distinctKmerCount : ∀ s, t.distinctKmerCount s = m.distinctKmers s
  distinctCodesIn : ∀ start stop k, t.distinctCodesIn start stop k = m.distinctCodesIn start stop k
  informativeCodes : t.informativeCodes = m.codes.keys.length

theorem Represents.hitCount (h : Represents t m) (s : Nat) : t.hitCount s = (m.row s).length := by
  rw [HitTable.hitCount, ← h.row, Array.length_toList, HitTable.row, Array.size_map]

theorem Represents.subjects (h : Represents t m) : t.subjects = m.subjects := by
  refine t.subjects_sorted.eq_of_mem_iff (Finset.sortedLT_sort _).pairwise fun s => ?_
  rw [mem_subjects h.linked, HitLog.mem_subjects, ← h.row, ne_eq, ne_eq, Array.toList_eq_nil_iff]

/-- The counts by subject list each subject of the tree with the size of its row. -/
theorem countsBySubject_eq (t : HitTable) :
    t.countsBySubject = t.subjects.map fun s => (s, t.hitCount s) := by
  rw [countsBySubject, subjects, ← Std.TreeMap.map_fst_toList_eq_keys, List.map_map]
  refine List.map_congr_left fun p hp => ?_
  have hget := Std.TreeMap.mem_toList_iff_getElem?_eq_some.mp hp
  simp [hitCount, entries_of_getElem? hget]

theorem Represents.hits (h : Represents t m) (s k : Nat) :
    (t.hits s k).toList = m.weightedHits s k := by
  simp only [HitTable.hits, Array.toList_filterMap, h.row, HitLog.weightedHits, h.code,
    Std.HashMap.getD_eq_getD_getElem?, h.weight]

theorem Represents.distinctKmerCount (h : Represents t m) (s : Nat) :
    t.distinctKmerCount s = m.distinctKmers s := by
  simp only [HitTable.distinctKmerCount, distinctCount_eq_card, h.row, h.code, HitLog.distinctKmers]

/-- A code is registered at a position in the table exactly when the log has it there. -/
theorem Represents.mem_queryCodes (h : Represents t m) (p : Nat) (c : UInt64) :
    (p, c) ∈ t.queryCodes.toList ↔ (⟨p, c⟩ : (_ : Nat) × UInt64) ∈ m.codes.entries := by
  rw [Std.TreeMap.mem_toList_iff_getElem?_eq_some, ← AList.mem_lookup_iff, ← h.code]
  simp [queryCode?]

theorem Represents.distinctCodesIn (h : Represents t m) (start stop : Int) (k : Nat) :
    t.distinctCodesIn start stop k = m.distinctCodesIn start stop k := by
  rw [HitTable.distinctCodesIn, distinctCount_eq_card, HitLog.distinctCodesIn]
  congr 1
  ext c
  simp only [List.mem_toFinset, List.mem_filterMap, List.mem_map, List.mem_filter]
  constructor
  · rintro ⟨⟨p, c'⟩, hp, hc⟩
    split_ifs at hc with hin
    cases hc
    exact ⟨⟨p, c'⟩, ⟨(h.mem_queryCodes p c').mp hp, by simpa using hin⟩, rfl⟩
  · rintro ⟨⟨p, c'⟩, ⟨hp, hin⟩, rfl⟩
    refine ⟨(p, c'), (h.mem_queryCodes p c').mpr hp, ?_⟩
    simp only [decide_eq_true_eq] at hin
    simp [hin]

theorem Represents.informativeCodes (h : Represents t m) :
    t.informativeCodes = m.codes.keys.length := by
  rw [HitTable.informativeCodes, ← Std.TreeMap.length_keys]
  refine List.Perm.length_eq ((List.perm_ext_iff_of_nodup Std.TreeMap.nodup_keys
    m.codes.keys_nodup).mpr fun p => ?_)
  rw [Std.TreeMap.mem_keys, Std.TreeMap.mem_iff_isSome_getElem?, ← AList.mem_keys,
    ← AList.lookup_isSome, ← h.code]
  simp [queryCode?]

theorem Represents.agrees (h : Represents t m) : Agrees t m where
  hitCount := h.hitCount
  totalHits := h.total.trans m.sum_length_row.symm
  subjects := h.subjects
  countsBySubject := by
    rw [countsBySubject_eq, h.subjects]
    exact List.map_congr_left fun s _ => by rw [h.hitCount]
  hits := h.hits
  distinctKmerCount := h.distinctKmerCount
  distinctCodesIn := h.distinctCodesIn
  informativeCodes := h.informativeCodes

/-! ## Runs that succeed -/

/-- An operation adds at most one row, and one hit to one subject's row. -/
theorem RowsBelow.applied {n : Nat} (hl : t.Linked) (h : t.RowsBelow n) (op : Op) :
    (t.applied op).RowsBelow (n + 1) := by
  cases op with
  | addHit s q p => exact h.added hl s.toNat q.toNat p.toNat
  | _ => exact h.mono (Nat.le_succ n)

/-- An allocator that serves every request fails no operation of a run whose rows, grown by
one per operation, stay far from the largest collection. -/
theorem run_of_serves {alloc : Allocator} (hserves : ∀ n, alloc.serves n = true) :
    ∀ (ops : List Op) (t : HitTable) (n : Nat), t.Linked → t.RowsBelow n → n + ops.length < 2 ^ 57 →
      t.run alloc ops = .ok (ops.foldl applied t) := by
  intro ops
  induction ops with
  | nil => intro t n _ _ _; rfl
  | cons op ops ih =>
    intro t n hl hb hn
    have hstep : t.apply alloc op = .ok (t.applied op) := by
      cases op with
      | addHit s q p =>
        simp only [List.length_cons] at hn
        exact addHit_of_rowsBelow hserves hb (by omega) _ _ _
      | _ => rfl
    have hlen : n + 1 + ops.length < 2 ^ 57 := by simpa [Nat.add_assoc, Nat.add_comm 1] using hn
    rw [run, List.foldlM_cons, hstep]
    exact ih (t.applied op) (n + 1) (hl.applied op) (hb.applied hl op) hlen

/-- From an empty table, or one with room reserved, every sequence of operations that no failed
allocation stops leaves a table whose observers answer as the log of the operations says; and
an allocator that serves every request stops none of fewer than `2 ^ 57` operations. -/
theorem run_agrees (alloc : Allocator) {c : Nat} {t₀ : HitTable}
    (h₀ : t₀ = empty ∨ withCapacity alloc c = .ok t₀) (ops : List Op) :
    (∀ t, t₀.run alloc ops = .ok t → Agrees t (HitLog.run {} ops)) ∧
      ((∀ n, alloc.serves n = true) → ops.length < 2 ^ 57 → ∃ t, t₀.run alloc ops = .ok t) := by
  have hrep : Represents t₀ {} := h₀.elim (fun h => h ▸ represents_empty) represents_withCapacity
  refine ⟨fun t ht => ?_, fun hserves hlen => ⟨_, run_of_serves hserves ops t₀ 0 hrep.linked ?_ (by omega)⟩⟩
  · rw [run_eq_ok ht]
    exact (hrep.run ops).agrees
  · -- a fresh table has no row
    refine ⟨?_, fun s => ?_⟩
    · rcases h₀ with rfl | h
      · rfl
      · rw [eq_of_withCapacity h]
        simp
    · have := congrArg List.length (hrep.row s)
      simp only [HitTable.row, Array.toList_map, List.length_map, Array.length_toList] at this
      rw [this]
      simp [HitLog.row]

/-- The operations of the library's sample table, from a table with room for four subjects,
with an allocator that serves every request: the run succeeds, and its table answers as its
log. -/
theorem run_agrees_sample :
    ∃ t₀ t, withCapacity ⟨fun _ => true⟩ 4 = .ok t₀ ∧
      t₀.run ⟨fun _ => true⟩ [.registerCode 0 11, .registerCode 5 22, .registerCode 9 11,
        .setWeight 22 0.5, .addHit 3 0 100, .addHit 3 5 105, .addHit 3 9 109, .addHit 7 5 40] = .ok t ∧
      Agrees t (HitLog.run {} [.registerCode 0 11, .registerCode 5 22, .registerCode 9 11,
        .setWeight 22 0.5, .addHit 3 0 100, .addHit 3 5 105, .addHit 3 9 109, .addHit 7 5 40]) := by
  have hcap : withCapacity ⟨fun _ => true⟩ 4 = .ok { rows := { capacity := 4 } } := rfl
  obtain ⟨hagree, hrun⟩ := run_agrees ⟨fun _ => true⟩ (.inr hcap) [.registerCode 0 11,
    .registerCode 5 22, .registerCode 9 11, .setWeight 22 0.5, .addHit 3 0 100, .addHit 3 5 105,
    .addHit 3 9 109, .addHit 7 5 40]
  obtain ⟨t, ht⟩ := hrun (fun _ => rfl) (by decide)
  exact ⟨_, t, hcap, ht, hagree t ht⟩

end HitTable

end OverlapLayout
