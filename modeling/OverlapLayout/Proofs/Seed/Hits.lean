import Mathlib
import OverlapLayout.Seed.HitTable
import OverlapLayout.Proofs.Memory
import OverlapLayout.Proofs.Success
import OverlapLayout.Proofs.Seed.Packing
/-!
  What the operations of a hit table change.

  A table reaches the row of a subject through `rowBySubject` and keeps its hits there packed
  into words; it answers through the unpacked rows (`row`), the codes registered at query
  positions (`queryCode?`), its weights and its counters. Registering a code and counting leave
  the rows alone, adding a hit leaves the codes alone; the lemmas here say what does change, so
  that proofs about searches never unfold the table.

  * `Linked`: the rows are linked to the subjects one to one: each subject's row is in range
    and holds a hit, no two subjects share a row, and every row is a subject's. The empty table
    and every table `withCapacity` gives are linked.
  * `added`: the table after a hit is added, with the rows grown as `addHit` grows them. A
    successful `addHit` gives it whatever the allocator (`addHit_eq_ok`), and an allocator that
    serves every request fails no `addHit` while the rows are far from the largest collection
    (`addHit_of_serves`).
  * `entries_added`, `row_added`, `Linked.added`: in a linked table, adding a hit appends its
    word to the row of its subject and to no other, and the table stays linked.
  * `mem_subjects`: the subjects of a linked table are those with hits, in increasing order
    (`subjects_sorted`).
  * `informativeCodes_eq_card`: the number of registered codes is that of the positions with
    a code.
  * `RowsBelow`: a bound on the rows and on each subject's row, which a hit raises by one at
    most; below `2 ^ 57` an allocator that serves every request lets a hit be added
    (`addHit_of_rowsBelow`).
  * `mem_hits`: the weighted hits of a subject are its hits, with the k-mer length given.
-/

namespace OverlapLayout

namespace HitTable

variable {alloc : Allocator} {t t' : HitTable}

@[simp] theorem entries_empty (s : Nat) : empty.entries s = #[] := rfl

@[simp] theorem row_empty (s : Nat) : empty.row s = #[] := by
  simp [row]

@[simp] theorem queryCode?_empty (p : Nat) : empty.queryCode? p = none := rfl

theorem entries_of_getElem? {s r : Nat} (h : t.rowBySubject[s]? = some r) :
    t.entries s = (t.rows.items.getD r {}).items := by
  simp [entries, h]

theorem entries_of_not_mem {s : Nat} (h : s ∉ t.rowBySubject) : t.entries s = #[] := by
  simp [entries, Std.TreeMap.getElem?_eq_none h]

/-! ## Rows linked to subjects -/

/-- The rows of a table are linked to its subjects one to one: each subject's row is in range
and holds a hit, no two subjects share a row, and every row belongs to a subject. -/
structure Linked (t : HitTable) : Prop where
  lt : ∀ s r : Nat, t.rowBySubject[s]? = some r → r < t.rows.items.size
  inj : ∀ s s' r : Nat, t.rowBySubject[s]? = some r → t.rowBySubject[s']? = some r → s = s'
  onto : ∀ r < t.rows.items.size, ∃ s : Nat, t.rowBySubject[s]? = some r
  filled : ∀ s : Nat, s ∈ t.rowBySubject → t.entries s ≠ #[]

theorem linked_empty : empty.Linked where
  lt := by simp [empty]
  inj := by simp [empty]
  onto := by simp [empty]
  filled := by simp [empty]

/-- A table with reserved room is empty: no subject and no row. -/
theorem eq_of_withCapacity {c : Nat} (h : withCapacity alloc c = .ok t) :
    t = { rows := { capacity := c } } := by
  unfold withCapacity at h
  split at h
  · exact (Except.ok.inj h).symm
  · nomatch h

theorem linked_withCapacity {c : Nat} (h : withCapacity alloc c = .ok t) : t.Linked := by
  rw [eq_of_withCapacity h]
  exact ⟨by simp, by simp, by simp, by simp⟩

/-! ## Adding a hit -/

/-- The table and the row of a subject, whatever the allocator: a new subject gets an empty
row at the end of the rows. -/
def withRow (t : HitTable) (s : Nat) : HitTable × Nat :=
  match t.rowBySubject[s]? with
  | some r => (t, r)
  | none => ({ t with rows := t.rows.pushed {},
                      rowBySubject := t.rowBySubject.insert s t.rows.items.size },
              t.rows.items.size)

/-- The table with a word pushed onto row `r`, the row grown as a push grows it. -/
def pushAt (t : HitTable) (r : Nat) (w : UInt64) : HitTable :=
  { t with
    rows := { t.rows with items := t.rows.items.setIfInBounds r ((t.rows.items.getD r {}).pushed w) }
    totalHits := t.totalHits + 1 }

/-- The table after a hit is added, with the rows grown as `addHit` grows them. -/
def added (t : HitTable) (s q p : Nat) : HitTable :=
  (t.withRow s).1.pushAt (t.withRow s).2 (Hit.pack ⟨q, p⟩)

theorem rowFor_eq_ok {s : Nat} {tr : HitTable × Nat} (h : t.rowFor alloc s = .ok tr) :
    tr = t.withRow s := by
  unfold rowFor at h
  unfold withRow
  rw [Std.TreeMap.get?_eq_getElem?] at h
  cases hs : t.rowBySubject[s]? with
  | some r =>
    rw [hs] at h
    exact (Except.ok.inj h).symm
  | none =>
    rw [hs] at h
    obtain ⟨rows, hrows, h⟩ := bind_ok h
    rw [GrowingVec.eq_pushed hrows] at h
    exact (Except.ok.inj h).symm

/-- Whatever the allocator, a hit it lets `addHit` add gives `added`. -/
theorem addHit_eq_ok {s q p : Nat} (h : t.addHit alloc s q p = .ok t') : t' = t.added s q p := by
  unfold addHit at h
  obtain ⟨tr, htr, h⟩ := bind_ok h
  rw [rowFor_eq_ok htr] at h
  obtain ⟨row, hrow, h⟩ := bind_ok h
  rw [GrowingVec.eq_pushed hrow] at h
  exact (Except.ok.inj h).symm

/-- The row a subject has once a hit of it is added: its own, or a new one after the others. -/
def rowOf (t : HitTable) (s : Nat) : Nat := (t.rowBySubject[s]?).getD t.rows.items.size

theorem withRow_eq (t : HitTable) (s : Nat) :
    t.withRow s = (if s ∈ t.rowBySubject then t else
      { t with rows := t.rows.pushed {}, rowBySubject := t.rowBySubject.insert s t.rows.items.size },
      t.rowOf s) := by
  unfold withRow rowOf
  cases hs : t.rowBySubject[s]? with
  | some r => simp [Std.TreeMap.mem_iff_isSome_getElem?, hs]
  | none => simp [Std.TreeMap.mem_iff_isSome_getElem?, hs]

/-- An allocator that serves every request lets a hit be added while the rows, and the row of
its subject, are far from the largest collection. -/
theorem addHit_of_serves (hserves : ∀ n, alloc.serves n = true) {s q p : Nat}
    (hrows : (2 * t.rows.items.size + 1) * rowBytes ≤ maxCollectionBytes 8)
    (hrow : (2 * (t.entries s).size + 1) * hitBytes ≤ maxCollectionBytes 8) :
    t.addHit alloc s q p = .ok (t.added s q p) := by
  unfold addHit rowFor added withRow pushAt
  rw [Std.TreeMap.get?_eq_getElem?]
  cases hs : t.rowBySubject[s]? with
  | some r =>
    rw [entries_of_getElem? hs] at hrow
    simp only [bind, Except.bind, pure, Except.pure, GrowingVec.push_of_serves hserves hrow]
  | none =>
    -- the new row is empty, and its first hit needs room for one word
    have hnew : (2 * (({} : GrowingVec UInt64)).items.size + 1) * hitBytes ≤ maxCollectionBytes 8 := by
      simp [hitBytes, maxCollectionBytes, Nat.pow_eq]
    simp only [bind, Except.bind, pure, Except.pure, GrowingVec.push_of_serves hserves hrows,
      GrowingVec.items_pushed, Array.getD_eq_getD_getElem?, Array.getElem?_push_size,
      Option.getD_some, GrowingVec.push_of_serves hserves hnew]

@[simp] theorem rows_size_added (t : HitTable) (s q p : Nat) :
    (t.added s q p).rows.items.size = t.rows.items.size + if s ∈ t.rowBySubject then 0 else 1 := by
  rw [added, withRow_eq]
  split <;> simp [pushAt]

theorem getElem?_rowBySubject_added (t : HitTable) (s q p s' : Nat) :
    (t.added s q p).rowBySubject[s']? = if s = s' then some (t.rowOf s) else t.rowBySubject[s']? := by
  rw [added, withRow_eq]
  by_cases hs : s ∈ t.rowBySubject
  · rw [if_pos hs]
    by_cases h : s = s'
    · subst h
      obtain ⟨r, hr⟩ := Option.isSome_iff_exists.mp (Std.TreeMap.mem_iff_isSome_getElem?.mp hs)
      simp [pushAt, rowOf, hr]
    · simp [pushAt, h]
  · rw [if_neg hs]
    have hnone : t.rowBySubject[s]? = none := Std.TreeMap.getElem?_eq_none hs
    by_cases h : s = s'
    · subst h
      simp [pushAt, rowOf, hnone]
    · simp [pushAt, Std.TreeMap.getElem?_insert, h]

theorem mem_rowBySubject_added (t : HitTable) (s q p s' : Nat) :
    s' ∈ (t.added s q p).rowBySubject ↔ s = s' ∨ s' ∈ t.rowBySubject := by
  rw [Std.TreeMap.mem_iff_isSome_getElem?, Std.TreeMap.mem_iff_isSome_getElem?,
    getElem?_rowBySubject_added]
  by_cases h : s = s' <;> simp [h]

/-- The rows after a hit is added: the row of its subject grows by its word, the others stay. -/
theorem getD_rows_added (hl : t.Linked) (s q p r : Nat) :
    (t.added s q p).rows.items.getD r {} =
      if r = t.rowOf s then (t.rows.items.getD r {}).pushed (Hit.pack ⟨q, p⟩)
      else t.rows.items.getD r {} := by
  rw [added, withRow_eq]
  by_cases hs : s ∈ t.rowBySubject
  · obtain ⟨r₀, hr₀⟩ := Option.isSome_iff_exists.mp (Std.TreeMap.mem_iff_isSome_getElem?.mp hs)
    have hlt := hl.lt s r₀ hr₀
    have hrow : t.rowOf s = r₀ := by simp [rowOf, hr₀]
    rw [if_pos hs, hrow]
    by_cases h : r = r₀
    · subst h
      simp [pushAt, Array.getD_eq_getD_getElem?, hlt]
    · simp [pushAt, Array.getD_eq_getD_getElem?, Ne.symm h, h]
  · -- a new subject: its row is the one pushed after the others
    have hrow : t.rowOf s = t.rows.items.size := by
      simp [rowOf, Std.TreeMap.getElem?_eq_none hs]
    rw [if_neg hs, hrow]
    by_cases h : r = t.rows.items.size
    · subst h
      simp [pushAt, Array.getD_eq_getD_getElem?]
    · simp only [pushAt, Array.getD_eq_getD_getElem?, Array.getElem?_setIfInBounds, Ne.symm h,
        if_false, h, GrowingVec.items_pushed, Array.getElem?_push]

/-- In a linked table a hit's word goes to the end of its subject's row, and every other row
stays as it was. -/
theorem entries_added (hl : t.Linked) (s q p s' : Nat) :
    (t.added s q p).entries s' =
      if s = s' then (t.entries s').push (Hit.pack ⟨q, p⟩) else t.entries s' := by
  by_cases h : s = s'
  · subst h
    rw [if_pos rfl, entries_of_getElem? (by rw [getElem?_rowBySubject_added, if_pos rfl]),
      getD_rows_added hl, if_pos rfl, GrowingVec.items_pushed]
    cases hs : t.rowBySubject[s]? with
    | some r => simp [rowOf, hs, entries_of_getElem? hs]
    | none =>
      have hn : s ∉ t.rowBySubject := by simp [Std.TreeMap.mem_iff_isSome_getElem?, hs]
      simp [rowOf, hs, entries_of_not_mem hn, Array.getD_eq_getD_getElem?]
  · rw [if_neg h]
    cases hs' : t.rowBySubject[s']? with
    | none =>
      have hn' : s' ∉ t.rowBySubject := fun h' => by
        simpa [hs'] using Std.TreeMap.mem_iff_isSome_getElem?.mp h'
      have hn : s' ∉ (t.added s q p).rowBySubject := by
        rw [mem_rowBySubject_added]
        rintro (h' | h')
        · exact h h'
        · exact hn' h'
      rw [entries_of_not_mem hn, entries_of_not_mem hn']
    | some r' =>
      -- another subject has another row, which the push leaves
      have hne : r' ≠ t.rowOf s := by
        intro hr
        cases hs : t.rowBySubject[s]? with
        | some r => exact h (hl.inj s s' r hs (by rw [hs', hr, rowOf, hs]; rfl))
        | none =>
          have := hl.lt s' r' hs'
          simp [rowOf, hs] at hr
          omega
      rw [entries_of_getElem? (by rw [getElem?_rowBySubject_added, if_neg h, hs']),
        getD_rows_added hl, if_neg hne, entries_of_getElem? hs']

/-- The row of a subject is its own when it has one, and otherwise one past the others. -/
theorem rowOf_lt_or_eq (hl : t.Linked) (s : Nat) :
    (s ∈ t.rowBySubject ∧ t.rowBySubject[s]? = some (t.rowOf s) ∧ t.rowOf s < t.rows.items.size) ∨
      (s ∉ t.rowBySubject ∧ t.rowOf s = t.rows.items.size) := by
  cases hs : t.rowBySubject[s]? with
  | some r =>
    have hmem : s ∈ t.rowBySubject := by simp [Std.TreeMap.mem_iff_isSome_getElem?, hs]
    exact .inl ⟨hmem, by simp [rowOf, hs], by simpa [rowOf, hs] using hl.lt s r hs⟩
  | none =>
    have hmem : s ∉ t.rowBySubject := by simp [Std.TreeMap.mem_iff_isSome_getElem?, hs]
    exact .inr ⟨hmem, by simp [rowOf, hs]⟩

/-- Adding a hit keeps the rows linked to the subjects: a new subject takes the new row. -/
theorem Linked.added (hl : t.Linked) (s q p : Nat) : (t.added s q p).Linked where
  lt s' r hr := by
    rw [getElem?_rowBySubject_added] at hr
    rw [rows_size_added]
    split at hr
    · cases hr
      rcases rowOf_lt_or_eq hl s with ⟨-, -, hlt⟩ | ⟨hn, heq⟩
      · omega
      · simp [hn, heq]
    · have := hl.lt s' r hr
      omega
  inj s₁ s₂ r h₁ h₂ := by
    rw [getElem?_rowBySubject_added] at h₁ h₂
    -- a subject other than `s` keeps its row, which is not the row of `s`
    have hother : ∀ s', s ≠ s' → t.rowBySubject[s']? = some (t.rowOf s) → False := by
      intro s' hne hs'
      rcases rowOf_lt_or_eq hl s with ⟨-, hs, -⟩ | ⟨-, heq⟩
      · exact hne (hl.inj s s' _ hs hs')
      · have := hl.lt s' _ hs'
        omega
    split at h₁ <;> split at h₂
    · next e₁ e₂ => exact e₁ ▸ e₂
    · next e₁ e₂ =>
      cases h₁
      exact absurd h₂ fun h => hother s₂ e₂ h
    · next e₁ e₂ =>
      cases h₂
      exact absurd h₁ fun h => hother s₁ e₁ h
    · exact hl.inj s₁ s₂ r h₁ h₂
  onto r hr := by
    rw [rows_size_added] at hr
    by_cases hlt : r < t.rows.items.size
    · obtain ⟨s₀, hs₀⟩ := hl.onto r hlt
      by_cases h : s = s₀
      · subst h
        refine ⟨s, ?_⟩
        rw [getElem?_rowBySubject_added, if_pos rfl, ← hs₀]
        simp [rowOf, hs₀]
      · exact ⟨s₀, by rw [getElem?_rowBySubject_added, if_neg h, hs₀]⟩
    · -- the row past the others is the new row of `s`
      refine ⟨s, ?_⟩
      rw [getElem?_rowBySubject_added, if_pos rfl]
      rcases rowOf_lt_or_eq hl s with ⟨hm, -, -⟩ | ⟨hn, heq⟩
      · simp [hm] at hr
        omega
      · simp [hn] at hr
        rw [heq]
        congr 1
        omega
  filled s' hs' := by
    rw [entries_added hl]
    split
    · exact Array.push_ne_empty
    · next h =>
      rw [mem_rowBySubject_added] at hs'
      exact hl.filled s' (hs'.resolve_left h)

/-- In a linked table a hit goes to the end of its subject's row, its positions taken as 32-bit
words. -/
theorem row_added (hl : t.Linked) (s q p s' : Nat) :
    (t.added s q p).row s' =
      if s = s' then (t.row s').push ⟨q % 2 ^ 32, p % 2 ^ 32⟩ else t.row s' := by
  rw [row, entries_added hl]
  split <;> simp [row, Hit.unpack_pack_mod]

/-- Adding a hit changes only the rows and the number of hits. -/
@[simp] theorem added_frame (t : HitTable) (s q p : Nat) :
    (t.added s q p).queryCodes = t.queryCodes ∧ (t.added s q p).codeWeights = t.codeWeights ∧
      (t.added s q p).notFound = t.notFound ∧ (t.added s q p).multihit = t.multihit ∧
      (t.added s q p).repetitive = t.repetitive ∧ (t.added s q p).totalHits = t.totalHits + 1 := by
  rw [added, withRow_eq]
  split <;> simp [pushAt]

/-! ## Codes and counters -/

@[simp] theorem queryCode?_registerCode (p : Nat) (c : UInt64) (p' : Nat) :
    (t.registerCode p c).queryCode? p' = if p = p' then some c else t.queryCode? p' := by
  simp [queryCode?, registerCode, Std.TreeMap.getElem?_insert]

/-- The number of registered codes is the number of positions with a code. -/
theorem informativeCodes_eq_card {S : Finset Nat} (h : ∀ p, (t.queryCode? p).isSome ↔ p ∈ S) :
    t.informativeCodes = S.card := by
  rw [informativeCodes, ← Std.TreeMap.length_keys,
    ← List.toFinset_card_of_nodup Std.TreeMap.nodup_keys]
  congr 1
  ext p
  rw [List.mem_toFinset, Std.TreeMap.mem_keys, Std.TreeMap.mem_iff_isSome_getElem?, ← h p]
  simp [queryCode?]

theorem entries_of_rows (hs : t'.rowBySubject = t.rowBySubject) (hr : t'.rows = t.rows) (s : Nat) :
    t'.entries s = t.entries s := by
  simp [entries, hs, hr]

theorem row_of_rows (hs : t'.rowBySubject = t.rowBySubject) (hr : t'.rows = t.rows) (s : Nat) :
    t'.row s = t.row s := by
  rw [row, row, entries_of_rows hs hr]

/-- The operations on codes, weights and counters leave the rows as they are. -/
theorem Linked.of_rows (hl : t.Linked) (hs : t'.rowBySubject = t.rowBySubject)
    (hr : t'.rows = t.rows) : t'.Linked :=
  ⟨hs ▸ hr ▸ hl.lt, hs ▸ hl.inj, hs ▸ hr ▸ hl.onto,
    fun s h => entries_of_rows hs hr s ▸ hl.filled s (hs ▸ h)⟩

theorem Linked.registerCode (hl : t.Linked) (p : Nat) (c : UInt64) : (t.registerCode p c).Linked :=
  hl.of_rows rfl rfl

@[simp] theorem row_registerCode (p : Nat) (c : UInt64) (s : Nat) : (t.registerCode p c).row s = t.row s :=
  row_of_rows rfl rfl s

/-! ## Room -/

/-- The rows of a table number at most `n`, and so do the hits of every subject. -/
def RowsBelow (n : Nat) (t : HitTable) : Prop :=
  t.rows.items.size ≤ n ∧ ∀ s, (t.entries s).size ≤ n

theorem rowsBelow_empty : empty.RowsBelow 0 := ⟨Nat.le_refl 0, fun _ => Nat.le_refl 0⟩

theorem RowsBelow.mono {n n' : Nat} (h : t.RowsBelow n) (hn : n ≤ n') : t.RowsBelow n' :=
  ⟨Nat.le_trans h.1 hn, fun s => Nat.le_trans (h.2 s) hn⟩

theorem RowsBelow.of_rows {n : Nat} (h : t.RowsBelow n) (hs : t'.rowBySubject = t.rowBySubject)
    (hr : t'.rows = t.rows) : t'.RowsBelow n :=
  ⟨hr ▸ h.1, fun s => entries_of_rows hs hr s ▸ h.2 s⟩

theorem RowsBelow.registerCode {n : Nat} (h : t.RowsBelow n) (p : Nat) (c : UInt64) :
    (t.registerCode p c).RowsBelow n :=
  h.of_rows rfl rfl

/-- A hit adds at most one row, and one hit to one subject's row. -/
theorem RowsBelow.added {n : Nat} (hl : t.Linked) (h : t.RowsBelow n) (s q p : Nat) :
    (t.added s q p).RowsBelow (n + 1) := by
  have hrows := h.1
  refine ⟨by rw [rows_size_added]; split <;> omega, fun s' => ?_⟩
  rw [entries_added hl]
  split
  · rw [Array.size_push]
    exact Nat.succ_le_succ (h.2 s')
  · exact Nat.le_succ_of_le (h.2 s')

/-- An allocator that serves every request lets a hit be added to rows below `2 ^ 57`. -/
theorem addHit_of_rowsBelow (hserves : ∀ n, alloc.serves n = true) {n : Nat} (h : t.RowsBelow n)
    (hn : n < 2 ^ 57) (s q p : Nat) : t.addHit alloc s q p = .ok (t.added s q p) := by
  -- both the rows and the subject's row are far from the largest collection
  refine addHit_of_serves hserves ?_ ?_
  · have := h.1
    simp only [rowBytes, maxCollectionBytes, Nat.pow_eq]
    omega
  · have := h.2 s
    simp only [hitBytes, maxCollectionBytes, Nat.pow_eq]
    omega

/-! ## Subjects -/

/-- The subjects of a linked table are those with a hit. -/
theorem mem_subjects (hl : t.Linked) (s : Nat) : s ∈ t.subjects ↔ t.row s ≠ #[] := by
  rw [subjects, Std.TreeMap.mem_keys, row, ne_eq, Array.map_eq_empty_iff]
  refine ⟨hl.filled s, fun hrow => Classical.byContradiction fun hs => hrow ?_⟩
  exact entries_of_not_mem hs

/-- A subject with a hit is a subject of the table, whether or not its rows are linked. -/
theorem mem_subjects_of_hitCount_pos {s : Nat} (h : 0 < t.hitCount s) : s ∈ t.subjects := by
  rw [subjects, Std.TreeMap.mem_keys]
  refine Classical.byContradiction fun hs => ?_
  simp [hitCount, entries_of_not_mem hs] at h

theorem subjects_sorted (t : HitTable) : t.subjects.Pairwise (· < ·) :=
  t.rowBySubject.ordered_keys.imp Nat.compare_eq_lt.mp

/-! ## Weighted hits -/

/-- Every hit of the table ends, after its k-mer of length `k`, at a 32-bit position. -/
def Fits (k : Nat) (t : HitTable) : Prop := ∀ s, ∀ h ∈ t.row s, h.query + k < 2 ^ 32

theorem fits_empty (k : Nat) : empty.Fits k := fun _ _ h => by simp at h

/-- A weighted hit of a subject is one of its hits, with the k-mer length asked for. -/
theorem mem_hits {s k : Nat} {h : WeightedHit} (hh : h ∈ t.hits s k) :
    h.subjectId = s ∧ h.length = k ∧ ∃ x ∈ t.row s, x.query = h.query ∧ x.subject = h.subject := by
  obtain ⟨x, hx, hmap⟩ := Array.mem_filterMap.mp hh
  obtain ⟨_, -, rfl⟩ := Option.map_eq_some_iff.mp hmap
  exact ⟨rfl, rfl, x, hx, rfl, rfl⟩

theorem size_row (s : Nat) : (t.row s).size = t.hitCount s := by
  simp [row, hitCount]

/-- A subject has no more weighted hits than hits. -/
theorem size_hits_le (s k : Nat) : (t.hits s k).size ≤ t.hitCount s :=
  Array.size_filterMap_le.trans (size_row s).le

/-! ## A sample table -/

/-- Two hits against subject 0, at its positions 40 and 41, of the query k-mers at positions 0
and 1, whose codes are registered. -/
def sampleTable : HitTable :=
  (((empty.registerCode 0 7).registerCode 1 9).added 0 0 40).added 0 1 41

theorem row_sampleTable (s : Nat) :
    sampleTable.row s = if s = 0 then #[⟨0, 40⟩, ⟨1, 41⟩] else #[] := by
  have hl : ((empty.registerCode 0 7).registerCode 1 9).Linked :=
    (linked_empty.registerCode 0 7).registerCode 1 9
  rw [sampleTable, row_added (hl.added 0 0 40), row_added hl]
  by_cases h : s = 0 <;> simp [h, eq_comm]

theorem fits_sampleTable {k : Nat} (hk : k + 1 < 2 ^ 32) : sampleTable.Fits k := by
  intro s h hh
  rw [row_sampleTable] at hh
  split at hh
  · simp only [List.mem_toArray, List.mem_cons, List.not_mem_nil, or_false] at hh
    rcases hh with rfl | rfl <;> simp <;> omega
  · nomatch hh

theorem hitCount_sampleTable_le (s : Nat) : sampleTable.hitCount s ≤ 2 := by
  rw [← size_row, row_sampleTable]
  split <;> simp

end HitTable

end OverlapLayout
