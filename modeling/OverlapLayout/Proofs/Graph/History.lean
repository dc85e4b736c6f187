import Mathlib
import OverlapLayout.Proofs.Assembly.Built
/-!
  The relationships of a graph, read off the calls that built it.

  A graph built from `new` by adding and removing relationships holds, between two vertices of
  different sequences, the first edge at least as good as every other edge added between them
  since the edge between them was last removed; and under each sequence, in call order, the first
  record of each placement added since the placement was last removed. A relationship naming an
  unknown sequence or a sequence and itself is refused, removing twice is removing once, and
  identity edges are never removed.

  * `Update`, `AssemblyGraph.update`: the calls and the graph they build.
  * `Edge.AtLeastAsGood`, `firstBest`, `edgeCandidates`: the edge the history selects;
    `Inv.liveEdge_apply` and `firstBest_append_singleton` move both sides by one call.
  * `FirstOfPlacement`, `RecordsOf`: the records the history keeps; `Inv.containmentsOf_apply`
    and `RecordsOf.append_singleton` move both sides by one call.
  * `Relationships`, `update_relationships`: all of it, for every list of calls.
-/

namespace OverlapLayout

/-- The relationship relates two different known sequences of a graph of `n` sequences. -/
def Relationship.Valid (n : Nat) (r : Relationship) : Prop :=
  r.sequences.1 < n ∧ r.sequences.2 < n ∧ r.sequences.1 ≠ r.sequences.2

instance (n : Nat) (r : Relationship) : Decidable (r.Valid n) :=
  inferInstanceAs (Decidable (_ ∧ _ ∧ _))

/-- The edge joins `u` and `v`, in either order. -/
def Edge.Joins (e : Edge) (u v : Vertex) : Prop := (e.v1 = u ∧ e.v2 = v) ∨ (e.v1 = v ∧ e.v2 = u)

instance (e : Edge) (u v : Vertex) : Decidable (e.Joins u v) := inferInstanceAs (Decidable (_ ∨ _))

theorem Edge.joins_iff_key {e : Edge} {u v : Vertex} :
    e.Joins u v ↔ e.key = ({ v1 := u, v2 := v } : Edge).key :=
  (Edge.key_eq_key (e := e) (f := { v1 := u, v2 := v })).symm

/-- An identity edge joins the two ends of one sequence, never vertices of two. -/
theorem Edge.not_joins_of_isIdentity {e : Edge} (he : e.isIdentity = true) {u v : Vertex}
    (huv : u.sequence ≠ v.sequence) : ¬ e.Joins u v := by
  simp only [Edge.isIdentity, beq_iff_eq] at he
  rintro (⟨rfl, rfl⟩ | ⟨rfl, rfl⟩)
  · exact huv he
  · exact huv he.symm

/-- Edge `e` is at least as good as edge `f`: cheaper, or as cheap and scoring at least as high.
This is `(cost, -score)` compared lexicographically. -/
def Edge.AtLeastAsGood (e f : Edge) : Prop := e.cost < f.cost ∨ (e.cost = f.cost ∧ f.score ≤ e.score)

instance (e f : Edge) : Decidable (e.AtLeastAsGood f) := inferInstanceAs (Decidable (_ ∨ _))

namespace Edge.AtLeastAsGood

theorem refl (e : Edge) : e.AtLeastAsGood e := .inr ⟨rfl, Nat.le_refl _⟩

theorem trans {e f h : Edge} (h₁ : e.AtLeastAsGood f) (h₂ : f.AtLeastAsGood h) : e.AtLeastAsGood h := by
  unfold Edge.AtLeastAsGood at *
  omega

theorem of_not {e f : Edge} (h : ¬ e.AtLeastAsGood f) : f.AtLeastAsGood e := by
  unfold Edge.AtLeastAsGood at *
  omega

end Edge.AtLeastAsGood

/-- The edge that stays when `f` arrives where `o?` is: the old one when at least as good. -/
def Edge.keepBest (o? : Option Edge) (f : Edge) : Option Edge :=
  match o? with
  | some o => if o.AtLeastAsGood f then some o else some f
  | none => some f

/-- The first edge of a list at least as good as every edge of it. -/
def firstBest (l : List Edge) : Option Edge :=
  l.find? fun e => l.all fun f => decide (e.AtLeastAsGood f)

theorem all_atLeastAsGood_iff {l : List Edge} {e : Edge} :
    (l.all fun f => decide (e.AtLeastAsGood f)) = true ↔ ∀ f ∈ l, e.AtLeastAsGood f := by
  simp

/-- Every nonempty list has an edge at least as good as all of it. -/
theorem exists_best : ∀ {l : List Edge}, l ≠ [] → ∃ b ∈ l, ∀ f ∈ l, b.AtLeastAsGood f
  | [], h => absurd rfl h
  | [x], _ => ⟨x, by simp [Edge.AtLeastAsGood.refl]⟩
  | x :: y :: l, _ => by
    obtain ⟨b, hb, hbest⟩ := exists_best (l := y :: l) (List.cons_ne_nil _ _)
    by_cases hx : x.AtLeastAsGood b
    · refine ⟨x, List.mem_cons_self, fun f hf => ?_⟩
      rcases List.mem_cons.1 hf with rfl | hf
      · exact .refl _
      · exact hx.trans (hbest f hf)
    · refine ⟨b, List.mem_cons_of_mem _ hb, fun f hf => ?_⟩
      rcases List.mem_cons.1 hf with rfl | hf
      · exact .of_not hx
      · exact hbest f hf

/-- One more candidate: the first best so far stays when at least as good, the newcomer wins
otherwise. -/
theorem firstBest_append_singleton (l : List Edge) (f : Edge) :
    firstBest (l ++ [f]) = Edge.keepBest (firstBest l) f := by
  unfold firstBest
  cases hb : l.find? (fun e => l.all fun f => decide (e.AtLeastAsGood f)) with
  | none =>
    -- a nonempty list has a best edge, so only the empty list has none
    have hl : l = [] := by
      by_contra hne
      obtain ⟨b, hb', hbest⟩ := exists_best hne
      exact List.find?_eq_none.1 hb b hb' (all_atLeastAsGood_iff.2 hbest)
    subst hl
    simp [Edge.keepBest, Edge.AtLeastAsGood.refl]
  | some b =>
    obtain ⟨hpb, as, bs, rfl, hbefore⟩ := List.find?_eq_some_iff_append.1 hb
    rw [all_atLeastAsGood_iff] at hpb
    by_cases hbf : b.AtLeastAsGood f
    · simp only [Edge.keepBest, if_pos hbf]
      rw [List.find?_eq_some_iff_append]
      refine ⟨?_, as, bs ++ [f], by simp, fun a ha => ?_⟩
      · rw [all_atLeastAsGood_iff]
        intro x hx
        rcases List.mem_append.1 hx with hx | hx
        · exact hpb x hx
        · rw [List.mem_singleton.1 hx]; exact hbf
      · -- an edge not best of the list is not best of the longer list either
        have ha' := hbefore a ha
        simp only [Bool.not_eq_true', List.all_eq_false] at ha' ⊢
        obtain ⟨x, hx, hnx⟩ := ha'
        exact ⟨x, List.mem_append_left _ hx, hnx⟩
    · simp only [Edge.keepBest, if_neg hbf]
      rw [List.find?_eq_some_iff_append]
      have hfb := Edge.AtLeastAsGood.of_not hbf
      refine ⟨?_, as ++ b :: bs, [], by simp, fun a ha => ?_⟩
      · rw [all_atLeastAsGood_iff]
        intro x hx
        rcases List.mem_append.1 hx with hx | hx
        · exact hfb.trans (hpb x hx)
        · rw [List.mem_singleton.1 hx]; exact .refl f
      · -- an edge at least as good as `f` would make `b` at least as good as `f`
        simp only [Bool.not_eq_true', List.all_eq_false, decide_eq_true_eq]
        exact ⟨f, by simp, fun haf => hbf ((hpb a ha).trans haf)⟩

/-- The placement of a record: its sequence, host, start in the host and strand. -/
def Containment.placement (c : Containment) : Nat × Nat × Nat × Bool :=
  (c.sequence, c.host, c.hostStart, c.reverse)

theorem Containment.samePlacement_iff {a b : Containment} :
    a.samePlacement b = true ↔ a.placement = b.placement := by
  simp [Containment.samePlacement, Containment.placement, and_assoc]

namespace AssemblyGraph

/-! ## Calls -/

/-- A call that changes the relationships of a graph. -/
inductive Update where
  /-- `addRelationship`. -/
  | add (r : Relationship)
  /-- `removeRelationship`. -/
  | remove (r : Relationship)

/-- Makes one call on a graph. -/
def apply (g : AssemblyGraph) : Update → Bool × AssemblyGraph
  | .add r => g.addRelationship r
  | .remove r => g.removeRelationship r

/-- The graph after the calls, in order. -/
def update (g : AssemblyGraph) (calls : List Update) : AssemblyGraph :=
  calls.foldl (fun g u => (g.apply u).2) g

theorem update_nil (g : AssemblyGraph) : g.update [] = g := rfl

theorem update_append_singleton (g : AssemblyGraph) (calls : List Update) (u : Update) :
    g.update (calls ++ [u]) = ((g.update calls).apply u).2 := by
  simp [update]

variable {g : AssemblyGraph}

theorem Inv.apply (hi : g.Inv) (u : Update) : (g.apply u).2.Inv := by
  cases u with
  | add r => exact hi.addRelationship r
  | remove r => exact hi.removeRelationship r

@[simp] theorem size_apply (u : Update) : (g.apply u).2.size = g.size := by
  cases u with
  | add r => simp [apply, size, lengths_addRelationship]
  | remove r => simp [apply, size, (shrinks_removeRelationship g r).lengths]

/-- A relationship naming an unknown sequence, or relating a sequence to itself, is refused and
changes nothing. -/
theorem addRelationship_of_not_valid {r : Relationship} (h : ¬ r.Valid g.size) :
    g.addRelationship r = (false, g) := by
  have hbad : (!g.contains r.sequences.1 || !g.contains r.sequences.2 ||
      r.sequences.1 == r.sequences.2) = true := by
    simp only [Relationship.Valid] at h
    simp only [contains, Bool.or_eq_true, Bool.not_eq_true', decide_eq_false_iff_not, beq_iff_eq]
    omega
  cases r <;> simp_all [addRelationship, Relationship.sequences]

/-! ## The edge under a key -/

/-- The live edge stored under key `k`. -/
def liveAt (g : AssemblyGraph) (k : Nat × Nat) : Option Edge := g.index[k]?.bind g.edge?

/-- The live edge between two vertices. -/
def liveEdge (g : AssemblyGraph) (u v : Vertex) : Option Edge := (g.findEdge? u v).bind g.edge?

theorem liveEdge_eq (u v : Vertex) :
    g.liveEdge u v = g.liveAt ({ v1 := u, v2 := v } : Edge).key := by
  simp [liveEdge, liveAt, findEdge?_eq]

section arena

variable {m : Nat} (ha : g.Arena m)
include ha

theorem Arena.liveAt_eq_some {k : Nat × Nat} {e : Edge} :
    g.liveAt k = some e ↔ ∃ id, g.edge? id = some e ∧ e.key = k := by
  simp only [liveAt, Option.bind_eq_some_iff]
  constructor
  · rintro ⟨id, hid, he⟩
    obtain ⟨f, hf, hk⟩ := (ha.index k id).1 hid
    rw [hf] at he
    cases he
    exact ⟨id, hf, hk⟩
  · rintro ⟨id, he, hk⟩
    exact ⟨id, (ha.index k id).2 ⟨e, he, hk⟩, he⟩

/-- Storing an edge makes it the edge under its key. -/
theorem Arena.liveAt_insertEdge (f : Edge) (k : Nat × Nat) :
    (g.insertEdge f).liveAt k = if f.key = k then some f else g.liveAt k := by
  simp only [liveAt, insertEdge_index, Std.HashMap.getElem?_insert, beq_iff_eq]
  split
  · simp
  · cases hk : g.index[k]? with
    | none => rfl
    | some j =>
      obtain ⟨e, he, -⟩ := (ha.index k j).1 hk
      have hj : j ≠ g.edges.size := Nat.ne_of_lt (lt_of_edge? he)
      simp [edge?_insertEdge, hj]

/-- Removing a live edge leaves no edge under its key, and the others where they were. -/
theorem Arena.liveAt_removeEdge {id : Nat} {o : Edge} (ho : g.edge? id = some o) (k : Nat × Nat) :
    (g.removeEdge id).2.liveAt k = if o.key = k then none else g.liveAt k := by
  simp only [liveAt, removeEdge_index ho, Std.HashMap.getElem?_erase, beq_iff_eq]
  split
  · rfl
  · next hne =>
    cases hk : g.index[k]? with
    | none => rfl
    | some j =>
      obtain ⟨e, he, hek⟩ := (ha.index k j).1 hk
      have hj : j ≠ id := by
        rintro rfl
        rw [ho] at he
        cases he
        exact hne hek
      simp [edge?_removeEdge ho, hj]

end arena

/-- Adding an edge between two different known sequences keeps the edge already under its key
when that one is at least as good, and stores the new one otherwise. -/
theorem Inv.liveAt_addEdge (hi : g.Inv) {f : Edge} (hv : (Relationship.edge f).Valid g.size)
    (k : Nat × Nat) :
    (g.addRelationship (.edge f)).2.liveAt k =
      if f.key = k then Edge.keepBest (g.liveAt f.key) f else g.liveAt k := by
  obtain ⟨h1, h2, hne⟩ := hv
  simp only [Relationship.sequences] at h1 h2 hne
  have hok : (!g.contains f.v1.sequence || !g.contains f.v2.sequence ||
      f.v1.sequence == f.v2.sequence) = false := by
    simp [contains, h1, h2, hne]
  have hk : ({ v1 := f.v1, v2 := f.v2 } : Edge).key = f.key := rfl
  simp only [AssemblyGraph.addRelationship, Relationship.sequences, hok, Bool.false_eq_true,
    ↓reduceIte]
  split
  next old hfind =>
    rw [findEdge?_eq, hk] at hfind
    obtain ⟨o, ho, hkey⟩ := (hi.arena.index _ old).1 hfind
    have hlive : g.liveAt f.key = some o := (hi.arena.liveAt_eq_some).2 ⟨old, ho, hkey⟩
    -- the stored edge joins the same two vertices, so it is an overlap edge too
    have hold : g.size ≤ old :=
      hi.size_le_id ho ((Edge.isIdentity_eq_of_key_eq hkey).trans (by simp [Edge.isIdentity, hne]))
    simp only [ho, hlive, Edge.keepBest]
    by_cases hgood : o.AtLeastAsGood f
    · have hkeep : (o.cost < f.cost || o.cost == f.cost && f.score ≤ o.score) = true := by
        simpa [Edge.AtLeastAsGood] using hgood
      simp only [hkeep, ↓reduceIte, if_pos hgood]
      split
      · next hfk => rw [← hfk, hlive]
      · rfl
    · have hkeep : (o.cost < f.cost || o.cost == f.cost && f.score ≤ o.score) = false := by
        simpa [Edge.AtLeastAsGood] using hgood
      simp only [hkeep, Bool.false_eq_true, ↓reduceIte, if_neg hgood]
      rw [(hi.removeEdge hold).arena.liveAt_insertEdge, hi.arena.liveAt_removeEdge ho, hkey]
      split <;> rfl
  next hfind =>
    rw [findEdge?_eq, hk] at hfind
    have hlive : g.liveAt f.key = none := by simp [liveAt, hfind]
    rw [hi.arena.liveAt_insertEdge, hlive, Edge.keepBest]

/-- Removing an overlap edge leaves no edge under its key, and the others where they were. -/
theorem Inv.liveAt_removeEdgeCall (hi : g.Inv) {f : Edge} (hf : f.isIdentity = false)
    (k : Nat × Nat) :
    (g.removeRelationship (.edge f)).2.liveAt k = if f.key = k then none else g.liveAt k := by
  have hk : ({ v1 := f.v1, v2 := f.v2 } : Edge).key = f.key := rfl
  simp only [AssemblyGraph.removeRelationship, hf, Bool.false_eq_true, ↓reduceIte]
  split
  next id hfind =>
    rw [findEdge?_eq, hk] at hfind
    obtain ⟨o, ho, hkey⟩ := (hi.arena.index _ id).1 hfind
    rw [hi.arena.liveAt_removeEdge ho, hkey]
  next hfind =>
    rw [findEdge?_eq, hk] at hfind
    split
    · next hfk => simp [liveAt, ← hfk, hfind]
    · rfl

/-- A containment call leaves every edge where it was. -/
theorem liveAt_addContained (c : Containment) (k : Nat × Nat) :
    (g.addRelationship (.contained c)).2.liveAt k = g.liveAt k := by
  unfold AssemblyGraph.addRelationship
  dsimp only [Relationship.sequences]
  split
  · rfl
  · split <;> rfl

/-! ## The edge between two vertices, over a history -/

/-- The call removes the edge between `u` and `v`. -/
def Update.removesEdge (u v : Vertex) : Update → Bool
  | .remove (.edge e) => decide (e.Joins u v)
  | _ => false

/-- The edge the call adds between `u` and `v`, when it relates two different known sequences of
a graph of `n` sequences. -/
def Update.edgeAdded (n : Nat) (u v : Vertex) : Update → Option Edge
  | .add (.edge e) => if e.Joins u v ∧ (Relationship.edge e).Valid n then some e else none
  | _ => none

/-- The edges added between `u` and `v` since the last call that removed the edge between them,
in call order. -/
def edgeCandidates (n : Nat) (calls : List Update) (u v : Vertex) : List Edge :=
  ((calls.reverse.takeWhile fun c => !c.removesEdge u v).reverse).filterMap (·.edgeAdded n u v)

theorem edgeCandidates_append_singleton (n : Nat) (calls : List Update) (c : Update) (u v : Vertex) :
    edgeCandidates n (calls ++ [c]) u v =
      if c.removesEdge u v then [] else edgeCandidates n calls u v ++ (c.edgeAdded n u v).toList := by
  unfold edgeCandidates
  by_cases h : c.removesEdge u v
  · simp [h]
  · cases hc : c.edgeAdded n u v <;> simp [h, hc]

/-- One call on the edge between two vertices of different sequences: a removal clears it, an
added edge challenges it, and any other call leaves it. -/
theorem Inv.liveEdge_apply (hi : g.Inv) {u v : Vertex} (huv : u.sequence ≠ v.sequence) (c : Update) :
    (g.apply c).2.liveEdge u v =
      if c.removesEdge u v then none
      else match c.edgeAdded g.size u v with
        | some f => Edge.keepBest (g.liveEdge u v) f
        | none => g.liveEdge u v := by
  rw [liveEdge_eq, liveEdge_eq]
  cases c with
  | add r =>
    cases r with
    | edge f =>
      simp only [AssemblyGraph.apply, Update.removesEdge, Update.edgeAdded, Bool.false_eq_true, ↓reduceIte]
      by_cases hv : (Relationship.edge f).Valid g.size
      · rw [hi.liveAt_addEdge hv]
        by_cases hj : f.Joins u v
        · simp [hj, hv, Edge.joins_iff_key.1 hj]
        · simp [hj, mt Edge.joins_iff_key.2 hj]
      · simp [addRelationship_of_not_valid hv, hv]
    | contained x => simp [AssemblyGraph.apply, Update.removesEdge, Update.edgeAdded, liveAt_addContained]
  | remove r =>
    cases r with
    | edge f =>
      simp only [AssemblyGraph.apply, Update.removesEdge, Update.edgeAdded]
      cases hid : f.isIdentity
      · rw [hi.liveAt_removeEdgeCall hid]
        by_cases hj : f.Joins u v
        · simp [hj, Edge.joins_iff_key.1 hj]
        · simp [hj, mt Edge.joins_iff_key.2 hj]
      · simp [AssemblyGraph.removeRelationship, hid, Edge.not_joins_of_isIdentity hid huv]
    | contained x =>
      simp only [AssemblyGraph.apply, Update.removesEdge, Update.edgeAdded,
        AssemblyGraph.removeRelationship]
      rfl

/-! ## The records of a sequence, over a history -/

/-- The record the call adds, when it relates two different known sequences of a graph of `n`
sequences. -/
def Update.recordAdded (n : Nat) : Update → Option Containment
  | .add (.contained c) => if (Relationship.contained c).Valid n then some c else none
  | _ => none

/-- The call removes the records of placement `p`. -/
def Update.removesPlacement (p : Nat × Nat × Nat × Bool) : Update → Bool
  | .remove (.contained c) => c.placement == p
  | _ => false

theorem Update.removesPlacement_of_recordAdded {u : Update} {n : Nat} {c : Containment}
    (h : u.recordAdded n = some c) (p : Nat × Nat × Nat × Bool) : u.removesPlacement p = false := by
  cases u with
  | add r => rfl
  | remove r => simp [recordAdded] at h

/-- The record a call appends to the list `l` of sequence `s`: the one it adds, when of sequence
`s` and of a placement not in `l` yet. -/
def Update.appended (n s : Nat) (l : List Containment) (u : Update) : List Containment :=
  match u.recordAdded n with
  | some c => if c.sequence = s ∧ ∀ x ∈ l, x.placement ≠ c.placement then [c] else []
  | none => []

/-- The list `l` of sequence `s` after the call: the records of the placement it removes dropped,
the record it adds appended. -/
def Update.records (n s : Nat) (l : List Containment) (u : Update) : List Containment :=
  l.filter (fun x => !u.removesPlacement x.placement) ++ u.appended n s l

/-- Call `j` added a record of placement `p`, and no later call removed `p`. -/
def Survives (n : Nat) (calls : List Update) (j : Nat) (p : Nat × Nat × Nat × Bool) : Prop :=
  (∃ x, calls[j]?.bind (·.recordAdded n) = some x ∧ x.placement = p) ∧
    ∀ k u, j < k → calls[k]? = some u → u.removesPlacement p = false

/-- Call `i` added `c`, the first record of its placement still there: no later call removed the
placement, and no record of it added before is still there. -/
structure FirstOfPlacement (n : Nat) (calls : List Update) (i : Nat) (c : Containment) : Prop where
  added : calls[i]?.bind (·.recordAdded n) = some c
  kept : ∀ k u, i < k → calls[k]? = some u → u.removesPlacement c.placement = false
  first : ∀ j < i, ¬ Survives n calls j c.placement

/-- List `l` holds, in call order, the first record of each placement of sequence `s` still there
after the calls. -/
def RecordsOf (n : Nat) (calls : List Update) (s : Nat) (l : List Containment) : Prop :=
  ∃ ps : List Nat, ps.Pairwise (· < ·) ∧
    (∀ i, i ∈ ps ↔ ∃ c, c.sequence = s ∧ FirstOfPlacement n calls i c) ∧
    l = ps.filterMap fun i => calls[i]?.bind (·.recordAdded n)

section history

variable {n : Nat} {calls : List Update} {u : Update}

theorem getElem?_append_singleton (k : Nat) :
    (calls ++ [u])[k]? =
      if k < calls.length then calls[k]? else if k = calls.length then some u else none := by
  rw [List.getElem?_append]
  split_ifs with h₁ h₂
  · rfl
  · simp [h₂]
  · rw [List.getElem?_eq_none (by simp; omega)]

theorem lt_length_of_added {i : Nat} {c : Containment}
    (h : calls[i]?.bind (·.recordAdded n) = some c) : i < calls.length := by
  cases hi : calls[i]? with
  | none => simp [hi] at h
  | some _ => exact (List.getElem?_eq_some_iff.1 hi).1

theorem added_append_singleton {i : Nat} (hi : i < calls.length) :
    (calls ++ [u])[i]?.bind (·.recordAdded n) = calls[i]?.bind (·.recordAdded n) := by
  rw [List.getElem?_append_left hi]

/-- A record of `p` added before the call survives it unless the call removes `p`; the call's
own record of `p` survives it. -/
theorem survives_append_singleton {j : Nat} {p : Nat × Nat × Nat × Bool} :
    Survives n (calls ++ [u]) j p ↔
      (Survives n calls j p ∧ u.removesPlacement p = false) ∨
        (j = calls.length ∧ ∃ x, u.recordAdded n = some x ∧ x.placement = p) := by
  constructor
  · rintro ⟨⟨x, hx, hxp⟩, hkept⟩
    have hj := lt_length_of_added hx
    simp only [List.length_append, List.length_singleton] at hj
    rcases Nat.lt_or_ge j calls.length with hj' | hj'
    · have hu := hkept calls.length u hj' (by simp)
      refine .inl ⟨⟨⟨x, by rwa [added_append_singleton hj'] at hx, hxp⟩, fun k v hk hv => ?_⟩, hu⟩
      have hk' := (List.getElem?_eq_some_iff.1 hv).1
      exact hkept k v hk (by rwa [List.getElem?_append_left hk'])
    · have hjl : j = calls.length := by omega
      subst hjl
      exact .inr ⟨rfl, x, by simpa using hx, hxp⟩
  · rintro (⟨⟨⟨x, hx, hxp⟩, hkept⟩, hu⟩ | ⟨rfl, x, hx, hxp⟩)
    · refine ⟨⟨x, by rwa [added_append_singleton (lt_length_of_added hx)], hxp⟩, fun k v hk hv => ?_⟩
      rw [getElem?_append_singleton] at hv
      split_ifs at hv with hk₁ hk₂
      · exact hkept k v hk hv
      · cases hv; exact hu
    · refine ⟨⟨x, by simpa using hx, hxp⟩, fun k v hk hv => ?_⟩
      rw [getElem?_append_singleton] at hv
      split_ifs at hv with hk₁ hk₂ <;> omega

/-- A record stays the first of its placement while no call removes the placement; the call's
own record becomes the first when no record of its placement survives. -/
theorem firstOfPlacement_append_singleton {i : Nat} {c : Containment} :
    FirstOfPlacement n (calls ++ [u]) i c ↔
      (FirstOfPlacement n calls i c ∧ u.removesPlacement c.placement = false) ∨
        (i = calls.length ∧ u.recordAdded n = some c ∧ ∀ j, ¬ Survives n calls j c.placement) := by
  constructor
  · rintro ⟨hadd, hkept, hfirst⟩
    have hi := lt_length_of_added hadd
    simp only [List.length_append, List.length_singleton] at hi
    rcases Nat.lt_or_ge i calls.length with hi' | hi'
    · have hu := hkept calls.length u hi' (by simp)
      refine .inl ⟨⟨by rwa [added_append_singleton hi'] at hadd, fun k v hk hv => ?_,
        fun j hj hs => hfirst j hj (survives_append_singleton.2 (.inl ⟨hs, hu⟩))⟩, hu⟩
      have hk' := (List.getElem?_eq_some_iff.1 hv).1
      exact hkept k v hk (by rwa [List.getElem?_append_left hk'])
    · have hil : i = calls.length := by omega
      subst hil
      have hu : u.recordAdded n = some c := by simpa using hadd
      refine .inr ⟨rfl, hu, fun j hs => ?_⟩
      have hj := lt_length_of_added hs.1.choose_spec.1
      exact hfirst j hj (survives_append_singleton.2
        (.inl ⟨hs, Update.removesPlacement_of_recordAdded hu _⟩))
  · rintro (⟨⟨hadd, hkept, hfirst⟩, hu⟩ | ⟨rfl, hu, hnone⟩)
    · have hi := lt_length_of_added hadd
      refine ⟨by rwa [added_append_singleton hi], fun k v hk hv => ?_, fun j hj hs => ?_⟩
      · rw [getElem?_append_singleton] at hv
        split_ifs at hv with hk₁ hk₂
        · exact hkept k v hk hv
        · cases hv; exact hu
      · rcases survives_append_singleton.1 hs with ⟨hs, -⟩ | ⟨rfl, -⟩
        · exact hfirst j hj hs
        · omega
    · refine ⟨by simpa using hu, fun k v hk hv => ?_, fun j hj hs => ?_⟩
      · rw [getElem?_append_singleton] at hv
        split_ifs at hv with hk₁ hk₂ <;> omega
      · rcases survives_append_singleton.1 hs with ⟨hs, -⟩ | ⟨rfl, -⟩
        · exact hnone j hs
        · omega

/-- A placement of sequence `s` has a record in the list exactly when some record of it added by
the calls survives them. -/
theorem RecordsOf.live {s : Nat} {l : List Containment} (h : RecordsOf n calls s l)
    {p : Nat × Nat × Nat × Bool} (hp : p.1 = s) :
    (∃ x ∈ l, x.placement = p) ↔ ∃ j, Survives n calls j p := by
  obtain ⟨ps, -, hmem, rfl⟩ := h
  constructor
  · rintro ⟨x, hx, rfl⟩
    obtain ⟨i, hi, hix⟩ := List.mem_filterMap.1 hx
    obtain ⟨c, -, hc⟩ := (hmem i).1 hi
    obtain rfl : c = x := Option.some.inj (hc.added.symm.trans hix)
    exact ⟨i, ⟨c, hc.added, rfl⟩, hc.kept⟩
  · intro hex
    classical
    -- the earliest call whose record of `p` survives added the first record of the placement
    obtain ⟨⟨x, hx, rfl⟩, hkept⟩ := Nat.find_spec hex
    have hfirst : FirstOfPlacement n calls (Nat.find hex) x :=
      ⟨hx, hkept, fun j hj => Nat.find_min hex hj⟩
    have hmem' : Nat.find hex ∈ ps := (hmem _).2 ⟨x, hp, hfirst⟩
    exact ⟨x, List.mem_filterMap.2 ⟨_, hmem', hx⟩, rfl⟩

/-- The new call's record is appended exactly when it is of sequence `s` and no record of its
placement survives the earlier calls. -/
theorem RecordsOf.appended_cases {s : Nat} {l : List Containment} (h : RecordsOf n calls s l)
    (u : Update) :
    (u.appended n s l = [] ∧
        ∀ c, c.sequence = s → u.recordAdded n = some c → ∃ j, Survives n calls j c.placement) ∨
      ∃ c, u.appended n s l = [c] ∧ c.sequence = s ∧ u.recordAdded n = some c ∧
        ∀ j, ¬ Survives n calls j c.placement := by
  cases hr : u.recordAdded n with
  | none => exact .inl ⟨by simp [Update.appended, hr], fun c _ hc => by cases hc⟩
  | some c =>
    by_cases hcond : c.sequence = s ∧ ∀ x ∈ l, x.placement ≠ c.placement
    · refine .inr ⟨c, by simp only [Update.appended, hr]; rw [if_pos hcond], hcond.1, rfl,
        fun j hs => ?_⟩
      obtain ⟨x, hx, hxp⟩ := (h.live hcond.1).2 ⟨j, hs⟩
      exact hcond.2 x hx hxp
    · refine .inl ⟨by simp [Update.appended, hr, hcond], fun c' hcs hc' => ?_⟩
      obtain rfl : c = c' := Option.some.inj hc'
      have hlive : ∃ x ∈ l, x.placement = c.placement := by
        simpa [hcs] using hcond
      exact (h.live hcs).1 hlive

/-- One call on the records of sequence `s`: the list after it is `Update.records`. -/
theorem RecordsOf.append_singleton {s : Nat} {l : List Containment} (h : RecordsOf n calls s l)
    (u : Update) : RecordsOf n (calls ++ [u]) s (u.records n s l) := by
  have hcases := h.appended_cases u
  obtain ⟨ps, hsorted, hmem, rfl⟩ := h
  have hlt : ∀ i ∈ ps, i < calls.length := fun i hi => by
    obtain ⟨c, -, hc⟩ := (hmem i).1 hi
    exact lt_length_of_added hc.added
  -- the earlier records stay exactly when the call does not remove their placement
  have hkeep : ∀ i, (i ∈ ps ∧ ((calls[i]?.bind (·.recordAdded n)).all
      fun c => !u.removesPlacement c.placement) = true) ↔
      ∃ c, c.sequence = s ∧ FirstOfPlacement n calls i c ∧ u.removesPlacement c.placement = false := by
    intro i
    constructor
    · rintro ⟨hi, hq⟩
      obtain ⟨c, hcs, hc⟩ := (hmem i).1 hi
      exact ⟨c, hcs, hc, by simpa [hc.added] using hq⟩
    · rintro ⟨c, hcs, hc, hu⟩
      exact ⟨(hmem i).2 ⟨c, hcs, hc⟩, by simp [hc.added, hu]⟩
  have hlist : (ps.filterMap fun i => calls[i]?.bind (·.recordAdded n)).filter
      (fun x => !u.removesPlacement x.placement) =
      (ps.filter fun i => (calls[i]?.bind (·.recordAdded n)).all
        fun c => !u.removesPlacement c.placement).filterMap
        fun i => (calls ++ [u])[i]?.bind (·.recordAdded n) := by
    rw [List.filter_filterMap, List.filterMap_filter]
    refine List.filterMap_congr fun i hi => ?_
    rw [added_append_singleton (hlt i hi)]
    cases calls[i]?.bind (·.recordAdded n) with
    | none => rfl
    | some c => by_cases hu : u.removesPlacement c.placement <;> simp [hu]
  rcases hcases with ⟨happ, hold⟩ | ⟨c, happ, hcs, hc, hnone⟩
  · refine ⟨_, hsorted.filter _, fun i => ?_, by rw [Update.records, happ, hlist, List.append_nil]⟩
    rw [List.mem_filter, hkeep]
    simp only [firstOfPlacement_append_singleton]
    constructor
    · rintro ⟨c, hcs, hc, hu⟩
      exact ⟨c, hcs, .inl ⟨hc, hu⟩⟩
    · rintro ⟨c, hcs, ⟨hc, hu⟩ | ⟨-, hc, hnone⟩⟩
      · exact ⟨c, hcs, hc, hu⟩
      · obtain ⟨j, hj⟩ := hold c hcs hc
        exact absurd hj (hnone j)
  · refine ⟨(ps.filter fun i => (calls[i]?.bind (·.recordAdded n)).all
      fun c => !u.removesPlacement c.placement) ++ [calls.length], ?_, fun i => ?_, ?_⟩
    · refine List.pairwise_append.2 ⟨hsorted.filter _, List.pairwise_singleton _ _, ?_⟩
      intro i hi j hj
      rw [List.mem_singleton.1 hj]
      exact hlt i (List.mem_filter.1 hi).1
    · rw [List.mem_append, List.mem_filter, hkeep, List.mem_singleton]
      simp only [firstOfPlacement_append_singleton]
      constructor
      · rintro (⟨c', hcs', hc', hu⟩ | rfl)
        · exact ⟨c', hcs', .inl ⟨hc', hu⟩⟩
        · exact ⟨c, hcs, .inr ⟨rfl, hc, hnone⟩⟩
      · rintro ⟨c', hcs', ⟨hc', hu⟩ | ⟨rfl, -, -⟩⟩
        · exact .inl ⟨c', hcs', hc', hu⟩
        · exact .inr rfl
    · rw [Update.records, happ, hlist, List.filterMap_append]
      simp [hc]

end history

/-! ## The records of a sequence, in the model -/

/-- An edge call leaves the records alone. -/
theorem bySequence_addEdge (e : Edge) : (g.addRelationship (.edge e)).2.bySequence = g.bySequence := by
  unfold AssemblyGraph.addRelationship
  dsimp only [Relationship.sequences]
  split
  · rfl
  · split
    · -- an edge between the same ends: kept, or replaced
      split_ifs
      · rfl
      · simp [bySequence_removeEdge]
    · rfl

theorem bySequence_removeEdgeCall (e : Edge) :
    (g.removeRelationship (.edge e)).2.bySequence = g.bySequence := by
  simp only [AssemblyGraph.removeRelationship]
  split
  · rfl
  · split
    · exact bySequence_removeEdge _
    · rfl

/-- One call on the records of sequence `s`: the model's list after it is `Update.records`. -/
theorem Inv.containmentsOf_apply (hi : g.Inv) (u : Update) (s : Nat) :
    ((g.apply u).2.containmentsOf s).toList = u.records g.size s (g.containmentsOf s).toList := by
  cases u with
  | add r =>
    cases r with
    | edge e =>
      simp [AssemblyGraph.apply, containmentsOf, bySequence_addEdge, Update.records,
        Update.appended, Update.recordAdded, Update.removesPlacement]
    | contained c =>
      by_cases hv : (Relationship.contained c).Valid g.size
      · have hok : (!g.contains c.sequence || !g.contains c.host || c.sequence == c.host) = false := by
          obtain ⟨h1, h2, hne⟩ := hv
          simp only [Relationship.sequences] at h1 h2 hne
          simp [contains, h1, h2, hne]
        simp only [AssemblyGraph.apply, AssemblyGraph.addRelationship, Relationship.sequences, hok,
          Bool.false_eq_true, ↓reduceIte, Update.records, Update.removesPlacement, Update.appended,
          Update.recordAdded, if_pos hv]
        simp only [Bool.not_false, List.filter_true]
        split
        · -- refused: a record of the placement is already listed under its sequence
          next hany =>
          have hlisted : ¬(c.sequence = s ∧
              ∀ x ∈ (g.containmentsOf s).toList, x.placement ≠ c.placement) := by
            rintro ⟨rfl, hfree⟩
            obtain ⟨x, hx, hxc⟩ := Array.any_eq_true'.1 hany
            exact hfree x (Array.mem_toList_iff.2 hx) (Containment.samePlacement_iff.1 hxc)
          rw [if_neg hlisted, List.append_nil]
        · next hany =>
          rw [containmentsOf, Mirror.getD_alter_push]
          by_cases hcs : c.sequence = s
          · subst hcs
            have hfree : ∀ x ∈ (g.containmentsOf c.sequence).toList, x.placement ≠ c.placement := by
              intro x hx hxc
              exact hany (Array.any_eq_true'.2 ⟨x, Array.mem_toList_iff.1 hx,
                Containment.samePlacement_iff.2 hxc⟩)
            rw [if_pos rfl, if_pos ⟨rfl, hfree⟩]
            simp [containmentsOf]
          · rw [if_neg hcs, if_neg fun h => hcs h.1, List.append_nil]
            rfl
      · rw [AssemblyGraph.apply, addRelationship_of_not_valid hv]
        simp [Update.records, Update.appended, Update.recordAdded, Update.removesPlacement, hv]
  | remove r =>
    cases r with
    | edge e =>
      simp [AssemblyGraph.apply, containmentsOf, bySequence_removeEdgeCall, Update.records,
        Update.appended, Update.recordAdded, Update.removesPlacement]
    | contained x =>
      simp only [AssemblyGraph.apply, AssemblyGraph.removeRelationship, Update.records,
        Update.appended, Update.recordAdded, Update.removesPlacement, List.append_nil]
      show ((dropPlacement g.bySequence x.sequence x).2.getD s #[]).toList = _
      rw [Mirror.getD_dropPlacement]
      split_ifs with hxs
      · rw [Array.toList_filter]
        refine List.filter_congr fun y _ => ?_
        have hsame : (x.placement == y.placement) = y.samePlacement x := by
          rw [Bool.eq_iff_iff, beq_iff_eq, Containment.samePlacement_iff]
          exact eq_comm
        rw [hsame]
      · -- every record listed under `s` is of sequence `s`, so not of the placement removed
        refine (List.filter_eq_self.2 fun y hy => ?_).symm
        have hys : y.sequence = s := hi.records.sequence_key s y (Array.mem_toList_iff.1 hy)
        have hne : x.placement ≠ y.placement := fun h => hxs (by
          rw [← hys]; exact congrArg Prod.fst h)
        simp [hne]

/-! ## Removing twice, and what is never removed -/

/-- Graph `g'` is `g` up to how its record maps are stored: every other field is equal and each
map holds the same entries. -/
def SameAs (g' g : AssemblyGraph) : Prop :=
  g' = { g with bySequence := g'.bySequence, byHost := g'.byHost } ∧
    g'.bySequence.Equiv g.bySequence ∧ g'.byHost.Equiv g.byHost

theorem SameAs.refl (g : AssemblyGraph) : SameAs g g := ⟨rfl, .rfl, .rfl⟩

/-- Dropping a placement with no record under the key finds nothing and keeps the map's
entries. -/
theorem dropPlacement_of_absent {m : Std.TreeMap Nat (Array Containment) compare} {k : Nat}
    {c : Containment} (hne : ∀ (s : Nat) (l : Array Containment), m[s]? = some l → l.size ≠ 0)
    (habs : ∀ x ∈ m.getD k #[], x.samePlacement c = false) :
    (dropPlacement m k c).1 = false ∧ (dropPlacement m k c).2.Equiv m := by
  unfold dropPlacement
  cases hk : m.get? k with
  | none => exact ⟨rfl, .rfl⟩
  | some l =>
    rw [Std.TreeMap.get?_eq_getElem?] at hk
    have hl : m.getD k #[] = l := by simp [Std.TreeMap.getD_eq_getD_getElem?, hk]
    have hfilter : l.filter (fun x => !x.samePlacement c) = l :=
      Array.filter_eq_self.2 fun x hx => by simp [habs x (hl ▸ hx)]
    have hsize : l.size ≠ 0 := hne k l hk
    simp only [hfilter, ne_eq, not_true_eq_false, decide_false, true_and]
    rw [if_neg (by simpa [Array.isEmpty_iff_size_eq_zero] using hsize)]
    -- writing back the list already there changes no entry
    refine Std.TreeMap.Equiv.of_forall_constGet?_eq fun a => ?_
    rw [Std.TreeMap.getElem?_insert]
    split
    · next h => rw [← Std.LawfulEqCmp.eq_of_compare h, hk]
    · rfl

section removal

variable (hi : g.Inv)
include hi

/-- Removing a relationship a second time finds nothing and changes nothing. -/
theorem Inv.removeRelationship_twice (r : Relationship) :
    ((g.removeRelationship r).2.removeRelationship r).1 = false ∧
      SameAs ((g.removeRelationship r).2.removeRelationship r).2 (g.removeRelationship r).2 := by
  cases r with
  | edge e =>
    simp only [AssemblyGraph.removeRelationship]
    cases hid : e.isIdentity
    · simp only [Bool.false_eq_true, ↓reduceIte]
      cases hfind : g.findEdge? e.v1 e.v2 with
      | none => simp [hfind, SameAs.refl]
      | some id =>
        -- the first removal erased the key of the edge between the two ends
        rw [findEdge?_eq] at hfind
        obtain ⟨o, ho, hkey⟩ := (hi.arena.index _ id).1 hfind
        have hgone : (g.removeEdge id).2.findEdge? e.v1 e.v2 = none := by
          rw [findEdge?_eq, removeEdge_index ho, hkey]
          simp
        simp [hgone, SameAs.refl]
    · simp [SameAs.refl]
  | contained c =>
    -- after the first removal no record of the placement is left under either key
    have hi₁ := hi.removeContainment c
    have hseq : ∀ x ∈ (dropPlacement g.bySequence c.sequence c).2.getD c.sequence #[],
        x.samePlacement c = false := by
      intro x hx
      rw [Mirror.getD_dropPlacement, if_pos rfl] at hx
      simpa using (Array.mem_filter.1 hx).2
    have hhost : ∀ x ∈ (dropPlacement g.byHost c.host c).2.getD c.host #[],
        x.samePlacement c = false := by
      intro x hx
      rw [Mirror.getD_dropPlacement, if_pos rfl] at hx
      simpa using (Array.mem_filter.1 hx).2
    obtain ⟨h1, hs⟩ := dropPlacement_of_absent hi₁.records.sequence_nonempty hseq
    obtain ⟨-, hh⟩ := dropPlacement_of_absent hi₁.records.host_nonempty hhost
    exact ⟨h1, rfl, hs, hh⟩

/-- Removing a relationship never removes an identity edge. -/
theorem Inv.edge?_removeRelationship_identity (r : Relationship) {s : Nat} (hs : s < g.size) :
    (g.removeRelationship r).2.edge? s = g.edge? s := by
  cases r with
  | edge e =>
    simp only [AssemblyGraph.removeRelationship]
    cases hid : e.isIdentity
    · simp only [Bool.false_eq_true, ↓reduceIte]
      split
      · next id hfind =>
        -- the edge removed is an overlap edge, stored past the identity edges
        rw [findEdge?_eq] at hfind
        obtain ⟨o, ho, hkey⟩ := (hi.arena.index _ id).1 hfind
        have hold : g.size ≤ id := hi.size_le_id ho ((Edge.isIdentity_eq_of_key_eq hkey).trans hid)
        rw [edge?_removeEdge ho, if_neg (by omega)]
      · rfl
    · rfl
  | contained c => rfl

end removal

/-- Removing an edge keeps its slot. -/
theorem size_edges_removeEdge (id : Nat) : (g.removeEdge id).2.edges.size = g.edges.size := by
  cases h : g.edge? id with
  | none => rw [removeEdge_of_none h]
  | some e => simp [removeEdge_edges h]

/-- Adding an edge either refuses it and changes nothing, or stores it in a fresh slot. -/
theorem addEdge_cases (e : Edge) :
    g.addRelationship (.edge e) = (false, g) ∨
      ∃ g' : AssemblyGraph, g'.edges.size = g.edges.size ∧
        g.addRelationship (.edge e) = (true, g'.insertEdge e) := by
  unfold AssemblyGraph.addRelationship
  dsimp only [Relationship.sequences]
  split
  · exact .inl rfl
  · split
    · split_ifs
      · exact .inl rfl
      · exact .inr ⟨_, size_edges_removeEdge _, rfl⟩
    · exact .inr ⟨g, rfl, rfl⟩

/-- Adding an edge reports `true` exactly when it stores it, in a fresh slot, as the edge between
its ends. -/
theorem addEdge_true_iff (e : Edge) :
    (g.addRelationship (.edge e)).1 = true ↔
      (g.addRelationship (.edge e)).2.findEdge? e.v1 e.v2 = some g.edges.size ∧
        (g.addRelationship (.edge e)).2.edge? g.edges.size = some e := by
  rcases addEdge_cases (g := g) e with h | ⟨g', hsize, h⟩
  · simp [h, edge?]
  · have hk : ({ v1 := e.v1, v2 := e.v2 } : Edge).key = e.key := rfl
    simp [h, findEdge?_eq, hk, hsize]

/-! ## Every history -/

theorem size_new (lengths : Array Nat) : (new lengths).size = lengths.size :=
  foldl_identities_frame (·.size) (fun _ _ _ => rfl) _ 0 _

/-- A new graph holds no edge between vertices of two different sequences. -/
theorem liveEdge_new (lengths : Array Nat) {u v : Vertex} (huv : u.sequence ≠ v.sequence) :
    (new lengths).liveEdge u v = none := by
  rw [liveEdge_eq, Option.eq_none_iff_forall_ne_some]
  intro e he
  obtain ⟨id, hid, hk⟩ := (inv_new lengths).arena.liveAt_eq_some.1 he
  exact Edge.not_joins_of_isIdentity (isIdentity_of_edge?_new hid) huv (Edge.joins_iff_key.2 hk)

/-- Every graph built from a new one keeps the invariant and its sequences. -/
theorem inv_update (lengths : Array Nat) (calls : List Update) :
    ((new lengths).update calls).Inv ∧ ((new lengths).update calls).size = lengths.size := by
  induction calls using List.reverseRecOn with
  | nil => exact ⟨inv_new lengths, size_new lengths⟩
  | append_singleton calls c ih =>
    rw [update_append_singleton]
    exact ⟨ih.1.apply c, (size_apply c).trans ih.2⟩

/-- Between vertices of two different sequences lies the first best edge added since the edge
between them was last removed. -/
theorem liveEdge_update (lengths : Array Nat) (calls : List Update) {u v : Vertex}
    (huv : u.sequence ≠ v.sequence) :
    ((new lengths).update calls).liveEdge u v = firstBest (edgeCandidates lengths.size calls u v) := by
  induction calls using List.reverseRecOn with
  | nil => exact liveEdge_new lengths huv
  | append_singleton calls c ih =>
    obtain ⟨hi, hsize⟩ := inv_update lengths calls
    rw [update_append_singleton, hi.liveEdge_apply huv c, hsize, ih, edgeCandidates_append_singleton]
    split
    · rfl
    · cases c.edgeAdded lengths.size u v with
      | none => simp
      | some f => simp [firstBest_append_singleton]

/-- Each sequence lists, in call order, the first record of each placement still there. -/
theorem records_update (lengths : Array Nat) (calls : List Update) (s : Nat) :
    RecordsOf lengths.size calls s (((new lengths).update calls).containmentsOf s).toList := by
  induction calls using List.reverseRecOn with
  | nil =>
    refine ⟨[], .nil, fun i => ⟨fun h => (nomatch h), ?_⟩, by simp [update_nil, containmentsOf_new]⟩
    rintro ⟨c, -, hc⟩
    simpa using hc.added
  | append_singleton calls c ih =>
    obtain ⟨hi, hsize⟩ := inv_update lengths calls
    rw [update_append_singleton, hi.containmentsOf_apply, hsize]
    exact ih.append_singleton c

/-- What a graph built by `calls` from a new graph of `n` sequences holds, and how it answers
further calls. -/
structure Relationships (n : Nat) (calls : List Update) (g : AssemblyGraph) : Prop where
  /-- A relationship naming an unknown sequence, or relating a sequence to itself, is refused and
  changes nothing. -/
  refuses : ∀ r : Relationship, ¬ r.Valid n → g.addRelationship r = (false, g)
  /-- Between vertices of two different sequences lies the first best edge added since the edge
  between them was last removed. -/
  liveEdge : ∀ u v : Vertex, u.sequence ≠ v.sequence →
    g.liveEdge u v = firstBest (edgeCandidates n calls u v)
  /-- Adding an edge reports `true` exactly when it stores it, in a fresh slot, between its
  ends. -/
  installs : ∀ e : Edge, (g.addRelationship (.edge e)).1 = true ↔
    (g.addRelationship (.edge e)).2.findEdge? e.v1 e.v2 = some g.edges.size ∧
      (g.addRelationship (.edge e)).2.edge? g.edges.size = some e
  /-- Each sequence lists, in call order, the first record of each placement still there. -/
  records : ∀ s, RecordsOf n calls s (g.containmentsOf s).toList
  /-- Removing a second time finds nothing and changes nothing. -/
  removeTwice : ∀ r : Relationship, ((g.removeRelationship r).2.removeRelationship r).1 = false ∧
    SameAs ((g.removeRelationship r).2.removeRelationship r).2 (g.removeRelationship r).2
  /-- No removal takes away an identity edge. -/
  keepsIdentity : ∀ (r : Relationship) (s : Nat), s < n →
    (g.removeRelationship r).2.edge? s = g.edge? s

/-- Every graph built from a new one by adding and removing relationships holds, and answers,
what `Relationships` says. -/
theorem update_relationships (lengths : Array Nat) (calls : List Update) :
    Relationships lengths.size calls ((new lengths).update calls) where
  refuses _ hr := addRelationship_of_not_valid ((inv_update lengths calls).2 ▸ hr)
  liveEdge _ _ huv := liveEdge_update lengths calls huv
  installs := addEdge_true_iff
  records := records_update lengths calls
  removeTwice := (inv_update lengths calls).1.removeRelationship_twice
  keepsIdentity r _ hs :=
    (inv_update lengths calls).1.edge?_removeRelationship_identity r ((inv_update lengths calls).2 ▸ hs)

end AssemblyGraph

end OverlapLayout
