import Mathlib
import OverlapLayout.Proofs.Discovery.Best
import OverlapLayout.Proofs.Success
/-!
  What a search for a query returns, on every input.

  The one check a cluster of hits can violate is a hit ending past `2 ^ 32 - 1`, where a sum
  overflows; whether a cluster does depends on the cluster alone, not on what the search found
  before it. So a search stops with that overflow exactly when one of the clusters it
  classifies overflows (`Faulty`), and otherwise returns, scored and by subject, a list that
  keeps the best candidate of each subject.

  * `classify_failsOnly`: a chain with hits is classified, or its classification overflows.
  * `candidatesFrom_of_faulty`: a table with an overflowing cluster stops the search of its
    subjects with the overflow, whatever was found before.
  * `infer_of_faulty`, `infer_of_sound`: the search stops with the overflow, or returns the
    best candidates of the two tables.
  * `infer_ok`, `mem_infer`: a search in tables whose hits end at 32-bit positions returns,
    and whatever a search returns is a scored candidate.
-/

namespace OverlapLayout

/-- A fold whose steps fail only with `e`, and whose step at one element of the list fails
from every state, fails with `e`. -/
theorem foldlM_error_of_mem {ε α β : Type} {f : β → α → Except ε β} {e : ε} {x : α}
    (hx : ∀ b, ∃ e', f b x = .error e') :
    ∀ {l : List α}, (∀ b, ∀ a ∈ l, FailsOnly (· = e) (f b a)) → x ∈ l →
      ∀ init, l.foldlM f init = .error e
  | a :: l, hfails, hmem, init => by
    rw [List.foldlM_cons]
    cases hstep : f init a with
    | error e' => exact congrArg Except.error (hfails init a List.mem_cons_self e' hstep)
    | ok b =>
      rcases List.mem_cons.mp hmem with rfl | hmem
      · obtain ⟨e', he'⟩ := hx init
        rw [he'] at hstep
        nomatch hstep
      · exact foldlM_error_of_mem hx (fun b y hy => hfails b y (List.mem_cons_of_mem a hy)) hmem b

/-- A fold whose steps at the elements of its list fail only as `E` allows fails only so. -/
theorem FailsOnly.foldlM_of_mem {ε α β : Type} {E : ε → Prop} {f : β → α → Except ε β} :
    ∀ {l : List α}, (∀ b, ∀ a ∈ l, FailsOnly E (f b a)) → ∀ init, FailsOnly E (l.foldlM f init)
  | [], _, init => .pure init
  | a :: _, hf, init =>
    .bind (hf init a List.mem_cons_self) fun b =>
      foldlM_of_mem (fun b x hx => hf b x (List.mem_cons_of_mem a hx)) b

theorem checkedAdd_failsOnly (bits a b : Nat) : FailsOnly (· = .addOverflow) (checkedAdd bits a b) := by
  intro e he
  unfold checkedAdd at he
  split at he <;> cases he
  rfl

namespace HitChain

variable {c : HitChain}

theorem weightedCoverage_failsOnly (c : HitChain) :
    FailsOnly (· = .addOverflow) c.weightedCoverage := by
  unfold weightedCoverage
  dsimp only
  rw [← Array.foldlM_toList]
  refine .bind (.foldlM (fun acc h => ?_) _ _) fun _ => .pure _
  refine .bind (checkedAdd_failsOnly _ _ _) fun _ => ?_
  split
  · exact .pure _
  · exact .pure _

theorem indelsPerKbp_failsOnly (hne : 0 < c.hits.size) :
    FailsOnly (· = .addOverflow) c.indelsPerKbp := by
  unfold indelsPerKbp
  rw [last_ok hne, first_ok hne]
  refine .bind (.pure _) fun l => .bind (.pure _) fun f =>
    .bind (checkedAdd_failsOnly _ _ _) fun v => ?_
  dsimp only
  split
  · exact .pure _
  · exact .pure _

end HitChain

namespace Finder

variable {f : Finder} {c : HitChain} {t : HitTable}

theorem evidence_failsOnly (hne : 0 < c.hits.size) (region : QueryRegion) (ov : Nat) :
    FailsOnly (· = .addOverflow) (f.evidence c t region ov) := by
  unfold evidence
  exact .bind c.weightedCoverage_failsOnly fun _ =>
    .bind (HitChain.indelsPerKbp_failsOnly hne) fun _ => .pure _

/-- A chain with hits is classified, or its classification overflows. -/
theorem classify_failsOnly (hne : 0 < c.hits.size) (q qlen slen : Nat) :
    FailsOnly (· = .addOverflow) (f.classify q qlen slen c t) := by
  unfold classify
  simp only [HitChain.predictedStart, HitChain.predictedEnd, HitChain.first_ok hne,
    HitChain.last_ok hne, bind, Except.bind, pure, Except.pure]
  -- every placement either gives none or measures its support
  split_ifs <;> first
    | exact .pure _
    | exact .bind (evidence_failsOnly hne _ _) fun _ => .pure _

variable {q qlen : Nat} {mode : SearchMode} {minHits : Nat} {reverse : Bool}

/-- Some cluster of a subject that passes the filters, of known length, overflows when it is
classified. -/
def Faulty (f : Finder) (q qlen : Nat) (mode : SearchMode) (minHits : Nat) (t : HitTable)
    (reverse : Bool) : Prop :=
  ∃ s, Eligible q mode minHits t s ∧ ∃ slen, f.length? s = some slen ∧
    ∃ c ∈ f.rule.clusters t s reverse minHits, ∃ e, f.classify q qlen slen c t = .error e

theorem sound_of_not_faulty (h : ¬f.Faulty q qlen mode minHits t reverse) :
    f.Sound q qlen mode minHits t reverse := by
  intro s hs slen hslen c hc
  cases hcl : f.classify q qlen slen c t with
  | error e => exact absurd ⟨s, hs, slen, hslen, c, hc, e, hcl⟩ h
  | ok o => exact ⟨o, rfl⟩

theorem addChain_failsOnly {slen s : Nat} (hne : 0 < c.hits.size)
    (best : List (Nat × Relationship)) :
    FailsOnly (· = .addOverflow) (f.addChain q qlen slen s mode t best c) := by
  unfold addChain
  refine .bind (classify_failsOnly hne q qlen slen) fun o => ?_
  split
  · exact .pure _
  · dsimp only
    split_ifs <;> exact .pure _

theorem addSubject_failsOnly (hmin : 0 < minHits) (best : List (Nat × Relationship)) (s : Nat) :
    FailsOnly (· = .addOverflow) (f.addSubject q qlen mode minHits t reverse best s) := by
  unfold addSubject
  split
  · exact .pure _
  · split
    · exact .pure _
    · -- the clusters all have at least `minHits` hits
      refine FailsOnly.foldlM_of_mem (fun b c hc => ?_) _
      exact addChain_failsOnly (Nat.lt_of_lt_of_le hmin (ChainRule.mem_clusters hc).minHits_le) b

theorem candidatesFrom_failsOnly (hmin : 0 < minHits) (best : List (Nat × Relationship)) :
    FailsOnly (· = .addOverflow) (f.candidatesFrom q qlen mode minHits t reverse best) :=
  FailsOnly.foldlM (fun b s => addSubject_failsOnly hmin b s) _ _

/-- A table with an overflowing cluster stops the search of its subjects with the overflow,
whatever was found before. -/
theorem candidatesFrom_of_faulty (hmin : 0 < minHits)
    (h : f.Faulty q qlen mode minHits t reverse) (best : List (Nat × Relationship)) :
    f.candidatesFrom q qlen mode minHits t reverse best = .error .addOverflow := by
  obtain ⟨s, hs, slen, hslen, c, hc, e, he⟩ := h
  have hsub := HitTable.mem_subjects_of_hitCount_pos (Nat.lt_of_lt_of_le hmin hs.2.2.2)
  refine foldlM_error_of_mem (fun b => ⟨.addOverflow, ?_⟩)
    (fun b s _ => addSubject_failsOnly hmin b s) hsub best
  -- the subject passes the filters, and its overflowing cluster stops the search of it
  unfold addSubject
  rw [if_neg (eligible_iff.mp hs), hslen]
  refine foldlM_error_of_mem (fun b => ⟨e, ?_⟩) (fun b c hc => ?_) hc b
  · unfold addChain
    rw [he]
    rfl
  · exact addChain_failsOnly (Nat.lt_of_lt_of_le hmin (ChainRule.mem_clusters hc).minHits_le) b

/-! ## The outcomes of a search -/

variable {fwd rev : HitTable}

theorem infer_of_length_none (h : f.length? q = none) : f.infer q fwd rev mode = .ok [] := by
  simp [infer, h, pure, Except.pure]

theorem infer_of_informative_zero (h : max fwd.informativeCodes rev.informativeCodes = 0) :
    f.infer q fwd rev mode = .ok [] := by
  unfold infer
  cases f.length? q <;> simp [h, pure, Except.pure]

/-- A search in which a cluster of either table overflows stops with the overflow. -/
theorem infer_of_faulty (hq : f.length? q = some qlen)
    (h0 : 0 < max fwd.informativeCodes rev.informativeCodes)
    (h : f.Faulty q qlen mode (f.minHits (max fwd.informativeCodes rev.informativeCodes)) fwd false ∨
      f.Faulty q qlen mode (f.minHits (max fwd.informativeCodes rev.informativeCodes)) rev true) :
    f.infer q fwd rev mode = .error .addOverflow := by
  have hmin : 0 < f.minHits (max fwd.informativeCodes rev.informativeCodes) :=
    Nat.lt_of_lt_of_le (by decide) (le_max_right _ _)
  simp only [infer, hq, Nat.pos_iff_ne_zero.mp h0, if_false, bind, Except.bind]
  rcases h with h | h
  · rw [candidatesFrom_of_faulty hmin h]
  · cases h₁ : f.candidatesFrom q qlen mode _ fwd false [] with
    | error e => rw [candidatesFrom_failsOnly hmin [] e h₁]
    | ok b =>
      dsimp only
      rw [candidatesFrom_of_faulty hmin h]

/-- A search in which every cluster is classified returns, scored and by subject, a list that
keeps the best candidate of each subject from the two tables. -/
theorem infer_of_sound (hq : f.length? q = some qlen)
    (h0 : 0 < max fwd.informativeCodes rev.informativeCodes)
    (hf : f.Sound q qlen mode (f.minHits (max fwd.informativeCodes rev.informativeCodes)) fwd false)
    (hr : f.Sound q qlen mode (f.minHits (max fwd.informativeCodes rev.informativeCodes)) rev true) :
    ∃ best, Best (fun s r =>
        f.Candidate q qlen mode (f.minHits (max fwd.informativeCodes rev.informativeCodes)) fwd
          false s r ∨
        f.Candidate q qlen mode (f.minHits (max fwd.informativeCodes rev.informativeCodes)) rev
          true s r) best ∧
      f.infer q fwd rev mode = .ok ((best.mergeSort fun a b => a.1 ≤ b.1).map
        fun p => p.2.withScores (f.model.score p.2) p.2.cost) := by
  have hmin : 0 < f.minHits (max fwd.informativeCodes rev.informativeCodes) :=
    Nat.lt_of_lt_of_le (by decide) (le_max_right _ _)
  obtain ⟨b₁, h₁, hb₁⟩ := best_nil.candidatesFrom_of_sound hf hmin
  obtain ⟨b₂, h₂, hb₂⟩ := hb₁.candidatesFrom_of_sound hr hmin
  refine ⟨b₂, hb₂.congr fun _ _ => by simp, ?_⟩
  simp [infer, hq, Nat.pos_iff_ne_zero.mp h0, h₁, h₂, bind, Except.bind, pure, Except.pure]

/-- A search in tables whose hits end at 32-bit positions returns. -/
theorem infer_ok (hf : fwd.Fits f.rule.k) (hr : rev.Fits f.rule.k) :
    ∃ rs, f.infer q fwd rev mode = .ok rs := by
  cases hq : f.length? q with
  | none => exact ⟨[], infer_of_length_none hq⟩
  | some qlen =>
  by_cases h0 : max fwd.informativeCodes rev.informativeCodes = 0
  · exact ⟨[], infer_of_informative_zero h0⟩
  have hmin : 0 < f.minHits (max fwd.informativeCodes rev.informativeCodes) :=
    Nat.lt_of_lt_of_le (by decide) (le_max_right _ _)
  obtain ⟨_, -, h⟩ := infer_of_sound hq (Nat.pos_of_ne_zero h0) (sound_of_fits hf hmin)
    (sound_of_fits hr hmin)
  exact ⟨_, h⟩

/-- Whatever a search returns is a candidate from one of the tables, scored: a search that
returns met no overflowing cluster. -/
theorem mem_infer {rs : List Relationship} (h : f.infer q fwd rev mode = .ok rs)
    {r : Relationship} (hr : r ∈ rs) :
    ∃ qlen, f.length? q = some qlen ∧ ∃ s reverse r₀,
      f.Candidate q qlen mode (f.minHits (max fwd.informativeCodes rev.informativeCodes))
        (if reverse then rev else fwd) reverse s r₀ ∧
      r = r₀.withScores (f.model.score r₀) r₀.cost := by
  cases hq : f.length? q with
  | none =>
    rw [infer_of_length_none hq, Except.ok.injEq] at h
    subst h
    nomatch hr
  | some qlen =>
  by_cases h0 : max fwd.informativeCodes rev.informativeCodes = 0
  · rw [infer_of_informative_zero h0, Except.ok.injEq] at h
    subst h
    nomatch hr
  have h0 := Nat.pos_of_ne_zero h0
  by_cases hf : f.Faulty q qlen mode (f.minHits (max fwd.informativeCodes rev.informativeCodes))
    fwd false
  · rw [infer_of_faulty hq h0 (.inl hf)] at h
    nomatch h
  by_cases hr' : f.Faulty q qlen mode (f.minHits (max fwd.informativeCodes rev.informativeCodes))
    rev true
  · rw [infer_of_faulty hq h0 (.inr hr')] at h
    nomatch h
  obtain ⟨best, hb, hinfer⟩ := infer_of_sound hq h0 (sound_of_not_faulty hf)
    (sound_of_not_faulty hr')
  rw [hinfer, Except.ok.injEq] at h
  subst h
  obtain ⟨p, hp, rfl⟩ := List.mem_map.mp hr
  refine ⟨qlen, rfl, p.1, ?_⟩
  rcases hb.seen p ((List.mergeSort_perm best _).mem_iff.mp hp) with hc | hc
  · exact ⟨false, p.2, hc, rfl⟩
  · exact ⟨true, p.2, hc, rfl⟩

end Finder

end OverlapLayout
