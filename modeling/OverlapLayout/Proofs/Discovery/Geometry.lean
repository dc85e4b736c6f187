import Mathlib
import OverlapLayout.Proofs.Discovery.Outcome
import OverlapLayout.Proofs.Float.Sign
/-!
  Where the relationships found for a query place the two sequences.

  A chain of hits predicts where the query starts and ends on the subject, possibly up to
  `2k` bases past either sequence; `classify` clamps that placement to the sequences and reads
  off a containment or an overlap of their ends. Whatever the chain, a containment lies inside
  its host, an overlap edge overlaps by at least one base and at most the shorter sequence and
  joins the ends the predicted start calls for, the query's end being the other one on the
  reverse strand. The evidence proportion counts the codes of the chain against those of the
  region, capped at one, so it lies in `[0, 1]`.

  * `Placed`: what a relationship found from a chain says about the placement.
  * `classify_placed`: every classified relationship is placed so.
  * `evidence_proportion_mem`: the evidence proportion lies in `[0, 1]`.
  * `infer_placements`: every relationship of a search whose hits end at 32-bit positions.
-/

namespace OverlapLayout

namespace Finder

/-- The end of the query an overlap leaves from on the forward strand: its end when the
predicted start lies before the subject's start, its start otherwise. -/
def queryEnd (q : Nat) (start : Int) : Vertex := if start < 0 then .endOf q else .startOf q

/-- What a relationship found from a chain of subject `s` on strand `reverse`, whose predicted
start is `start`, says for a query `q` of length `qlen` and a subject of length `slen`: an
overlap edge overlaps by at least one base and at most the shorter sequence, joins the start of
the subject when the predicted start is negative and its end otherwise, and leaves from
`queryEnd`, or from the other end of the query on the reverse strand; a containment of the
query in the subject, or of the subject in the query, lies inside its host. -/
def Placed (q qlen s slen : Nat) (reverse : Bool) (start : Int) : Relationship → Prop
  | .edge e =>
    0 < e.evidence.overlap ∧ e.evidence.overlap ≤ min qlen slen ∧
      e.v1 = (if reverse then (queryEnd q start).opposite else queryEnd q start) ∧
      e.v2 = (if start < 0 then .startOf s else .endOf s)
  | .contained x =>
    x.hostStart < x.hostEnd ∧
      ((x.sequence = q ∧ x.host = s ∧ x.hostEnd ≤ slen) ∨
        (x.sequence = s ∧ x.host = q ∧ x.hostEnd ≤ qlen))

theorem placed_withScores {q qlen s slen : Nat} {reverse : Bool} {start : Int} (r : Relationship)
    (score cost : Nat) :
    Placed q qlen s slen reverse start (r.withScores score cost) ↔
      Placed q qlen s slen reverse start r := by
  cases r <;> rfl

variable {f : Finder} {c : HitChain} {t : HitTable}

theorem evidence_overlap {region : QueryRegion} {ov : Nat} {e : Evidence}
    (h : f.evidence c t region ov = .ok e) : e.overlap = ov := by
  unfold evidence at h
  cases hw : c.weightedCoverage <;> cases hx : c.indelsPerKbp <;>
    simp [hw, hx, bind, Except.bind, pure, Except.pure] at h
  subst h
  rfl

/-- The evidence proportion of a support lies in `[0, 1]`: the count of the chain's codes over
the count of the region's, capped at one, or zero when the region has none. -/
theorem evidence_proportion_mem {region : QueryRegion} {ov : Nat} {e : Evidence}
    (h : f.evidence c t region ov = .ok e) :
    0 ≤ e.evidenceProportion ∧ e.evidenceProportion ≤ 1 := by
  unfold evidence at h
  cases hw : c.weightedCoverage <;> cases hx : c.indelsPerKbp <;>
    simp [hw, hx, bind, Except.bind, pure, Except.pure] at h
  subst h
  dsimp only
  split
  · exact ⟨by decide, by decide⟩
  · exact Float.minNum_one_mem ((Float.plusSigned_ofNat _).div (Float.plusSigned_ofNat _))

/-- Every relationship classified from a chain is placed as the chain predicts. -/
theorem classify_placed {q qlen slen : Nat} {r : Relationship}
    (h : f.classify q qlen slen c t = .ok (some r)) :
    ∃ start, c.predictedStart = .ok start ∧ Placed q qlen c.subjectId slen c.reverse start r := by
  unfold classify at h
  cases hs : c.predictedStart with
  | error => simp [hs, bind, Except.bind] at h
  | ok st =>
  cases he : c.predictedEnd qlen with
  | error => simp [hs, he, bind, Except.bind] at h
  | ok sp =>
  refine ⟨st, rfl, ?_⟩
  simp only [hs, he, bind, Except.bind, pure, Except.pure] at h
  -- each placement either gives no relationship or one whose clamped coordinates the
  -- conditions of its branch bound
  split_ifs at h <;> first
    | cases h
    | split at h
      · cases h
      · next ev hev =>
        cases h
        simp only [Placed, queryEnd, evidence_overlap hev, *, if_true, if_false, Vertex.opposite,
          Vertex.startOf, Vertex.endOf, Bool.not_true, Bool.not_false, Bool.false_eq_true,
          and_true, true_and]
        all_goals omega

variable {q qlen : Nat} {mode : SearchMode} {minHits : Nat} {reverse : Bool}

/-- A candidate of a subject has an evidence proportion in `[0, 1]` and is placed as one of the
subject's clusters predicts. -/
theorem Candidate.placed {s : Nat} {r : Relationship}
    (hc : f.Candidate q qlen mode minHits t reverse s r) :
    (0 ≤ r.evidence.evidenceProportion ∧ r.evidence.evidenceProportion ≤ 1) ∧
      ∃ slen, f.length? s = some slen ∧ ∃ c ∈ f.rule.clusters t s reverse minHits,
        ∃ start, c.predictedStart = .ok start ∧ Placed q qlen s slen reverse start r := by
  obtain ⟨-, slen, hslen, c, hcl, hcls, -⟩ := hc
  obtain ⟨⟨region, ov, hev⟩, -⟩ := classify_some hcls
  obtain ⟨start, hstart, hplaced⟩ := classify_placed hcls
  -- the cluster is one of subject `s` on the table's strand
  have hd := ChainRule.mem_clusters hcl
  rw [hd.subjectId_eq, hd.reverse_eq] at hplaced
  exact ⟨evidence_proportion_mem hev, slen, hslen, c, hcl, start, hstart, hplaced⟩

/-- The search for a query in tables whose hits end at 32-bit positions returns relationships
that each have an evidence proportion in `[0, 1]` and are placed as a cluster of their subject
predicts, in the forward table or, on the reverse strand, the reverse one. -/
theorem infer_placements (f : Finder) (q : Nat) (fwd rev : HitTable) (mode : SearchMode)
    (hf : fwd.Fits f.rule.k) (hr : rev.Fits f.rule.k) :
    ∃ rs, f.infer q fwd rev mode = .ok rs ∧ ∀ r ∈ rs,
      (0 ≤ r.evidence.evidenceProportion ∧ r.evidence.evidenceProportion ≤ 1) ∧
      ∃ qlen s slen, f.length? q = some qlen ∧ f.length? s = some slen ∧ ∃ reverse : Bool,
        ∃ c ∈ f.rule.clusters (if reverse then rev else fwd) s reverse
          (f.minHits (max fwd.informativeCodes rev.informativeCodes)),
        ∃ start, c.predictedStart = .ok start ∧ Placed q qlen s slen reverse start r := by
  obtain ⟨rs, hrs⟩ : ∃ rs, f.infer q fwd rev mode = .ok rs := infer_ok hf hr
  refine ⟨rs, hrs, fun r hr => ?_⟩
  obtain ⟨qlen, hq, s, reverse, r₀, hc, rfl⟩ := mem_infer hrs hr
  obtain ⟨hmem, slen, hslen, c, hcl, start, hstart, hplaced⟩ := hc.placed
  rw [Relationship.evidence_withScores]
  exact ⟨hmem, qlen, s, slen, hq, hslen, reverse, c, hcl, start, hstart,
    (placed_withScores _ _ _).mpr hplaced⟩

/-- The search for read 1 in the sample table, on the forward strand, meets the conditions of
`infer_placements`. -/
theorem infer_placements_sample :
    HitTable.sampleTable.Fits (Finder.mk #[1000, 900] ⟨15, 100, 3⟩ 5 ⟨0.5⟩).rule.k ∧
      HitTable.empty.Fits (Finder.mk #[1000, 900] ⟨15, 100, 3⟩ 5 ⟨0.5⟩).rule.k ∧
      ∃ rs, (Finder.mk #[1000, 900] ⟨15, 100, 3⟩ 5 ⟨0.5⟩).infer 1 .sampleTable .empty {} = .ok rs ∧
        ∀ r ∈ rs, (0 ≤ r.evidence.evidenceProportion ∧ r.evidence.evidenceProportion ≤ 1) ∧
        ∃ qlen s slen, (Finder.mk #[1000, 900] ⟨15, 100, 3⟩ 5 ⟨0.5⟩).length? 1 = some qlen ∧
          (Finder.mk #[1000, 900] ⟨15, 100, 3⟩ 5 ⟨0.5⟩).length? s = some slen ∧ ∃ reverse : Bool,
          ∃ c ∈ (Finder.mk #[1000, 900] ⟨15, 100, 3⟩ 5 ⟨0.5⟩).rule.clusters
              (if reverse then .empty else .sampleTable) s reverse
              ((Finder.mk #[1000, 900] ⟨15, 100, 3⟩ 5 ⟨0.5⟩).minHits
                (max HitTable.sampleTable.informativeCodes HitTable.empty.informativeCodes)),
          ∃ start, c.predictedStart = .ok start ∧ Placed 1 qlen s slen reverse start r := by
  have hf : HitTable.sampleTable.Fits 15 := HitTable.fits_sampleTable (by decide)
  exact ⟨hf, HitTable.fits_empty 15,
    infer_placements _ 1 .sampleTable .empty {} hf (HitTable.fits_empty 15)⟩

end Finder

end OverlapLayout
