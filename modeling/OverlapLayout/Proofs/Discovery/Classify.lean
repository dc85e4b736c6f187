import Mathlib
import OverlapLayout.Discovery.Placement
import OverlapLayout.Proofs.Discovery.Chains
/-!
  The relationship a chain of hits predicts between the query and its subject.

  A chain places the query on the subject; the placement is a containment of one in the
  other or an overlap of their ends, and the support is measured over the chain's hits. So
  a relationship found from a chain of subject `s` always relates the query to `s`, carries
  as shared k-mers the chain's length as a 32-bit word, and has no cost yet.

  * `Relationship.Relates`: an edge from a vertex of one sequence to a vertex of the other,
    or a containment of one in the other.
  * `classify_some`: what a classified relationship is.
  * `classify_ok`: a non-empty chain whose hits end at 32-bit positions is classified without
    overflow; `classify_overflows_past_32_bits` is a chain whose last hit ends past them.
-/

namespace OverlapLayout

/-- The relationship joins sequence `a` to sequence `b`: an edge from a vertex of `a` to a
vertex of `b`, or a containment of either in the other. -/
def Relationship.Relates : Relationship → Nat → Nat → Prop
  | .edge e, a, b => e.v1.sequence = a ∧ e.v2.sequence = b
  | .contained x, a, b => (x.sequence = a ∧ x.host = b) ∨ (x.sequence = b ∧ x.host = a)

namespace Finder

variable {f : Finder} {c : HitChain} {t : HitTable}

theorem evidence_ok (hne : 0 < c.hits.size) (hc : c.Fits) (region : QueryRegion) (ov : Nat) :
    ∃ e, f.evidence c t region ov = .ok e := by
  obtain ⟨w, hw⟩ := c.weightedCoverage_ok hc
  obtain ⟨x, hx⟩ := c.indelsPerKbp_ok hne hc
  unfold evidence
  simp only [hw, hx, bind, Except.bind, pure, Except.pure]
  exact ⟨_, rfl⟩

/-- The shared k-mers of the support are the chain's hits, counted in 32 bits. -/
theorem evidence_sharedKmers {region : QueryRegion} {ov : Nat} {e : Evidence}
    (h : f.evidence c t region ov = .ok e) : e.sharedKmers = c.hits.size % 2 ^ 32 := by
  unfold evidence at h
  cases hw : c.weightedCoverage <;> cases hx : c.indelsPerKbp <;>
    simp [hw, hx, bind, Except.bind, pure, Except.pure] at h
  subst h
  rfl

/-- A relationship found from a chain relates the query to the chain's subject, with the
support measured over the chain, and no cost. -/
theorem classify_some {q qlen slen : Nat} {r : Relationship}
    (h : f.classify q qlen slen c t = .ok (some r)) :
    (∃ region ov, f.evidence c t region ov = .ok r.evidence) ∧ r.cost = 0 ∧
      r.Relates q c.subjectId := by
  unfold classify at h
  cases hs : c.predictedStart with
  | error => simp [hs, bind, Except.bind] at h
  | ok st =>
  cases he : c.predictedEnd qlen with
  | error => simp [hs, he, bind, Except.bind] at h
  | ok sp =>
  simp only [hs, he, bind, Except.bind, pure, Except.pure] at h
  -- each placement either gives no relationship or one built from the support
  split_ifs at h <;> (try split at h) <;>
    simp only [reduceCtorEq, Except.ok.injEq, Option.some.injEq] at h <;> subst h <;>
    exact ⟨⟨_, _, ‹_›⟩, rfl, by simp [Relationship.Relates, Vertex.startOf, Vertex.endOf]⟩

/-- A non-empty chain whose hits end at 32-bit positions is classified without overflow. -/
theorem classify_ok (hne : 0 < c.hits.size) (hc : c.Fits) (q qlen slen : Nat) :
    ∃ o, f.classify q qlen slen c t = .ok o := by
  unfold classify
  simp only [HitChain.predictedStart, HitChain.predictedEnd, HitChain.first_ok hne,
    HitChain.last_ok hne, bind, Except.bind, pure, Except.pure]
  split_ifs <;> first
    | exact ⟨_, rfl⟩
    | obtain ⟨e, he⟩ := evidence_ok (f := f) (t := t) hne hc _ _
      exact ⟨_, by rw [he]⟩

end Finder

end OverlapLayout
