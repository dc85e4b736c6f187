import Mathlib
import OverlapLayout.Proofs.Discovery.Outcome
import OverlapLayout.Proofs.Discovery.Clusters
/-!
  A search with its two tables swapped.

  The reverse hits of a query are the forward hits of its reverse complement. Swapping the two
  tables of a search meets the same clusters with their strand flag flipped, and `classify`
  reads a flipped chain as the same placement seen from the other strand
  (`Relationship.mirror`): an edge leaves from the other end of the query, a containment
  changes strand, and a subject lying inside the query is reflected to
  `(qlen - hostEnd, qlen - hostStart)`. The support is the same, so the order of candidates is
  too; where no two candidates of a subject tie, the entry kept for each subject is the one
  that no other beats, whichever table is searched first, and the swapped search returns the
  mirrored relationships.

  * `HitChain.flip`, `ChainRule.clusters_flip`: the clusters of a table on the other strand.
  * `classify_flip`: a flipped chain classifies as the mirrored relationship.
  * `candidate_flip_iff`, `faulty_flip_iff`: the candidates and the overflows of a table on
    the other strand.
  * `Best.mem_iff`: without ties, the kept entries are the unbeaten candidates.
  * `infer_swap`: swapping the tables mirrors what the search returns.
-/

namespace OverlapLayout

/-- The chain read from the other strand. -/
def HitChain.flip (c : HitChain) : HitChain := { c with reverse := !c.reverse }

namespace HitChain

variable (c : HitChain)

@[simp] theorem subjectId_flip : c.flip.subjectId = c.subjectId := rfl

@[simp] theorem reverse_flip : c.flip.reverse = !c.reverse := rfl

end HitChain

namespace ChainRule

/-- The chains on the other strand are the same chains, flipped: the strand is a label that
chaining carries along and never reads. -/
theorem chains_go_flip (r : ChainRule) (s : Nat) (b : Bool) (hits : Array WeightedHit)
    (minHits : Nat) : ∀ fuel used acc,
      chains.go r s (!b) hits minHits fuel used (acc.map HitChain.flip) =
        (chains.go r s b hits minHits fuel used acc).map HitChain.flip
  | 0, _, acc => by simp [chains.go, List.map_reverse]
  | fuel + 1, used, acc => by
    unfold chains.go
    dsimp only
    split
    · simp [List.map_reverse]
    · exact chains_go_flip r s b hits minHits fuel _ (⟨s, b, _⟩ :: acc)

theorem clusters_flip (r : ChainRule) (t : HitTable) (s : Nat) (b : Bool) (minHits : Nat) :
    r.clusters t s (!b) minHits = (r.clusters t s b minHits).map HitChain.flip :=
  chains_go_flip r s b _ minHits _ _ []

end ChainRule

namespace Relationship

/-- The relationship seen from the reverse complement of query `q`, of length `qlen`: an edge
leaves from the other end of the query, a containment changes strand, and a placement inside
the query is reflected. Support, spread and scores stay. -/
def mirror (q qlen : Nat) : Relationship → Relationship
  | .edge e => .edge { e with v1 := e.v1.opposite }
  | .contained x =>
    .contained (if x.host = q then
        { x with reverse := !x.reverse, hostStart := qlen - x.hostEnd, hostEnd := qlen - x.hostStart }
      else { x with reverse := !x.reverse })

variable {q qlen : Nat} (r : Relationship)

@[simp] theorem evidence_mirror : (r.mirror q qlen).evidence = r.evidence := by
  cases r with
  | edge e => rfl
  | contained x => simp only [mirror]; split <;> rfl

@[simp] theorem cost_mirror : (r.mirror q qlen).cost = r.cost := by
  cases r with
  | edge e => rfl
  | contained x => simp only [mirror]; split <;> rfl

theorem mirror_withScores (score cost : Nat) :
    (r.withScores score cost).mirror q qlen = (r.mirror q qlen).withScores score cost := by
  cases r with
  | edge e => rfl
  | contained x => simp only [withScores, mirror]; split <;> rfl

end Relationship

/-- A score depends on the support alone, which mirroring keeps. -/
@[simp] theorem ScoreModel.score_mirror (m : ScoreModel) (q qlen : Nat) (r : Relationship) :
    m.score (r.mirror q qlen) = m.score r := by
  simp only [ScoreModel.score, Relationship.evidence_mirror]

namespace Finder

variable {f : Finder} {q qlen : Nat} {mode : SearchMode} {minHits : Nat} {t : HitTable}

theorem beats_mirror (a b : Relationship) :
    beats (a.mirror q qlen) (b.mirror q qlen) = beats a b := by
  simp only [beats, Relationship.evidence_mirror]

theorem admits_mirror (r : Relationship) : Admits mode q (r.mirror q qlen) ↔ Admits mode q r := by
  cases r with
  | edge e => simp [Admits, Relationship.mirror]
  | contained x =>
    simp only [Relationship.mirror]
    split <;> simp [Admits]

/-- A flipped chain classifies as the mirrored relationship: the placement and the support are
read off the hits, and only the query's end, the strand and the reflection inside the query
follow the flag. -/
theorem classify_flip {slen : Nat} {c : HitChain} (hq : c.subjectId ≠ q) :
    f.classify q qlen slen c.flip t =
      (f.classify q qlen slen c t).map (Option.map (Relationship.mirror q qlen)) := by
  have hstart : c.flip.predictedStart = c.predictedStart := rfl
  have hend : c.flip.predictedEnd qlen = c.predictedEnd qlen := rfl
  have hev : ∀ region ov, f.evidence c.flip t region ov = f.evidence c t region ov := fun _ _ => rfl
  have hsd : c.flip.diagonalSd = c.diagonalSd := rfl
  unfold classify
  simp only [hstart, hend, hev, hsd, HitChain.subjectId_flip, HitChain.reverse_flip]
  cases c.predictedStart with
  | error e => rfl
  | ok st =>
  cases c.predictedEnd qlen with
  | error e => rfl
  | ok sp =>
  simp only [bind, Except.bind, pure, Except.pure]
  rcases Bool.eq_false_or_eq_true c.reverse with hr | hr <;>
    simp only [hr, Bool.not_true, Bool.not_false, Bool.false_eq_true, if_true, if_false]
  all_goals split_ifs
  all_goals first
    | rfl
    | split
      · rfl
      · simp only [Except.map, Option.map, Relationship.mirror, hq, if_true, if_false,
          Vertex.opposite, Vertex.startOf, Vertex.endOf, Bool.not_true, Bool.not_false,
          Except.ok.injEq, Option.some.injEq, Relationship.contained.injEq, Containment.mk.injEq,
          true_and, and_true]
        -- what is left is a placement inside the query, reflected back within it
        all_goals omega

/-! ## The candidates on the other strand -/

/-- A cluster of a subject that passes the filters is not one of the query itself. -/
theorem subjectId_ne {reverse : Bool} {s : Nat} {c : HitChain}
    (hc : c ∈ f.rule.clusters t s reverse minHits) (hs : Eligible q mode minHits t s) :
    c.subjectId ≠ q := by
  rw [(ChainRule.mem_clusters hc).subjectId_eq]
  exact hs.1

/-- The candidates of a table on the other strand are its candidates, mirrored. -/
theorem candidate_flip_iff (reverse : Bool) {s : Nat} {r' : Relationship} :
    f.Candidate q qlen mode minHits t (!reverse) s r' ↔
      ∃ r, f.Candidate q qlen mode minHits t reverse s r ∧ r' = r.mirror q qlen := by
  unfold Candidate
  rw [ChainRule.clusters_flip]
  constructor
  · rintro ⟨hs, slen, hslen, c', hc', hcl, hadm⟩
    obtain ⟨c, hc, rfl⟩ := List.mem_map.mp hc'
    rw [classify_flip (subjectId_ne hc hs)] at hcl
    -- the flipped chain is classified, so the chain is, as the relationship mirrored back
    cases hcl' : f.classify q qlen slen c t with
    | error e =>
      rw [hcl'] at hcl
      nomatch hcl
    | ok o =>
      rw [hcl'] at hcl
      cases o with
      | none => nomatch hcl
      | some r =>
        obtain rfl : r.mirror q qlen = r' := by simpa [Except.map] using hcl
        exact ⟨r, ⟨hs, slen, hslen, c, hc, hcl', (admits_mirror r).mp hadm⟩, rfl⟩
  · rintro ⟨r, ⟨hs, slen, hslen, c, hc, hcl, hadm⟩, rfl⟩
    refine ⟨hs, slen, hslen, c.flip, List.mem_map_of_mem hc, ?_, (admits_mirror r).mpr hadm⟩
    rw [classify_flip (subjectId_ne hc hs), hcl]
    rfl

/-- A table overflows on the other strand exactly when it does on this one. -/
theorem faulty_flip_iff (reverse : Bool) :
    f.Faulty q qlen mode minHits t (!reverse) ↔ f.Faulty q qlen mode minHits t reverse := by
  unfold Faulty
  simp only [ChainRule.clusters_flip]
  constructor
  · rintro ⟨s, hs, slen, hslen, c', hc', e, he⟩
    obtain ⟨c, hc, rfl⟩ := List.mem_map.mp hc'
    rw [classify_flip (subjectId_ne hc hs)] at he
    cases hcl : f.classify q qlen slen c t with
    | error e' => exact ⟨s, hs, slen, hslen, c, hc, e', hcl⟩
    | ok o =>
      rw [hcl] at he
      nomatch he
  · rintro ⟨s, hs, slen, hslen, c, hc, e, he⟩
    refine ⟨s, hs, slen, hslen, c.flip, List.mem_map_of_mem hc, e, ?_⟩
    rw [classify_flip (subjectId_ne hc hs), he]
    rfl

/-! ## The kept entries without ties -/

/-- No two candidates of a subject tie: of two different ones, one beats the other. -/
def Untied (Seen : Nat → Relationship → Prop) : Prop :=
  ∀ s r₁ r₂, Seen s r₁ → Seen s r₂ → beats r₁ r₂ = false → beats r₂ r₁ = false → r₁ = r₂

section Untied

variable {Seen Seen' : Nat → Relationship → Prop} {best best' : List (Nat × Relationship)}

/-- Without ties, the entries kept are exactly the candidates that no candidate of their subject
beats. -/
theorem Best.mem_iff (h : Best Seen best) (hu : Untied Seen) {s : Nat} {r : Relationship} :
    (s, r) ∈ best ↔ Seen s r ∧ ∀ r', Seen s r' → beats r' r = false := by
  refine ⟨fun hp => ⟨h.seen _ hp, h.max _ hp⟩, fun ⟨hs, hmax⟩ => ?_⟩
  obtain ⟨⟨s', r'⟩, hp', rfl⟩ := List.mem_map.mp (h.complete s r hs)
  -- the entry kept for the subject and `r` beat each other neither, so they are one
  obtain rfl : r = r' :=
    hu s' r r' hs (h.seen _ hp') (h.max _ hp' r hs) (hmax r' (h.seen _ hp'))
  exact hp'

/-- Entries by strictly increasing subject are fixed by which entries they hold. -/
theorem eq_of_pairwise_of_mem_iff {l₁ l₂ : List (Nat × Relationship)}
    (h₁ : l₁.Pairwise fun a b => a.1 < b.1) (h₂ : l₂.Pairwise fun a b => a.1 < b.1)
    (h : ∀ p, p ∈ l₁ ↔ p ∈ l₂) : l₁ = l₂ := by
  have hnd : ∀ {l : List (Nat × Relationship)}, l.Pairwise (fun a b => a.1 < b.1) → l.Nodup :=
    fun hl => hl.imp fun hab he => by subst he; exact lt_irrefl _ hab
  refine List.Perm.eq_of_pairwise (fun a b _ _ hab hba => absurd (hab.trans hba) (lt_irrefl _))
    h₁ h₂ ?_
  exact (List.perm_ext_iff_of_nodup (hnd h₁) (hnd h₂)).mpr h

/-- Without ties, two searches whose candidates are the mirror of each other keep, sorted by
subject, the mirrored entries. -/
theorem mergeSort_mirror (hb : Best Seen best) (hb' : Best Seen' best') (hu : Untied Seen)
    (hs : ∀ s r', Seen' s r' ↔ ∃ r, Seen s r ∧ r' = r.mirror q qlen) :
    best'.mergeSort (fun a b => a.1 ≤ b.1) =
      (best.mergeSort fun a b => a.1 ≤ b.1).map fun p => (p.1, p.2.mirror q qlen) := by
  have hu' : Untied Seen' := by
    intro s r₁ r₂ h₁ h₂ h₁₂ h₂₁
    obtain ⟨a₁, ha₁, rfl⟩ := (hs s r₁).mp h₁
    obtain ⟨a₂, ha₂, rfl⟩ := (hs s r₂).mp h₂
    rw [beats_mirror] at h₁₂ h₂₁
    rw [hu s a₁ a₂ ha₁ ha₂ h₁₂ h₂₁]
  refine eq_of_pairwise_of_mem_iff (pairwise_mergeSort_subjects hb'.nodup)
    (List.pairwise_map.mpr (pairwise_mergeSort_subjects hb.nodup)) fun ⟨s, r'⟩ => ?_
  rw [(List.mergeSort_perm _ _).mem_iff, hb'.mem_iff hu', List.mem_map]
  constructor
  · rintro ⟨hseen, hmax⟩
    obtain ⟨r, hr, rfl⟩ := (hs s r').mp hseen
    refine ⟨(s, r), (List.mergeSort_perm _ _).mem_iff.mpr ((hb.mem_iff hu).mpr ⟨hr, fun r₀ h₀ => ?_⟩),
      rfl⟩
    rw [← beats_mirror]
    exact hmax _ ((hs s _).mpr ⟨r₀, h₀, rfl⟩)
  · rintro ⟨⟨s₀, r⟩, hp, he⟩
    obtain ⟨hr, hmax⟩ := (hb.mem_iff hu).mp ((List.mergeSort_perm _ _).mem_iff.mp hp)
    obtain ⟨rfl, rfl⟩ := Prod.mk.inj he
    refine ⟨(hs _ _).mpr ⟨r, hr, rfl⟩, fun r₁ h₁ => ?_⟩
    obtain ⟨a, ha, rfl⟩ := (hs _ _).mp h₁
    rw [beats_mirror]
    exact hmax a ha

end Untied

/-! ## Swapping the tables -/

variable {fwd rev : HitTable}

/-- The candidates of the swapped search are those of the search, mirrored. -/
theorem candidate_swap_iff {s : Nat} {r' : Relationship} :
    (f.Candidate q qlen mode minHits rev false s r' ∨ f.Candidate q qlen mode minHits fwd true s r') ↔
      ∃ r, (f.Candidate q qlen mode minHits fwd false s r ∨
        f.Candidate q qlen mode minHits rev true s r) ∧ r' = r.mirror q qlen := by
  constructor
  · rintro (h | h)
    · obtain ⟨r, hr, rfl⟩ := (candidate_flip_iff true).mp h
      exact ⟨r, .inr hr, rfl⟩
    · obtain ⟨r, hr, rfl⟩ := (candidate_flip_iff false).mp h
      exact ⟨r, .inl hr, rfl⟩
  · rintro ⟨r, hr | hr, rfl⟩
    · exact .inr ((candidate_flip_iff false).mpr ⟨r, hr, rfl⟩)
    · exact .inl ((candidate_flip_iff true).mpr ⟨r, hr, rfl⟩)

/-- The swapped search meets a fault exactly when the search does. -/
theorem faulty_swap_iff :
    (f.Faulty q qlen mode minHits rev false ∨ f.Faulty q qlen mode minHits fwd true) ↔
      (f.Faulty q qlen mode minHits fwd false ∨ f.Faulty q qlen mode minHits rev true) := by
  constructor
  · rintro (h | h)
    · exact .inr ((faulty_flip_iff true).mp h)
    · exact .inl ((faulty_flip_iff false).mp h)
  · rintro (h | h)
    · exact .inr ((faulty_flip_iff false).mpr h)
    · exact .inl ((faulty_flip_iff true).mpr h)

/-- Swapping the forward and the reverse table of a search mirrors what it returns, when no two
candidates of a subject tie: an overflow stays an overflow, and the relationships found are
those seen from the reverse complement of the query. -/
theorem infer_swap (f : Finder) (q : Nat) (fwd rev : HitTable) (mode : SearchMode)
    (hu : ∀ qlen, f.length? q = some qlen → Untied fun s r =>
      f.Candidate q qlen mode (f.minHits (max fwd.informativeCodes rev.informativeCodes)) fwd
          false s r ∨
        f.Candidate q qlen mode (f.minHits (max fwd.informativeCodes rev.informativeCodes)) rev
          true s r) :
    f.infer q rev fwd mode =
      (f.infer q fwd rev mode).map (List.map (Relationship.mirror q ((f.length? q).getD 0))) := by
  have hmax : max rev.informativeCodes fwd.informativeCodes =
      max fwd.informativeCodes rev.informativeCodes := max_comm _ _
  cases hq : f.length? q with
  | none =>
    rw [infer_of_length_none hq, infer_of_length_none hq]
    rfl
  | some qlen =>
  by_cases h0 : max fwd.informativeCodes rev.informativeCodes = 0
  · rw [infer_of_informative_zero h0, infer_of_informative_zero (hmax.trans h0)]
    rfl
  have h0 := Nat.pos_of_ne_zero h0
  have h0' : 0 < max rev.informativeCodes fwd.informativeCodes := hmax ▸ h0
  have hu := hu qlen hq
  rw [← hmax] at hu
  -- the swapped search meets the same clusters on the other strand
  by_cases hfault : f.Faulty q qlen mode (f.minHits (max rev.informativeCodes fwd.informativeCodes))
      fwd false ∨ f.Faulty q qlen mode (f.minHits (max rev.informativeCodes fwd.informativeCodes))
      rev true
  · rw [infer_of_faulty hq h0' (faulty_swap_iff.mpr hfault), infer_of_faulty hq h0 (hmax ▸ hfault)]
    rfl
  obtain ⟨hf, hr⟩ := not_or.mp hfault
  obtain ⟨best, hb, h₁⟩ := infer_of_sound hq h0 (hmax ▸ sound_of_not_faulty hf)
    (hmax ▸ sound_of_not_faulty hr)
  obtain ⟨best', hb', h₂⟩ := infer_of_sound hq h0'
    (sound_of_not_faulty fun h => hr ((faulty_flip_iff true).mp h))
    (sound_of_not_faulty fun h => hf ((faulty_flip_iff false).mp h))
  rw [← hmax] at hb
  rw [h₁, h₂, mergeSort_mirror hb hb' hu fun _ _ => candidate_swap_iff]
  simp [Except.map, Relationship.mirror_withScores]

/-- A list of at most one element holds only one. -/
theorem eq_of_mem_of_length_le_one {α : Type} {l : List α} {a b : α} (hl : l.length ≤ 1)
    (ha : a ∈ l) (hb : b ∈ l) : a = b := by
  match l, hl, ha, hb with
  | [_], _, ha, hb => rw [List.mem_singleton] at ha hb; rw [ha, hb]

/-- Tables that give each subject at most one cluster, over both strands, give it at most one
candidate, so none tie. -/
theorem untied_of_clusters
    (h : ∀ s, (f.rule.clusters fwd s false minHits).length +
      (f.rule.clusters rev s true minHits).length ≤ 1) :
    Untied fun s r => f.Candidate q qlen mode minHits fwd false s r ∨
      f.Candidate q qlen mode minHits rev true s r := by
  -- a candidate from a strand uses a cluster of it, so two candidates use the same cluster
  have same : ∀ {t reverse s r₁ r₂}, (f.rule.clusters t s reverse minHits).length ≤ 1 →
      f.Candidate q qlen mode minHits t reverse s r₁ →
      f.Candidate q qlen mode minHits t reverse s r₂ → r₁ = r₂ := by
    rintro t reverse s r₁ r₂ hl ⟨-, l₁, hl₁, c₁, hc₁, hr₁, -⟩ ⟨-, l₂, hl₂, c₂, hc₂, hr₂, -⟩
    obtain rfl := Option.some_inj.mp (hl₁.symm.trans hl₂)
    obtain rfl := eq_of_mem_of_length_le_one hl hc₁ hc₂
    exact Option.some_inj.mp (Except.ok.inj (hr₁.symm.trans hr₂))
  -- a candidate from each strand would need a cluster on each
  have apart : ∀ {s r₁ r₂}, f.Candidate q qlen mode minHits fwd false s r₁ →
      ¬ f.Candidate q qlen mode minHits rev true s r₂ := by
    rintro s r₁ r₂ ⟨-, -, -, c₁, hc₁, -⟩ ⟨-, -, -, c₂, hc₂, -⟩
    have := h s
    have := List.length_pos_of_mem hc₁
    have := List.length_pos_of_mem hc₂
    omega
  rintro s r₁ r₂ (h₁ | h₁) (h₂ | h₂) - -
  · exact same (by have := h s; omega) h₁ h₂
  · exact absurd h₂ (apart h₁)
  · exact absurd h₁ (apart h₂)
  · exact same (by have := h s; omega) h₁ h₂

/-- Tables with fewer than `2 · minHits` hits of each subject, over both strands, give it at most
one cluster, so no two candidates tie. -/
theorem untied_of_hitCount_lt (hmin : 1 ≤ minHits)
    (h : ∀ s, fwd.hitCount s + rev.hitCount s < 2 * minHits) :
    Untied fun s r => f.Candidate q qlen mode minHits fwd false s r ∨
      f.Candidate q qlen mode minHits rev true s r := by
  refine untied_of_clusters fun s => ?_
  have h₁ := ChainRule.length_clusters_le f.rule fwd s false hmin
  have h₂ := ChainRule.length_clusters_le f.rule rev s true hmin
  have hf := fwd.size_hits_le s f.rule.k
  have hr := rev.size_hits_le s f.rule.k
  -- the two strands' hits together make fewer than two clusters' worth
  have hsum : (fwd.hits s f.rule.k).size / minHits + (rev.hits s f.rule.k).size / minHits ≤
      ((fwd.hits s f.rule.k).size + (rev.hits s f.rule.k).size) / minHits :=
    Nat.div_add_div_le_add_div
  have htwo : ((fwd.hits s f.rule.k).size + (rev.hits s f.rule.k).size) / minHits < 2 :=
    (Nat.div_lt_iff_lt_mul (by omega)).2 (by have := h s; omega)
  omega

/-- The search for read 1 in the sample table, on the forward strand, meets the condition of
`infer_swap`: the two hits of subject 0 make at most one cluster. -/
theorem infer_swap_sample :
    (∀ qlen, (Finder.mk #[1000, 900] ⟨15, 100, 3⟩ 5 ⟨0.5⟩).length? 1 = some qlen →
      Untied fun s r =>
        (Finder.mk #[1000, 900] ⟨15, 100, 3⟩ 5 ⟨0.5⟩).Candidate 1 qlen {}
            ((Finder.mk #[1000, 900] ⟨15, 100, 3⟩ 5 ⟨0.5⟩).minHits
              (max HitTable.sampleTable.informativeCodes HitTable.empty.informativeCodes))
            .sampleTable false s r ∨
          (Finder.mk #[1000, 900] ⟨15, 100, 3⟩ 5 ⟨0.5⟩).Candidate 1 qlen {}
            ((Finder.mk #[1000, 900] ⟨15, 100, 3⟩ 5 ⟨0.5⟩).minHits
              (max HitTable.sampleTable.informativeCodes HitTable.empty.informativeCodes))
            .empty true s r) ∧
      (Finder.mk #[1000, 900] ⟨15, 100, 3⟩ 5 ⟨0.5⟩).infer 1 .empty .sampleTable {} =
        ((Finder.mk #[1000, 900] ⟨15, 100, 3⟩ 5 ⟨0.5⟩).infer 1 .sampleTable .empty {}).map
          (List.map (Relationship.mirror 1
            (((Finder.mk #[1000, 900] ⟨15, 100, 3⟩ 5 ⟨0.5⟩).length? 1).getD 0))) := by
  -- a cluster needs at least two hits, and subject 0 has two
  have hmin : 2 ≤ (Finder.mk #[1000, 900] ⟨15, 100, 3⟩ 5 ⟨0.5⟩).minHits
      (max HitTable.sampleTable.informativeCodes HitTable.empty.informativeCodes) := le_max_right _ _
  have hcount : ∀ s, HitTable.sampleTable.hitCount s + HitTable.empty.hitCount s <
      2 * (Finder.mk #[1000, 900] ⟨15, 100, 3⟩ 5 ⟨0.5⟩).minHits
        (max HitTable.sampleTable.informativeCodes HitTable.empty.informativeCodes) := fun s => by
    have := HitTable.hitCount_sampleTable_le s
    have : HitTable.empty.hitCount s = 0 := rfl
    omega
  exact ⟨fun _ _ => untied_of_hitCount_lt (by omega) hcount,
    infer_swap _ 1 .sampleTable .empty {} fun _ _ => untied_of_hitCount_lt (by omega) hcount⟩

end Finder

end OverlapLayout
