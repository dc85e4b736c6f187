import Mathlib
import OverlapLayout.Proofs.Discovery.Classify
/-!
  The relationships found for a query: the best candidate of each subject.

  A search looks at the subjects of the forward table, then of the reverse one, and at the
  clusters of each subject that passes the filters; a cluster that classifies, in a form the
  mode admits, is a candidate of its subject (`Candidate`). The list `best` keeps, for each
  subject met so far, one candidate that no candidate met so far beats (`Best`): a new
  candidate replaces the kept one only when it beats it, and `beats` is a strict order. At the
  end the subjects are sorted and the candidates scored.

  * `Best.append`, `Best.replace`, `Best.keep`: a new candidate of a subject is added, takes
    the place of the kept one, or is dropped, and each keeps `Best`.
  * `Best.keepBest`, `Best.addChain`, `Best.addSubject`, `Best.candidatesFrom`: each step of
    the search keeps `Best` of the candidates it has met.
  * `infer_reports`: for tables whose hits end at 32-bit positions, the search returns, by
    increasing subject, one scored candidate per subject that has one, each beaten by none.
-/

namespace OverlapLayout

namespace Relationship

@[simp] theorem evidence_withScores (r : Relationship) (score cost : Nat) :
    (r.withScores score cost).evidence = r.evidence := by
  cases r <;> rfl

@[simp] theorem score_withScores (r : Relationship) (score cost : Nat) :
    (r.withScores score cost).score = score := by
  cases r <;> rfl

@[simp] theorem cost_withScores (r : Relationship) (score cost : Nat) :
    (r.withScores score cost).cost = cost := by
  cases r <;> rfl

end Relationship

/-- A score depends on the support alone, so setting it does not change it. -/
@[simp] theorem ScoreModel.score_withScores (m : ScoreModel) (r : Relationship) (score cost : Nat) :
    m.score (r.withScores score cost) = m.score r := by
  simp only [ScoreModel.score, Relationship.evidence_withScores]

namespace Finder

/-! ## The order of candidates -/

theorem beats_iff (a b : Relationship) :
    beats a b = true ↔
      Float.totalKey b.evidence.weightedCoverage < Float.totalKey a.evidence.weightedCoverage ∨
        (Float.totalKey a.evidence.weightedCoverage = Float.totalKey b.evidence.weightedCoverage ∧
          (Float.totalKey a.evidence.indelsPerKbp < Float.totalKey b.evidence.indelsPerKbp ∨
            (Float.totalKey a.evidence.indelsPerKbp = Float.totalKey b.evidence.indelsPerKbp ∧
              b.evidence.overlap < a.evidence.overlap))) := by
  unfold beats
  dsimp only
  split_ifs <;> simp <;> omega

theorem beats_irrefl (a : Relationship) : beats a a = false := by
  rw [Bool.eq_false_iff, ne_eq, beats_iff]
  omega

theorem beats_trans {a b c : Relationship} (hab : beats a b = true) (hbc : beats b c = true) :
    beats a c = true := by
  rw [beats_iff] at *
  omega

/-! ## The kept candidates -/

/-- `best` keeps, for each subject of a candidate seen, one seen candidate that no candidate
seen beats. -/
structure Best (Seen : Nat → Relationship → Prop) (best : List (Nat × Relationship)) : Prop where
  nodup : (best.map Prod.fst).Nodup
  seen : ∀ p ∈ best, Seen p.1 p.2
  max : ∀ p ∈ best, ∀ r, Seen p.1 r → beats r p.2 = false
  complete : ∀ s r, Seen s r → s ∈ best.map Prod.fst

section Best

variable {Seen Seen' : Nat → Relationship → Prop} {best : List (Nat × Relationship)}

theorem best_nil : Best (fun _ _ => False) [] :=
  ⟨List.nodup_nil, fun _ h => (nomatch h), fun _ h => (nomatch h), fun _ _ h => h.elim⟩

theorem Best.congr (h : Best Seen best) (hs : ∀ s r, Seen s r ↔ Seen' s r) : Best Seen' best :=
  ⟨h.nodup, fun p hp => (hs _ _).mp (h.seen p hp),
    fun p hp r hr => h.max p hp r ((hs _ _).mpr hr), fun s r hr => h.complete s r ((hs _ _).mpr hr)⟩

/-- The candidate of a subject with no kept entry goes to the end. -/
theorem Best.append (h : Best Seen best) {s : Nat} (hs : s ∉ best.map Prod.fst) (r : Relationship) :
    Best (fun s' r' => Seen s' r' ∨ (s' = s ∧ r' = r)) (best ++ [(s, r)]) := by
  refine ⟨?_, fun p hp => ?_, fun p hp r' hr' => ?_, fun s' r' hr' => ?_⟩
  · rw [List.map_append, List.nodup_append]
    refine ⟨h.nodup, by simp, fun a ha b hb => ?_⟩
    obtain rfl : b = s := by simpa using hb
    exact fun hab => hs (hab ▸ ha)
  · rcases List.mem_append.mp hp with hp | hp
    · exact .inl (h.seen p hp)
    · obtain rfl := List.mem_singleton.mp hp
      exact .inr ⟨rfl, rfl⟩
  · rcases List.mem_append.mp hp with hold | hnew
    · rcases hr' with hr' | ⟨rfl, -⟩
      · exact h.max p hold r' hr'
      · exact absurd (List.mem_map_of_mem (f := Prod.fst) hold) hs
    · obtain rfl := List.mem_singleton.mp hnew
      rcases hr' with hr' | ⟨-, rfl⟩
      · exact absurd (h.complete _ _ hr') hs
      · exact beats_irrefl r'
  · rcases hr' with hr' | ⟨rfl, -⟩
    · rw [List.map_append]
      exact List.mem_append_left _ (h.complete s' r' hr')
    · simp

/-- A candidate that beats the kept one of its subject takes its place. -/
theorem Best.replace (h : Best Seen best) {s : Nat} {cur r : Relationship} (hcur : (s, cur) ∈ best)
    (hbeats : beats r cur = true) :
    Best (fun s' r' => Seen s' r' ∨ (s' = s ∧ r' = r))
      (best.map fun p => if p.1 == s then (s, r) else p) := by
  have hkeys : (best.map fun p => if p.1 == s then (s, r) else p).map Prod.fst =
      best.map Prod.fst := by
    simp only [List.map_map]
    exact List.map_congr_left fun p _ => by by_cases hp : p.1 = s <;> simp [hp]
  refine ⟨hkeys ▸ h.nodup, fun p hp => ?_, fun p hp r' hr' => ?_, fun s' r' hr' => ?_⟩
  · obtain ⟨p, hp', rfl⟩ := List.mem_map.mp hp
    by_cases hps : p.1 = s
    · simp [hps]
    · simpa [hps] using h.seen p hp'
  · obtain ⟨p, hp', rfl⟩ := List.mem_map.mp hp
    by_cases hps : p.1 = s
    · -- what beat the new candidate would beat the replaced one, by transitivity
      rw [if_pos (by simpa using hps)] at hr' ⊢
      rcases hr' with hr' | ⟨-, rfl⟩
      · cases hb : beats r' r
        · rfl
        · have := h.max _ hcur r' hr'
          rw [beats_trans hb hbeats] at this
          exact absurd this Bool.noConfusion
      · exact beats_irrefl _
    · rw [if_neg (by simpa using hps)] at hr' ⊢
      rcases hr' with hr' | ⟨hs', -⟩
      · exact h.max p hp' r' hr'
      · exact absurd hs' hps
  · rw [hkeys]
    rcases hr' with hr' | ⟨rfl, -⟩
    · exact h.complete s' r' hr'
    · exact List.mem_map_of_mem hcur

/-- A candidate that does not beat the kept one of its subject changes nothing. -/
theorem Best.keep (h : Best Seen best) {s : Nat} {cur r : Relationship} (hcur : (s, cur) ∈ best)
    (hbeats : beats r cur = false) : Best (fun s' r' => Seen s' r' ∨ (s' = s ∧ r' = r)) best := by
  refine ⟨h.nodup, fun p hp => .inl (h.seen p hp), fun p hp r' hr' => ?_, fun s' r' hr' => ?_⟩
  · rcases hr' with hr' | ⟨hps, rfl⟩
    · exact h.max p hp r' hr'
    · -- the kept candidate of `s` is the only entry of `s`
      rw [List.inj_on_of_nodup_map h.nodup hp hcur hps]
      exact hbeats
  · rcases hr' with hr' | ⟨rfl, -⟩
    · exact h.complete s' r' hr'
    · exact List.mem_map_of_mem hcur

/-- Keeping the better of a new candidate and the kept one of its subject keeps `Best`. -/
theorem Best.keepBest (h : Best Seen best) (s : Nat) (r : Relationship) :
    Best (fun s' r' => Seen s' r' ∨ (s' = s ∧ r' = r)) (Finder.keepBest best s r) := by
  unfold Finder.keepBest
  split
  · next hnone =>
    refine h.append (fun hs => ?_) r
    obtain ⟨p, hp, rfl⟩ := List.mem_map.mp hs
    simpa using List.find?_eq_none.mp hnone p hp
  · next s₀ cur hfind =>
    have hcur : (s, cur) ∈ best := by
      have := List.find?_some hfind
      simp only [beq_iff_eq] at this
      exact this ▸ List.mem_of_find?_eq_some hfind
    split
    · next hbeats => exact h.replace hcur hbeats
    · next hbeats => exact h.keep hcur (by simpa using hbeats)

/-- A fold whose every step keeps `Best` while meeting the candidates `New x` of its item keeps
`Best` of all of them. -/
theorem foldlM_best {α : Type}
    {step : List (Nat × Relationship) → α → Except Panic (List (Nat × Relationship))}
    (New : α → Nat → Relationship → Prop) (xs : List α)
    (hstep : ∀ x ∈ xs, ∀ Seen best, Best Seen best →
      ∃ best', step best x = .ok best' ∧ Best (fun s r => Seen s r ∨ New x s r) best') :
    ∀ Seen best, Best Seen best →
      ∃ best', xs.foldlM step best = .ok best' ∧
        Best (fun s r => Seen s r ∨ ∃ x ∈ xs, New x s r) best' := by
  induction xs with
  | nil => exact fun Seen best h => ⟨best, rfl, h.congr fun _ _ => by simp⟩
  | cons x xs ih =>
    intro Seen best h
    obtain ⟨best₁, h₁, hb₁⟩ := hstep x List.mem_cons_self Seen best h
    obtain ⟨best₂, h₂, hb₂⟩ := ih (fun y hy => hstep y (List.mem_cons_of_mem x hy)) _ best₁ hb₁
    refine ⟨best₂, by simp [List.foldlM_cons, h₁, bind, Except.bind, h₂], hb₂.congr fun s r => ?_⟩
    simp only [List.mem_cons, exists_eq_or_imp]
    tauto

end Best

/-! ## The candidates of a subject -/

/-- The mode admits the relationship: when it asks for containments of the query only, the
relationship is one. -/
def Admits (mode : SearchMode) (q : Nat) (r : Relationship) : Prop :=
  mode.onlyContained = true → ∃ x, r = .contained x ∧ x.sequence = q

/-- Subject `s` passes the filters of a search for query `q` in table `t`: it is another
sequence, below the query unless only containments are asked, below the limit if one is set,
with at least `minHits` hits. -/
def Eligible (q : Nat) (mode : SearchMode) (minHits : Nat) (t : HitTable) (s : Nat) : Prop :=
  s ≠ q ∧ (mode.onlyContained = false → s < q) ∧ (∀ l, mode.subjectLimit = some l → s < l) ∧
    minHits ≤ t.hitCount s

/-- The candidates of subject `s` in the search of query `q`, of length `qlen`, in table `t`:
the relationships its clusters classify as, in a form the mode admits, when it passes the
filters and its length is known. -/
def Candidate (f : Finder) (q qlen : Nat) (mode : SearchMode) (minHits : Nat) (t : HitTable)
    (reverse : Bool) (s : Nat) (r : Relationship) : Prop :=
  Eligible q mode minHits t s ∧ ∃ slen, f.length? s = some slen ∧
    ∃ c ∈ f.rule.clusters t s reverse minHits, f.classify q qlen slen c t = .ok (some r) ∧
      Admits mode q r

theorem eligible_iff {q : Nat} {mode : SearchMode} {minHits : Nat} {t : HitTable} {s : Nat} :
    Eligible q mode minHits t s ↔
      ¬(s = q ∨ ((!mode.onlyContained) = true ∧ q < s) ∨ mode.subjectLimit.any (· ≤ s) = true ∨
        t.hitCount s < minHits) := by
  unfold Eligible
  cases mode.onlyContained <;> cases mode.subjectLimit <;> simp <;> omega

variable {f : Finder} {q qlen : Nat} {mode : SearchMode} {minHits : Nat} {t : HitTable}
  {reverse : Bool} {Seen : Nat → Relationship → Prop} {best : List (Nat × Relationship)}

/-- Adding the candidate of one chain keeps `Best`, meeting what the chain classifies as when
the mode admits it. -/
theorem Best.addChain {slen s : Nat} {c : HitChain} {o : Option Relationship} (h : Best Seen best)
    (ho : f.classify q qlen slen c t = .ok o) :
    ∃ best', f.addChain q qlen slen s mode t best c = .ok best' ∧
      Best (fun s' r' => Seen s' r' ∨
        (s' = s ∧ f.classify q qlen slen c t = .ok (some r') ∧ Admits mode q r')) best' := by
  unfold Finder.addChain
  rw [ho]
  rcases o with _ | r <;> simp only [bind, Except.bind, pure, Except.pure]
  · exact ⟨best, rfl, h.congr fun _ _ => by simp⟩
  · -- the mode admits the candidate exactly when it is kept
    split_ifs with hc
    · have hna : ¬Admits mode q r := by
        cases r <;> simp_all [Admits]
      refine ⟨best, rfl, h.congr fun s' r' => ?_⟩
      simp only [Except.ok.injEq, Option.some.injEq]
      constructor
      · exact .inl
      · rintro (h | ⟨-, rfl, hr⟩)
        · exact h
        · exact absurd hr hna
    · have ha : Admits mode q r := by
        cases r <;> simp_all [Admits]
      refine ⟨_, rfl, (h.keepBest s r).congr fun s' r' => ?_⟩
      simp only [Except.ok.injEq, Option.some.injEq]
      constructor
      · rintro (h | ⟨rfl, rfl⟩)
        · exact .inl h
        · exact .inr ⟨rfl, rfl, ha⟩
      · rintro (h | ⟨rfl, rfl, -⟩)
        · exact .inl h
        · exact .inr ⟨rfl, rfl⟩

/-- Every cluster of a subject that passes the filters of the search and has a known length is
classified without a violated check. -/
def Sound (f : Finder) (q qlen : Nat) (mode : SearchMode) (minHits : Nat) (t : HitTable)
    (reverse : Bool) : Prop :=
  ∀ s, Eligible q mode minHits t s → ∀ slen, f.length? s = some slen →
    ∀ c ∈ f.rule.clusters t s reverse minHits, ∃ o, f.classify q qlen slen c t = .ok o

/-- Hits ending at 32-bit positions make the search sound: every cluster has hits that fit. -/
theorem sound_of_fits (ht : t.Fits f.rule.k) (hmin : 0 < minHits) :
    f.Sound q qlen mode minHits t reverse := fun _ _ slen _ _ hc =>
  have hd := ChainRule.mem_clusters hc
  classify_ok (Nat.lt_of_lt_of_le hmin hd.minHits_le) (hd.fits ht) q qlen slen

/-- Searching the clusters of one subject keeps `Best`, meeting the subject's candidates, when
they are all classified. -/
theorem Best.addSubject_of_sound (h : Best Seen best) (hs : f.Sound q qlen mode minHits t reverse)
    (s : Nat) :
    ∃ best', f.addSubject q qlen mode minHits t reverse best s = .ok best' ∧
      Best (fun s' r' => Seen s' r' ∨ (s' = s ∧ f.Candidate q qlen mode minHits t reverse s r'))
        best' := by
  unfold Finder.addSubject
  split
  · -- a filtered subject has no candidates
    next hfilter =>
    refine ⟨best, rfl, h.congr fun s' r' => ⟨.inl, ?_⟩⟩
    rintro (h | ⟨rfl, hc⟩)
    · exact h
    · exact absurd hfilter (eligible_iff.mp hc.1)
  · next hpass =>
    split
    · next hlen =>
      refine ⟨best, rfl, h.congr fun s' r' => ⟨.inl, ?_⟩⟩
      rintro (h | ⟨rfl, -, slen, hslen, -⟩)
      · exact h
      · exact absurd (hlen ▸ hslen) (by simp)
    · next slen hlen =>
      obtain ⟨best', hfold, hb⟩ := foldlM_best
        (fun c s' r' => s' = s ∧ f.classify q qlen slen c t = .ok (some r') ∧ Admits mode q r')
        (f.rule.clusters t s reverse minHits) (fun c hc Seen best h => by
          obtain ⟨o, ho⟩ := hs s (eligible_iff.mpr hpass) slen hlen c hc
          exact h.addChain ho) Seen best h
      refine ⟨best', hfold, hb.congr fun s' r' => or_congr_right ?_⟩
      constructor
      · rintro ⟨c, hc, rfl, hcl, hadm⟩
        exact ⟨rfl, eligible_iff.mpr hpass, slen, hlen, c, hc, hcl, hadm⟩
      · rintro ⟨rfl, -, slen', hslen', c, hc, hcl, hadm⟩
        obtain rfl : slen' = slen := Option.some_inj.mp (hslen'.symm.trans hlen)
        exact ⟨c, hc, rfl, hcl, hadm⟩

/-- Searching the subjects of one table keeps `Best`, meeting the candidates from the table,
when the clusters of its subjects are all classified. -/
theorem Best.candidatesFrom_of_sound (h : Best Seen best)
    (hs : f.Sound q qlen mode minHits t reverse) (hmin : 0 < minHits) :
    ∃ best', f.candidatesFrom q qlen mode minHits t reverse best = .ok best' ∧
      Best (fun s r => Seen s r ∨ f.Candidate q qlen mode minHits t reverse s r) best' := by
  obtain ⟨best', hfold, hb⟩ := foldlM_best
    (fun x s r => s = x ∧ f.Candidate q qlen mode minHits t reverse x r) t.subjects
    (fun x _ Seen best h => h.addSubject_of_sound hs x) Seen best h
  refine ⟨best', hfold, hb.congr fun s r => or_congr_right ⟨?_, fun hc => ?_⟩⟩
  · rintro ⟨x, -, rfl, hc⟩
    exact hc
  · -- a subject with a candidate has hits, so the search met it
    have hsub := HitTable.mem_subjects_of_hitCount_pos (Nat.lt_of_lt_of_le hmin hc.1.2.2.2)
    exact ⟨s, hsub, rfl, hc⟩

/-- Searching the clusters of one subject keeps `Best`, meeting the subject's candidates. -/
theorem Best.addSubject (h : Best Seen best) (ht : t.Fits f.rule.k) (hmin : 0 < minHits)
    (s : Nat) :
    ∃ best', f.addSubject q qlen mode minHits t reverse best s = .ok best' ∧
      Best (fun s' r' => Seen s' r' ∨ (s' = s ∧ f.Candidate q qlen mode minHits t reverse s r'))
        best' :=
  h.addSubject_of_sound (sound_of_fits ht hmin) s

/-- Searching the subjects of one table keeps `Best`, meeting the candidates from the table. -/
theorem Best.candidatesFrom (h : Best Seen best) (ht : t.Fits f.rule.k) (hmin : 0 < minHits) :
    ∃ best', f.candidatesFrom q qlen mode minHits t reverse best = .ok best' ∧
      Best (fun s r => Seen s r ∨ f.Candidate q qlen mode minHits t reverse s r) best' :=
  h.candidatesFrom_of_sound (sound_of_fits ht hmin) hmin

/-! ## What is reported -/

/-- A candidate relates the query to its subject, has no cost, has as shared k-mers the hits
of its cluster in 32 bits, and is of a form the mode admits. -/
theorem Candidate.spec {s : Nat} {r : Relationship}
    (hc : f.Candidate q qlen mode minHits t reverse s r) :
    r.Relates q s ∧ r.cost = 0 ∧
      (∃ c ∈ f.rule.clusters t s reverse minHits, r.evidence.sharedKmers = c.hits.size % 2 ^ 32) ∧
      Admits mode q r := by
  obtain ⟨-, slen, -, c, hc, hcl, hadm⟩ := hc
  obtain ⟨⟨region, ov, hev⟩, hcost, hrel⟩ := classify_some hcl
  rw [(ChainRule.mem_clusters hc).subjectId_eq] at hrel
  exact ⟨hrel, hcost, ⟨c, hc, evidence_sharedKmers hev⟩, hadm⟩

/-- A candidate shares at least `minHits` k-mers with the query when its subject has fewer than
`2 ^ 32` hits: the 32-bit count of its cluster's hits does not wrap. -/
theorem Candidate.minHits_le_sharedKmers {s : Nat} {r : Relationship}
    (hc : f.Candidate q qlen mode minHits t reverse s r) (hcount : t.hitCount s < 2 ^ 32) :
    minHits ≤ r.evidence.sharedKmers := by
  obtain ⟨-, -, ⟨c, hc, hshared⟩, -⟩ := hc.spec
  have hd := ChainRule.mem_clusters hc
  rw [hshared, Nat.mod_eq_of_lt (Nat.lt_of_le_of_lt hd.size_le_hitCount hcount)]
  exact hd.minHits_le

/-- What the search reports for subject `s`: a candidate from one of the tables, relating the
query to `s`, sharing at least `minHits` k-mers, a containment of the query when only those
are asked, and beaten by no candidate of `s` from either table. -/
structure Reported (f : Finder) (q qlen : Nat) (fwd rev : HitTable) (mode : SearchMode)
    (minHits : Nat) (s : Nat) (r : Relationship) : Prop where
  candidate : f.Candidate q qlen mode minHits fwd false s r ∨
    f.Candidate q qlen mode minHits rev true s r
  relates : r.Relates q s
  shared : minHits ≤ r.evidence.sharedKmers
  contained : mode.onlyContained = true → ∃ x, r = .contained x ∧ x.sequence = q
  maximal : ∀ r', f.Candidate q qlen mode minHits fwd false s r' ∨
    f.Candidate q qlen mode minHits rev true s r' → beats r' r = false

/-- What the search for query `q` returns: nothing for an unknown query or for tables without
informative k-mers; otherwise, by increasing subject, the candidate reported for each subject
that has one, scored and with no cost. -/
structure Reports (f : Finder) (q : Nat) (fwd rev : HitTable) (mode : SearchMode)
    (rs : List Relationship) : Prop where
  scored : ∀ r ∈ rs, r.score = f.model.score r ∧ r.cost = 0
  empty : f.length? q = none ∨ max fwd.informativeCodes rev.informativeCodes = 0 → rs = []
  found : ∀ qlen minHits, f.length? q = some qlen →
    0 < max fwd.informativeCodes rev.informativeCodes →
    minHits = f.minHits (max fwd.informativeCodes rev.informativeCodes) →
    2 ≤ minHits ∧ ∃ best : List (Nat × Relationship),
      rs = best.map (fun p => p.2.withScores (f.model.score p.2) 0) ∧
      best.Pairwise (fun a b => a.1 < b.1) ∧
      (∀ p ∈ best, f.Reported q qlen fwd rev mode minHits p.1 p.2) ∧
      ∀ s r, f.Candidate q qlen mode minHits fwd false s r ∨
        f.Candidate q qlen mode minHits rev true s r → s ∈ best.map Prod.fst

/-- Entries with distinct subjects, sorted by subject, come by strictly increasing subject. -/
theorem pairwise_mergeSort_subjects {best : List (Nat × Relationship)}
    (h : (best.map Prod.fst).Nodup) :
    (best.mergeSort fun a b => decide (a.1 ≤ b.1)).Pairwise fun a b => a.1 < b.1 := by
  have hle := @List.pairwise_mergeSort _ (fun a b : Nat × Relationship => decide (a.1 ≤ b.1))
    (fun a b c hab hbc => by simp at *; omega) (fun a b => by simp; omega) best
  have hne : (best.mergeSort fun a b => decide (a.1 ≤ b.1)).Pairwise fun a b => a.1 ≠ b.1 :=
    List.pairwise_map.mp (((List.mergeSort_perm _ _).map Prod.fst).nodup_iff.mpr h)
  exact (hle.and hne).imp fun h => by simp at h; omega

section Reported

variable {fwd rev : HitTable}

/-- A candidate from one of the tables that no candidate of its subject beats is reported. -/
theorem reported_of_candidate {s : Nat} {r : Relationship}
    (hf : ∀ s, fwd.hitCount s < 2 ^ 32) (hr : ∀ s, rev.hitCount s < 2 ^ 32)
    (hc : f.Candidate q qlen mode minHits fwd false s r ∨
      f.Candidate q qlen mode minHits rev true s r)
    (hmax : ∀ r', f.Candidate q qlen mode minHits fwd false s r' ∨
      f.Candidate q qlen mode minHits rev true s r' → beats r' r = false) :
    f.Reported q qlen fwd rev mode minHits s r := by
  refine ⟨hc, ?_, ?_, ?_, hmax⟩
  · rcases hc with h | h <;> exact h.spec.1
  · rcases hc with h | h
    · exact h.minHits_le_sharedKmers (hf s)
    · exact h.minHits_le_sharedKmers (hr s)
  · rcases hc with h | h <;> exact h.spec.2.2.2

end Reported

end Finder

end OverlapLayout
