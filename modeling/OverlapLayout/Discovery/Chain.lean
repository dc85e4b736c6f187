import OverlapLayout.Error
import OverlapLayout.Seed.HitTable
/-!
  Chains of co-linear hits.

  * `HitChain`: hits of the query against one subject, by increasing query
    position, with the placement they predict (`predictedStart`,
    `predictedEnd`), the query bases they cover (`weightedCoverage`), their
    drift per thousand bases (`indelsPerKbp`) and the spread of their
    diagonals (`diagonalSd`).
  * `ChainRule.bestChainIn`: the highest scoring chain among the unused hits,
    sorted by `(query, subject)`. A hit scores `k · weight` alone; it extends a
    chain ending at one of the 64 hits before it when both coordinates grow
    and the diagonals differ by at most the allowed drift, adding
    `min(Δq, Δs, k) · weight` less a gap penalty `0.01 k d + ½ log₂(d + 1)`
    for a drift `d > 0`. Of equal extensions the nearest predecessor wins, of
    equal chains the one ending first. Scores are computed in the numbers of
    a `ScoreNumbers`; `ChainRule.bestChain` computes them in doubles, as
    chaining runs.
  * `ChainRule.chains`: chains taken one after another, each using up its
    hits, while they have at least `minHits` hits and there are fewer than
    the allowed number.
-/

namespace OverlapLayout

/-- Co-linear hits against one subject. -/
structure HitChain where
  /-- The subject. -/
  subjectId : Nat
  /-- The hits come from the reverse complement of the query. -/
  reverse : Bool
  /-- The hits, by increasing query position. -/
  hits : Array WeightedHit
  deriving Repr, Inhabited

namespace HitChain

/-- The first hit; reading it from an empty chain is refused. -/
def first (c : HitChain) : Except Panic WeightedHit :=
  match c.hits[0]? with
  | some h => .ok h
  | none => .error (.indexOutOfBounds 0 0)

/-- The last hit; an empty chain has no last index. -/
def last (c : HitChain) : Except Panic WeightedHit :=
  match c.hits.back? with
  | some h => .ok h
  | none => .error .subOverflow

/-- The subject coordinate where the query would start: the first hit's diagonal. -/
def predictedStart (c : HitChain) : Except Panic Int := do
  pure (← c.first).diagonal

/-- The subject coordinate where the query of length `qlen` would end. -/
def predictedEnd (c : HitChain) (qlen : Int) : Except Panic Int := do
  let h ← c.last
  pure ((h.subject : Int) + qlen - h.query)

/-- Query bases covered by the hits, each base weighted by the first hit
covering it; a hit's end must fit 32 bits. -/
def weightedCoverage (c : HitChain) : Except Panic Float := do
  let step (acc : Nat × Float) (h : WeightedHit) : Except Panic (Nat × Float) := do
    let (covered, total) := acc
    let stop ← checkedAdd 32 h.query h.length
    let start := max h.query covered
    if start < stop then pure (stop, total + (stop - start).toFloat * h.weight)
    else pure (covered, total)
  let (_, total) ← c.hits.foldlM step (0, 0)
  pure total

/-- Sum of the diagonal changes between consecutive hits per thousand bases of
query span; 0 for an empty span. -/
def indelsPerKbp (c : HitChain) : Except Panic Float := do
  let hs := c.hits.toList
  let drift : Int := (hs.zip hs.tail).foldl
    (fun d (a, b) => d + (((b.subject : Int) - a.subject) - ((b.query : Int) - a.query)).natAbs) 0
  let l ← c.last
  let f ← c.first
  let span : Int := ((← checkedAdd 32 l.query l.length) : Int) - f.query
  if span ≤ 0 then pure 0 else pure (1000 * Float.ofInt drift / Float.ofInt span)

/-- The population standard deviation of the hit diagonals. -/
def diagonalSd (c : HitChain) : Float :=
  let n := c.hits.size.toFloat
  let ds := c.hits.toList.map fun h => Float.ofInt h.diagonal
  let mean := ds.foldl (· + ·) 0 / n
  (ds.foldl (fun s d => s + (d - mean) * (d - mean)) 0 / n).sqrt

end HitChain

/-- The numbers chain scores are computed in, with the conversions scoring uses: doubles when
chaining runs (`ScoreNumbers.double`), exact numbers when its choices are reasoned about. -/
structure ScoreNumbers (α : Type) where
  /-- A count as a number. -/
  ofNat : Nat → α
  /-- A signed count as a number. -/
  ofInt : Int → α
  /-- The base-2 logarithm. -/
  log2 : α → α
  /-- The weight of a hit. -/
  weight : WeightedHit → α

/-- Doubles, in which chaining runs. -/
def ScoreNumbers.double : ScoreNumbers Float where
  ofNat := Nat.toFloat
  ofInt := Float.ofInt
  log2 := Float.log2
  weight := WeightedHit.weight

/-- The chaining settings. -/
structure ChainRule where
  /-- The k-mer length. -/
  k : Nat
  /-- The largest allowed drift between chained hits. -/
  maxDrift : Int
  /-- The most chains taken per subject. -/
  maxChains : Nat
  deriving Repr

namespace ChainRule

/-- Predecessors examined for each hit. -/
def lookback : Nat := 64

section Scores

variable {α : Type} [OfNat α 0] [OfNat α 1] [Add α] [Sub α] [Mul α] [OfScientific α] [LT α]
  [DecidableLT α]

/-- The gap penalty of a drift `d > 0`, and 0 for no drift. -/
def gapCost (num : ScoreNumbers α) (k : α) (drift : Nat) : α :=
  if 0 < drift then 0.01 * k * num.ofNat drift + 0.5 * num.log2 (num.ofNat drift + 1) else 0

/-- The extension of hit `i`, read as `hi`, by the chain ending at the hit `t + 1` places
before it: taken when that hit is unused, lies before `hi` in both sequences within the allowed
drift, and scores more than the best extension so far. -/
def relax (r : ChainRule) (num : ScoreNumbers α) (hits : Array WeightedHit) (used : Array Bool)
    (score : Array α) (i : Nat) (hi : WeightedHit) (acc : α × Option Nat) (t : Nat) :
    α × Option Nat :=
  let (best, parent) := acc
  let j := i - 1 - t
  if used.getD j true then (best, parent)
  else
    let hj := hits[j]!
    let dq : Int := (hi.query : Int) - hj.query
    let ds : Int := (hi.subject : Int) - hj.subject
    if dq ≤ 0 ∨ ds ≤ 0 then (best, parent)
    else
      let drift := (ds - dq).natAbs
      if r.maxDrift < drift then (best, parent)
      else
        let matched := num.ofInt (min (min dq ds) r.k)
        let candidate := score.getD j 0 + matched * num.weight hi - gapCost num (num.ofNat r.k) drift
        if best < candidate then (candidate, some j) else (best, parent)

/-- The best extension of hit `i` by a chain ending at one of its predecessors:
the updated score and parent. -/
def extend (r : ChainRule) (num : ScoreNumbers α) (hits : Array WeightedHit) (used : Array Bool)
    (score : Array α) (i : Nat) (hi : WeightedHit) : α × Option Nat :=
  (List.range (i - (i - lookback))).foldl (r.relax num hits used score i hi)
    (num.ofNat r.k * num.weight hi, none)

/-- Follows parents from `i` back to a chain's first hit. -/
def backtrack (parent : Array (Option Nat)) : Nat → Nat → List Nat → List Nat
  | 0, _, acc => acc
  | fuel + 1, i, acc =>
    match parent.getD i none with
    | some j => backtrack parent fuel j (i :: acc)
    | none => i :: acc

/-- The programme at hit `i`: an unused hit takes its best extension as its score and parent,
and becomes the best hit when it scores more than the best so far. -/
def scoreHit (r : ChainRule) (num : ScoreNumbers α) (hits : Array WeightedHit)
    (used : Array Bool) (acc : Array α × Array (Option Nat) × Option Nat) (i : Nat) :
    Array α × Array (Option Nat) × Option Nat :=
  let (score, parent, best) := acc
  if used.getD i true then acc
  else
    let (s, p) := r.extend num hits used score i hits[i]!
    let score := score.set! i s
    let parent := parent.set! i p
    let best := match best with
      | none => some i
      | some b => if score.getD b 0 < s then some i else some b
    (score, parent, best)

/-- The indices of the highest scoring chain among the unused hits, in increasing order, with
scores computed in the numbers `num`. -/
def bestChainIn (r : ChainRule) (num : ScoreNumbers α) (hits : Array WeightedHit)
    (used : Array Bool) : List Nat :=
  let n := hits.size
  let (_, parent, best) :=
    (List.range n).foldl (r.scoreHit num hits used) (Array.replicate n 0, Array.replicate n none, none)
  match best with
  | none => []
  | some b => backtrack parent n b []

end Scores

/-- The indices of the highest scoring chain among the unused hits, in increasing order, with
scores computed in doubles. -/
def bestChain (r : ChainRule) (hits : Array WeightedHit) (used : Array Bool) : List Nat :=
  r.bestChainIn .double hits used

/-- Chains of at least `minHits` hits, taken greedily while fewer than
`maxChains`; each round marks its hits used, so after `hits.size + 1` rounds
only empty chains would remain. -/
def chains (r : ChainRule) (subjectId : Nat) (reverse : Bool) (hits : Array WeightedHit)
    (minHits : Nat) : List HitChain :=
  go (min r.maxChains (hits.size + 1)) (Array.replicate hits.size false) []
where
  go : Nat → Array Bool → List HitChain → List HitChain
    | 0, _, acc => acc.reverse
    | fuel + 1, used, acc =>
      let chain := r.bestChain hits used
      if chain.length < minHits then acc.reverse
      else
        let used := chain.foldl (fun u i => u.set! i true) used
        go fuel used (⟨subjectId, reverse, (chain.map fun i => hits[i]!).toArray⟩ :: acc)

/-- The hits of a subject sorted by query then subject position, chained. -/
def clusters (r : ChainRule) (t : HitTable) (subjectId : Nat) (reverse : Bool) (minHits : Nat) :
    List HitChain :=
  let hits := (t.hits subjectId r.k).toList.mergeSort
    (fun a b => a.query < b.query ∨ (a.query = b.query ∧ a.subject ≤ b.subject))
  r.chains subjectId reverse hits.toArray minHits

end ChainRule

end OverlapLayout
