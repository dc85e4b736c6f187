import Std.Data.HashMap
import OverlapLayout.Seed.Minimizer
import OverlapLayout.Seed.HitTable
/-!
  The seed index: where each minimizer code occurs among indexed sequences.

  * `SeedIndex.addSequence`: appends every minimizer of a sequence to its
    code's occurrences, each packed into a word with the sequence id
    (`Occurrence.pack`); the occurrences of a code grow by doubling, and a
    refused growth is reported. It and `search` scan with the index's scheme,
    and stop where the scan stops.
  * `SeedIndex.search`: the hit table of a query. A code absent from the
    index is registered and counted as not found; a code with more
    occurrences than `maxOccurrences` is counted as repetitive and not
    registered; any other code is registered, gives one hit per occurrence in
    another sequence (each may fail as `HitTable.addHit` does), is counted as
    not found or multi-hit when it gives none or several, and weighs
    `min(depth / occurrences, 1)`.
-/

namespace OverlapLayout

/-- A place where a code occurs: a sequence and a position in it. -/
structure Occurrence where
  /-- The sequence. -/
  sequence : Nat
  /-- The start of the k-mer. -/
  position : Nat
  deriving Repr, DecidableEq, Inhabited

/-- The word an occurrence is stored as: packed as a hit is, the sequence in the high
half. -/
def Occurrence.pack (o : Occurrence) : UInt64 := Hit.pack ⟨o.sequence, o.position⟩

/-- The occurrence a stored word stands for. -/
def Occurrence.unpack (w : UInt64) : Occurrence :=
  let h := Hit.unpack w
  ⟨h.query, h.subject⟩

/-- Minimizer codes of indexed sequences and where they occur. -/
structure SeedIndex where
  /-- The minimizer selection. -/
  scheme : MinimizerScheme
  /-- Occurrences of each code, packed (`Occurrence.pack`), in insertion order. -/
  entries : Std.HashMap UInt64 (GrowingVec UInt64) := {}
  /-- Number of codes stored for each indexed sequence. -/
  indexed : Std.HashMap Nat Nat := {}
  /-- Number of occurrences stored. -/
  totalEntries : Nat := 0
  /-- The expected sequencing depth, at least 1. -/
  depth : Nat
  /-- Codes with more occurrences than this are repetitive. -/
  maxOccurrences : Nat

namespace SeedIndex

/-- An empty index; codes occurring more than `max 100 (5 · depth)` times are repetitive. -/
def new (k w depth : Nat) : SeedIndex :=
  let depth := max depth 1
  { scheme := MinimizerScheme.new k w, depth, maxOccurrences := max 100 (5 * depth) }

/-- Sets the repetitive threshold, at least 1. -/
def setMaxOccurrences (ix : SeedIndex) (n : Nat) : SeedIndex :=
  { ix with maxOccurrences := max n 1 }

/-- Appends the occurrence of one minimizer of sequence `id`; the code's occurrences
may have to grow. -/
def addOccurrence (alloc : Allocator) (id : Nat) (e : Std.HashMap UInt64 (GrowingVec UInt64))
    (m : Minimizer) : Except ReserveError (Std.HashMap UInt64 (GrowingVec UInt64)) := do
  let occ ← (e.getD m.code {}).push alloc HitTable.hitBytes (Occurrence.pack ⟨id, m.position⟩)
  pure (e.insert m.code occ)

/-- Indexes the minimizers of sequence `id`, a 32-bit id. -/
def addSequence (alloc : Allocator) (ix : SeedIndex) (id : Nat) (seq : Bytes) :
    Except Fault SeedIndex := do
  let ms ← (ix.scheme.scan alloc seq).mapError .panic
  let entries ← (ms.foldlM (addOccurrence alloc id) ix.entries).mapError (.error ·.toLayoutError)
  pure { ix with entries, indexed := ix.indexed.insert id ms.size,
                 totalEntries := ix.totalEntries + ms.size }

/-- Number of distinct codes. -/
def size (ix : SeedIndex) : Nat := ix.entries.size

/-- Whether a sequence was indexed. -/
def contains (ix : SeedIndex) (id : Nat) : Bool := ix.indexed.contains id

/-- Number of indexed sequences. -/
def indexedCount (ix : SeedIndex) : Nat := ix.indexed.size

/-- Adds the hits of one query minimizer, against the occurrences `occ` of its code. -/
def searchCode (alloc : Allocator) (ix : SeedIndex) (queryId : Nat) (m : Minimizer)
    (acc : HitTable × Std.HashMap UInt64 Float) :
    Except ReserveError (HitTable × Std.HashMap UInt64 Float) := do
  let (t, weights) := acc
  match ix.entries.get? m.code with
  | none => pure ((t.registerCode m.position m.code).recordNotFound, weights)
  | some occ =>
    if ix.maxOccurrences < occ.items.size then pure (t.recordRepetitive, weights)
    else
      let t := t.registerCode m.position m.code
      let others := (occ.items.map Occurrence.unpack).filter fun o => o.sequence ≠ queryId
      let t ← others.foldlM (fun t o => t.addHit alloc o.sequence m.position o.position) t
      let t := if others.size = 0 then t.recordNotFound
        else if others.size = 1 then t else t.recordMultihit
      let weight := min (ix.depth.toFloat / occ.items.size.toFloat) 1.0
      pure (t, weights.insert m.code weight)

/-- The hit table of query `queryId` with sequence `seq`. -/
def search (alloc : Allocator) (ix : SeedIndex) (queryId : Nat) (seq : Bytes) :
    Except Fault HitTable := do
  let ms ← (ix.scheme.scan alloc seq).mapError .panic
  let (t, weights) ← (ms.foldlM (fun acc m => ix.searchCode alloc queryId m acc)
    (HitTable.empty, {})).mapError (.error ·.toLayoutError)
  pure (t.setWeights weights)

end SeedIndex

end OverlapLayout
