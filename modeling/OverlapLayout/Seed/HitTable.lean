import Std.Data.TreeMap
import Std.Data.HashMap
import Std.Data.HashSet
import OverlapLayout.Seed.Hit
/-!
  The hits of one query, grouped by subject.

  * `HitTable`: the row of each subject, reached through a map from subjects
    to rows, holding its hits packed into words (`Hit.pack`) in the order they
    were added; the code registered at each query position (the last
    registration wins), the weight of each code, and counters of codes not
    found, found in several subjects and too repetitive to use.
  * `HitTable.addHit`: appends a packed hit to the row of its subject, which
    is made at the end of the rows the first time; the rows and each row grow
    by doubling (`GrowingVec`), and a refused growth is reported.
  * `HitTable.row`: the hits of a subject, unpacked.
  * `HitTable.hits`: the hits of a subject whose query position has a code,
    with the code's weight (1 by default).
  * `HitTable.distinctCodesIn`: distinct codes of the k-mers lying in a region.
  * `HitTable.withCapacity`: a table with room reserved for a number of
    subjects, refused when the reservation fails.
-/

namespace OverlapLayout

/-- The hits of a query against indexed subjects. -/
structure HitTable where
  /-- The row of each subject with hits. -/
  rowBySubject : Std.TreeMap Nat Nat compare := {}
  /-- The rows: of each subject, its hits packed into words (`Hit.pack`), in insertion
  order. -/
  rows : GrowingVec (GrowingVec UInt64) := {}
  /-- Number of hits added. -/
  totalHits : Nat := 0
  /-- The code of the query k-mer at each registered position. -/
  queryCodes : Std.TreeMap Nat UInt64 compare := {}
  /-- The weight of a code's hits. -/
  codeWeights : Std.HashMap UInt64 Float := {}
  /-- Query codes absent from the index. -/
  notFound : Nat := 0
  /-- Query codes found in more than one place. -/
  multihit : Nat := 0
  /-- Query codes skipped as too repetitive. -/
  repetitive : Nat := 0

namespace HitTable

/-- The empty table. -/
def empty : HitTable := {}

/-- Bytes of one subject row. -/
def rowBytes : Nat := 24

/-- Bytes of one packed hit. -/
def hitBytes : Nat := 8

/-- Buckets of a hash index reserved for `n` entries: 4, 8 or 16 for fewer than 15,
else the power of two at or above `8n / 7`, so that an eighth stays free. -/
def indexBuckets (n : Nat) : Nat :=
  if n < 4 then 4 else if n < 8 then 8 else if n < 15 then 16 else (n * 8 / 7).nextPowerOfTwo

/-- Reserves the hash index from subject ids to rows for `n` subjects: a bucket of
16 bytes and a control byte per bucket, and 16 control bytes more, aligned at 16.
The count `8n` must itself fit a word. -/
def reserveIndex (alloc : Allocator) (n : Nat) : Except ReserveError Unit :=
  if n = 0 then .ok ()
  else if Nat.pow 2 64 ≤ n * 8 then .error .capacityOverflow
  else
    let buckets := indexBuckets n
    reserve.reserveBytes alloc (16 * buckets + buckets + 16) 16

/-- An empty table with room reserved for `capacity` subject rows of eight-byte
alignment, then for the hash index of as many subjects. -/
def withCapacity (alloc : Allocator) (capacity : Nat) : Except LayoutError HitTable :=
  match reserve alloc capacity rowBytes 8 *> reserveIndex alloc capacity with
  | .ok () => .ok { rows := { capacity } }
  | .error e => .error e.toLayoutError

/-- The row of a subject: its own, or a new empty row at the end, for which the rows
may have to grow. -/
def rowFor (alloc : Allocator) (t : HitTable) (subjectId : Nat) :
    Except ReserveError (HitTable × Nat) :=
  match t.rowBySubject.get? subjectId with
  | some r => pure (t, r)
  | none => do
    let r := t.rows.items.size
    let rows ← t.rows.push alloc rowBytes {}
    pure ({ t with rows, rowBySubject := t.rowBySubject.insert subjectId r }, r)

/-- Records a hit of the query k-mer at `query` against `subjectId` at `subject`, both
32-bit positions; the rows, and then the subject's row, may have to grow. -/
def addHit (alloc : Allocator) (t : HitTable) (subjectId query subject : Nat) :
    Except ReserveError HitTable := do
  let (t, r) ← t.rowFor alloc subjectId
  let row ← (t.rows.items.getD r {}).push alloc hitBytes (Hit.pack ⟨query, subject⟩)
  pure { t with rows := { t.rows with items := t.rows.items.setIfInBounds r row },
                totalHits := t.totalHits + 1 }

/-- Registers the code of the query k-mer at `query`. -/
def registerCode (t : HitTable) (query : Nat) (code : UInt64) : HitTable :=
  { t with queryCodes := t.queryCodes.insert query code }

/-- Sets the weight of one code. -/
def setWeight (t : HitTable) (code : UInt64) (weight : Float) : HitTable :=
  { t with codeWeights := t.codeWeights.insert code weight }

/-- Replaces all weights. -/
def setWeights (t : HitTable) (weights : Std.HashMap UInt64 Float) : HitTable :=
  { t with codeWeights := weights }

/-- The packed hits added against a subject, in order. -/
def entries (t : HitTable) (subjectId : Nat) : Array UInt64 :=
  match t.rowBySubject.get? subjectId with
  | some r => (t.rows.items.getD r {}).items
  | none => #[]

/-- The hits added against a subject, in order. -/
def row (t : HitTable) (subjectId : Nat) : Array Hit := (t.entries subjectId).map Hit.unpack

/-- Number of hits against a subject. -/
def hitCount (t : HitTable) (subjectId : Nat) : Nat := (t.entries subjectId).size

/-- Subjects with at least one hit, ascending. -/
def subjects (t : HitTable) : List Nat := t.rowBySubject.keys

/-- Hit counts of the subjects, by ascending subject. -/
def countsBySubject (t : HitTable) : List (Nat × Nat) :=
  t.rowBySubject.toList.map fun (s, r) => (s, (t.rows.items.getD r {}).items.size)

/-- Number of registered query codes. -/
def informativeCodes (t : HitTable) : Nat := t.queryCodes.size

/-- The code registered at a query position. -/
def queryCode? (t : HitTable) (query : Nat) : Option UInt64 := t.queryCodes.get? query

/-- Number of distinct codes in a list. -/
def distinctCount (codes : List UInt64) : Nat :=
  (codes.foldl (fun (s : Std.HashSet UInt64) c => s.insert c) {}).size

/-- Number of distinct codes registered at the query positions of a subject's hits. -/
def distinctKmerCount (t : HitTable) (subjectId : Nat) : Nat :=
  distinctCount ((t.row subjectId).toList.filterMap fun h => t.queryCode? h.query)

/-- The hits of a subject whose query position has a code, in insertion order,
each with the weight of that code (1 when it has none). -/
def hits (t : HitTable) (subjectId k : Nat) : Array WeightedHit :=
  (t.row subjectId).filterMap fun h =>
    (t.queryCode? h.query).map fun code =>
      { subjectId, query := h.query, subject := h.subject, length := k,
        weight := t.codeWeights.getD code 1.0 }

/-- Number of distinct codes of the registered k-mers lying in `[start, stop)`. -/
def distinctCodesIn (t : HitTable) (start stop : Int) (k : Nat) : Nat :=
  distinctCount (t.queryCodes.toList.filterMap fun (pos, code) =>
    if start ≤ (pos : Int) ∧ (pos : Int) + k ≤ stop then some code else none)

/-- Counts a code absent from the index. -/
def recordNotFound (t : HitTable) : HitTable := { t with notFound := t.notFound + 1 }

/-- Counts a code found in several places. -/
def recordMultihit (t : HitTable) : HitTable := { t with multihit := t.multihit + 1 }

/-- Counts a code skipped as repetitive. -/
def recordRepetitive (t : HitTable) : HitTable := { t with repetitive := t.repetitive + 1 }

end HitTable

end OverlapLayout
