import OverlapLayout.Error
/-!
  Seed hits: a k-mer of the query found again in a subject.

  * `Hit`: the start of the k-mer in the query and in the subject, both below
    `2 ^ 32`.
  * `Hit.pack` and `Hit.unpack`: a hit as one 64-bit word, the query start in
    the high half and the subject start in the low half. Packing is a
    bijection onto the words whose order is the lexicographic order of hits.
  * `WeightedHit`: a hit against a named subject, with the k-mer length and
    the weight of its code; its diagonal is `subject - query`.
-/

namespace OverlapLayout

/-- A k-mer found at `query` in the query and at `subject` in a subject. -/
structure Hit where
  /-- Start in the query. -/
  query : Nat
  /-- Start in the subject. -/
  subject : Nat
  deriving Repr, DecidableEq, Inhabited

namespace Hit

/-- The hit as a word: `query · 2 ^ 32 + subject`. -/
def pack (h : Hit) : UInt64 :=
  (h.query.toUInt64 <<< 32) ||| (h.subject % Nat.pow 2 32).toUInt64

/-- The hit of a word: its high and low halves. -/
def unpack (code : UInt64) : Hit :=
  ⟨(code >>> 32).toNat, (code &&& 0xFFFFFFFF).toNat⟩

end Hit

/-- A hit against subject `subjectId`, with its k-mer length and weight. -/
structure WeightedHit where
  /-- The subject sequence. -/
  subjectId : Nat
  /-- Start in the query. -/
  query : Nat
  /-- Start in the subject. -/
  subject : Nat
  /-- The k-mer length. -/
  length : Nat
  /-- Weight of the k-mer's code. -/
  weight : Float
  deriving Repr, Inhabited

/-- The diagonal of a hit: subject start less query start. -/
def WeightedHit.diagonal (h : WeightedHit) : Int := (h.subject : Int) - h.query

end OverlapLayout
