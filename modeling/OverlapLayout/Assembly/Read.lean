import OverlapLayout.Seed.Nucleotide
/-!
  Reads and what is known of the genome before assembly.

  * `Read`: a sequence taking part in the assembly, with its id and name.
  * `GenomeEstimate`: the sequencing depth and the expected length of the
    assembly; `GenomeEstimate.ofLengths` divides the total read length by
    the depth (at least 1).
-/

namespace OverlapLayout

/-- A read taking part in the assembly. -/
structure Read where
  /-- Its id, its place in the input. -/
  id : Nat
  /-- Its name. -/
  name : String
  /-- Its bases. -/
  bases : Bytes
  deriving Inhabited

/-- The sequencing depth and expected assembly length. -/
structure GenomeEstimate where
  /-- The most frequent k-mer depth. -/
  modeDepth : Nat
  /-- The expected length of the assembly, 0 when unknown. -/
  expectedLength : Nat
  deriving Repr, DecidableEq

/-- The estimate from the read lengths alone at a given depth. -/
def GenomeEstimate.ofLengths (lengths : List Nat) (modeDepth : Nat) : GenomeEstimate :=
  { modeDepth, expectedLength := lengths.foldl (· + ·) 0 / max modeDepth 1 }

end OverlapLayout
