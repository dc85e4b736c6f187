import OverlapLayout.Seed.Nucleotide
/-!
  The code of the last `k` nucleotides, kept while a string is read byte by byte.

  * `RollingKmer.push`: a nucleotide shifts into the code (masked to `2k`
    bits, or the whole word when `k ≥ 32`) and lengthens the current run; the
    code is returned once the run has `k` nucleotides. Any other byte empties
    the run.
  * `RollingKmer.reset`: empties the run.
  * `RollingKmer.readAll`: reads a byte string with a fresh reader, emptying
    the run after the bytes at chosen indices, and gives every read's answer.
-/

namespace OverlapLayout

/-- The state of a rolling k-mer reader. -/
structure RollingKmer where
  /-- The k-mer length. -/
  k : Nat
  /-- The code of the nucleotides read in the current run, masked. -/
  code : UInt64 := 0
  /-- Length of the current run. -/
  run : Nat := 0
  deriving Repr

namespace RollingKmer

/-- The bits a code keeps: `2k` low bits, or all 64 when `k ≥ 32`. -/
def mask (k : Nat) : UInt64 :=
  if 32 ≤ k then 0xFFFFFFFFFFFFFFFF else (1 <<< (2 * k).toUInt64) - 1

/-- A reader with an empty run. -/
def new (k : Nat) : RollingKmer := { k }

/-- Empties the run. -/
def reset (r : RollingKmer) : RollingKmer := { r with code := 0, run := 0 }

/-- Reads one byte; returns the code of the k-mer ending at it, if the run is
long enough. -/
def push (r : RollingKmer) (b : UInt8) : Option UInt64 × RollingKmer :=
  match Base.ofByte? b with
  | some x =>
    let code := ((r.code <<< 2) ||| x.code) &&& mask r.k
    let r' := { r with code, run := r.run + 1 }
    (if r.k ≤ r'.run then some code else none, r')
  | none => (none, r.reset)

/-- Reads `seq` as the bytes from index `i` on, emptying the run after each byte
whose index `resetAfter` names; the answers of the reads and the reader left. -/
def readFrom (resetAfter : Nat → Bool) : RollingKmer → Nat → Bytes → List (Option UInt64) × RollingKmer
  | r, _, [] => ([], r)
  | r, i, b :: bs =>
    let (c, r) := r.push b
    let (cs, r) := readFrom resetAfter (if resetAfter i then r.reset else r) (i + 1) bs
    (c :: cs, r)

/-- Reads a whole byte string with a fresh reader of `k`-mers. -/
def readAll (k : Nat) (seq : Bytes) (resetAfter : Nat → Bool) : List (Option UInt64) × RollingKmer :=
  readFrom resetAfter (new k) 0 seq

end RollingKmer

end OverlapLayout
