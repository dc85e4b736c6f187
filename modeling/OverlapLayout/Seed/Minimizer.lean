import OverlapLayout.Error
import OverlapLayout.Seed.Mix
import OverlapLayout.Seed.Rolling
/-!
  Window minimizers of a byte string.

  A string splits into maximal runs of nucleotides. In a run, the k-mers are
  ordered by their mixed code (`mix64` under the mask `4 ^ k - 1`); of every
  window of `w` consecutive k-mers the least is selected, the leftmost on a
  tie, and a run too short for a whole window gives its least k-mer. A k-mer
  selected by consecutive windows is reported once. Positions are 32-bit
  words: a k-mer starting past `2 ^ 32` is reported at its start modulo
  `2 ^ 32`.

  * `MinimizerScheme.new`: the k-mer length clamped to `1 .. 31` and the
    window length to at least 1.
  * `MinimizerScheme.minimizers`: the selected k-mers, by position.
  * `MinimizerScheme.scan`: the same, after room for the window deque is
    taken: `w + 1` candidates of 32 bytes. A count past a word, or room that
    cannot be taken (`allocate`), stop the scan before it reads anything.

  The scan keeps the candidates of the current window in a deque whose mixed
  codes increase from front to back: a new k-mer removes the larger ones at the
  back, and the front leaves once it is `w` ranks behind.
-/

namespace OverlapLayout

/-- A selected k-mer: its start and its code. -/
structure Minimizer where
  /-- Start of the k-mer in the string, as a 32-bit word: modulo `2 ^ 32`. -/
  position : Nat
  /-- Code of the k-mer. -/
  code : UInt64
  deriving Repr, DecidableEq, Inhabited

/-- The k-mer and window lengths of a minimizer selection. -/
structure MinimizerScheme where
  /-- The k-mer length, in `1 .. 31`. -/
  k : Nat
  /-- The number of k-mers in a window, at least 1. -/
  w : Nat
  deriving Repr, DecidableEq

namespace MinimizerScheme

/-- A scheme with its lengths brought into range. -/
def new (k w : Nat) : MinimizerScheme := ⟨min (max k 1) 31, max w 1⟩

/-- The mask of the codes of `k`-mers, `4 ^ k - 1`. -/
def mask (s : MinimizerScheme) : UInt64 := (1 <<< (2 * s.k).toUInt64) - 1

/-- A k-mer waiting in the window deque. -/
structure Candidate where
  /-- Its mixed code, the order of the window. -/
  key : UInt64
  /-- Its index among the k-mers of the current run. -/
  rank : Nat
  /-- Its start, modulo `2 ^ 32`. -/
  position : Nat
  /-- Its code. -/
  code : UInt64
  deriving Repr, Inhabited

/-- The state of a scan. -/
structure Scan where
  /-- The reader of the current run. -/
  roller : RollingKmer
  /-- Candidates with increasing keys, front first. -/
  window : Array Candidate := #[]
  /-- Number of k-mers in the current run. -/
  run : Nat := 0
  /-- Position of the last reported k-mer. -/
  lastEmitted : Option Nat := none
  /-- The reported k-mers. -/
  out : Array Minimizer := #[]

/-- Reports the front of the window unless it was the last one reported. -/
def Scan.emitFront (st : Scan) : Scan :=
  match st.window[0]? with
  | none => st
  | some f =>
    if st.lastEmitted = some f.position then st
    else { st with lastEmitted := some f.position, out := st.out.push ⟨f.position, f.code⟩ }

/-- Closes the run: a run shorter than a window reports its least k-mer. -/
def finishRun (s : MinimizerScheme) (st : Scan) : Scan :=
  let st := if 0 < st.run ∧ st.run < s.w then st.emitFront else st
  { st with window := #[], run := 0 }

/-- Reads the byte at index `i`. -/
def step (s : MinimizerScheme) (st : Scan) (i : Nat) (b : UInt8) : Scan :=
  match st.roller.push b with
  | (none, roller) =>
    let st := { st with roller }
    if (Base.ofByte? b).isNone then s.finishRun st else st
  | (some code, roller) =>
    let c : Candidate := ⟨mix64 code s.mask, st.run, (i + 1 - s.k) % Nat.pow 2 32, code⟩
    let window := (st.window.popWhile fun back => c.key < back.key).push c
    let keep := (window.findIdx? fun front => c.rank < front.rank + s.w).getD window.size
    let st := { st with roller, window := window.extract keep window.size, run := st.run + 1 }
    if s.w ≤ st.run then st.emitFront else st

/-- The minimizers of a string, by position. -/
def minimizers (s : MinimizerScheme) (seq : Bytes) : Array Minimizer :=
  let st := (seq.zipIdx.foldl (fun st (b, i) => s.step st i b)
    ({ roller := RollingKmer.new s.k } : Scan))
  (if st.window.isEmpty then st else s.finishRun st).out

/-- Bytes of one candidate in the window deque. -/
def candidateBytes : Nat := 32

/-- Takes room for the window deque of a scan, `w + 1` candidates; a collection
that cannot be sized stops the computation. -/
def reserveWindow (alloc : Allocator) (s : MinimizerScheme) : Except Panic Unit := do
  let n ← checkedAdd 64 s.w 1
  allocate alloc n candidateBytes 8

/-- The minimizers of a string, once room for the window deque is taken. -/
def scan (alloc : Allocator) (s : MinimizerScheme) (seq : Bytes) : Except Panic (Array Minimizer) := do
  s.reserveWindow alloc
  pure (s.minimizers seq)

end MinimizerScheme

end OverlapLayout
