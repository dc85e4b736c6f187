import OverlapLayout.Error
/-!
  Contiguity statistics of a set of lengths.

  * `NStats.ofLengths`: count, total, longest and the N10 … N90 lengths. With
    the lengths in non-increasing order, N(10·(i+1)) is the first length at
    which ten times the running sum reaches `(i + 1)` times the total.
  * Sums and products are checked in 64 bits, as they are computed: the
    total first, then per length the running sum and, while a value is
    pending, `10 ·` running sum and `(i + 1) ·` total.
-/

namespace OverlapLayout

/-- Count, total, longest and N10 … N90 of a non-empty set of lengths. -/
structure NStats where
  /-- Number of lengths. -/
  count : Nat
  /-- Their sum. -/
  total : Nat
  /-- The longest. -/
  longest : Nat
  /-- `values[i]` is the N(10·(i+1)) length. -/
  values : Array Nat
  deriving Repr, DecidableEq

namespace NStats

/-- The N50 length. -/
def n50 (s : NStats) : Nat := s.values.getD 4 0

/-- Checked sum of a list of words. -/
def checkedSum : List Nat → Except Panic Nat
  | [] => .ok 0
  | x :: xs => do checkedAdd 64 x (← checkedSum xs)

/-- Fills the pending values reached by the running sum `acc` at `length`,
starting with value `next`. -/
def fill (total acc length : Nat) (next : Nat) (values : Array Nat) :
    Except Panic (Nat × Array Nat) :=
  if h : next < 9 then do
    let lhs ← checkedMul 64 acc 10
    let rhs ← checkedMul 64 total (next + 1)
    if rhs ≤ lhs then fill total acc length (next + 1) (values.set! next length)
    else .ok (next, values)
  else .ok (next, values)
termination_by 9 - next

/-- Walks the lengths in non-increasing order. -/
def walk (total : Nat) : List Nat → Nat → Nat → Array Nat → Except Panic (Array Nat)
  | [], _, _, values => .ok values
  | l :: ls, acc, next, values => do
    let acc ← checkedAdd 64 acc l
    let (next, values) ← fill total acc l next values
    walk total ls acc next values

/-- The statistics of a list of lengths; `none` for no lengths. -/
def ofLengths (lengths : List Nat) : Except Panic (Option NStats) := do
  let sorted := lengths.mergeSort (fun a b => b ≤ a)
  match sorted with
  | [] => .ok none
  | longest :: _ =>
    let total ← checkedSum sorted
    let values ← walk total sorted 0 0 (Array.replicate 9 0)
    .ok (some ⟨sorted.length, total, longest, values⟩)

end NStats

end OverlapLayout
