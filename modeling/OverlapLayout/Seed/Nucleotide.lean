import OverlapLayout.Error
/-!
  Nucleotides and k-mer codes.

  * `Base`: the four nucleotides, read from a byte of either case
    (`Base.ofByte?`), with the 2-bit code A 0, C 1, G 2, T 3.
  * `complementByte` and `reverseComplement` on byte strings: A↔T and C↔G
    (lower case becomes upper case), any other byte unchanged.
  * `kmerCode?`: the base-4 number of a string of nucleotides, in a 64-bit
    word, so that a string longer than 32 keeps the code of its last 32.
  * `decodeKmer`: the `k` letters of a code, refused (a shift by the width)
    when `k > 32`, and before that when room for the `k` letters cannot be
    taken (`allocate`).
  * `reverseComplementCode`: the code of the reverse complement of a code's
    `k` letters.
-/

namespace OverlapLayout

/-- A byte string, such as a read. -/
abbrev Bytes := List UInt8

/-- A nucleotide. -/
inductive Base
  /-- Adenine, code 0. -/
  | a
  /-- Cytosine, code 1. -/
  | c
  /-- Guanine, code 2. -/
  | g
  /-- Thymine, code 3. -/
  | t
  deriving Repr, DecidableEq

namespace Base

/-- The upper-case letter of a byte that is a lower-case ASCII letter. -/
def upperByte (b : UInt8) : UInt8 :=
  if 97 ≤ b ∧ b ≤ 122 then b - 32 else b

/-- The nucleotide a byte names, in either case. -/
def ofByte? (b : UInt8) : Option Base :=
  match (upperByte b).toNat with
  | 65 => some .a
  | 67 => some .c
  | 71 => some .g
  | 84 => some .t
  | _ => none

/-- The 2-bit code. -/
def code : Base → UInt64
  | .a => 0
  | .c => 1
  | .g => 2
  | .t => 3

/-- The nucleotide of a 2-bit code (only the two low bits count). -/
def ofCode (x : UInt64) : Base :=
  match (x &&& 3).toNat with
  | 0 => .a
  | 1 => .c
  | 2 => .g
  | _ => .t

/-- The upper-case letter. -/
def toByte : Base → UInt8
  | .a => 65
  | .c => 67
  | .g => 71
  | .t => 84

/-- The paired nucleotide. -/
def complement : Base → Base
  | .a => .t
  | .c => .g
  | .g => .c
  | .t => .a

end Base

/-- The complement of a nucleotide byte, in upper case; other bytes are kept. -/
def complementByte (b : UInt8) : UInt8 :=
  match Base.ofByte? b with
  | some x => x.complement.toByte
  | none => b

/-- The reverse complement of a byte string. -/
def reverseComplement (s : Bytes) : Bytes :=
  s.reverse.map complementByte

/-- The code of a nucleotide string: each base shifts the code two places left
and fills the two low bits; bits shifted past the word are lost. `none` if some
byte is not a nucleotide. -/
def kmerCode? (s : Bytes) : Option UInt64 :=
  s.foldlM (fun code b => (Base.ofByte? b).map fun x => (code <<< 2) ||| x.code) 0

/-- The `k` letters of a code, most significant first: the letter `i` places
from the end is the pair of bits `2i, 2i + 1`. Room for the `k` letters is taken
from the allocator first. Reading a letter shifts right by `2i`, which is refused once `2i` reaches
the width 64; the first letter read is the one of `i = k - 1`, so every `k > 32`
is refused. -/
def decodeKmer (alloc : Allocator) (code : UInt64) (k : Nat) : Except Panic Bytes := do
  allocate alloc k 1 1
  if k ≤ 32 then pure ((List.range k).reverse.map fun i => (Base.ofCode (code >>> (2 * i).toUInt64)).toByte)
  else throw .shiftRightOverflow

/-- The code of the reverse complement of the `k` letters of a code: `k` times,
the lowest pair of bits is complemented (`3 - x`) and pushed onto the result.
After 32 steps the rest is empty and each step pushes `3`, so after 64 the result
is all ones and stays so: steps past 64 are not taken. -/
def reverseComplementCode (code : UInt64) (k : Nat) : UInt64 :=
  go (min k 64) code 0
where
  go : Nat → UInt64 → UInt64 → UInt64
    | 0, _, acc => acc
    | n + 1, rest, acc => go n (rest >>> 2) ((acc <<< 2) ||| (3 - (rest &&& 3)))

end OverlapLayout
