/-!
  An invertible mixing of k-mer codes.

  `mix64 key mask` scrambles the bits of `key` below `mask` by steps that are
  each a bijection of the words below a mask `2 ^ p - 1`: a negation plus a
  shifted copy, xors with right-shifted copies, and multiplications by odd
  constants (`1 + 2^3 + 2^8`, `1 + 2^2 + 2^4`, `1 + 2^31`). Minimizer windows are
  ordered by it, which keeps poly-A k-mers from being preferred.
-/

namespace OverlapLayout

/-- The mixing of `key` within `mask`, with sums and products wrapping at 2^64. -/
def mix64 (key mask : UInt64) : UInt64 :=
  let key := (~~~key + (key <<< 21)) &&& mask
  let key := key ^^^ (key >>> 24)
  let key := (key + (key <<< 3) + (key <<< 8)) &&& mask
  let key := key ^^^ (key >>> 14)
  let key := (key + (key <<< 2) + (key <<< 4)) &&& mask
  let key := key ^^^ (key >>> 28)
  (key + (key <<< 31)) &&& mask

end OverlapLayout
