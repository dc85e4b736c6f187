import Std.Data.HashMap
import OverlapLayout.Error
/-!
  Disjoint sets of `0 .. n - 1`, merged by size.

  * `UnionFind`: only an element that joined another class has a parent, and
    only a class of more than one element records its size, so a structure
    over many elements costs nothing until they are joined.
  * `UnionFind.find`: the representative of an element's class. Parent chains
    are no longer than the number of parents, which bounds the walk.
  * `UnionFind.findHalving`: the representative as the walk that finds it
    leaves the sets: every element it passes is pointed at its grandparent
    (path halving).
  * `UnionFind.union`: finds both representatives that way, then joins the two
    classes, the smaller under the larger (the first on a tie), and reports
    whether they were apart.
  * `UnionFind.create`: the sets after room for a parent and a size word per
    element was taken from the allocator (`allocate`).
  * `UnionFind.findChecked`, `UnionFind.unionChecked`: `findHalving` and
    `union`, refusing an element outside the sets.
-/

namespace OverlapLayout

/-- Disjoint sets of `0 .. count - 1`. -/
structure UnionFind where
  /-- The number of elements. -/
  count : Nat
  /-- The parent of each element that is not a representative. -/
  parent : Std.HashMap Nat Nat := {}
  /-- The size of each class of more than one element, by its representative. -/
  size : Std.HashMap Nat Nat := {}

namespace UnionFind

/-- Every element alone. -/
def new (n : Nat) : UnionFind := { count := n }

/-- Every element alone, once a parent and a size word per element have room. -/
def create (alloc : Allocator) (n : Nat) : Except Panic UnionFind := do
  allocate alloc n 8 8
  allocate alloc n 8 8
  pure (new n)

/-- Follows parents from `x` for at most `fuel` steps. -/
def rootLoop (parent : Std.HashMap Nat Nat) : Nat → Nat → Nat
  | 0, x => x
  | fuel + 1, x =>
    match parent.get? x with
    | some p => rootLoop parent fuel p
    | none => x

/-- The representative of `x`. -/
def find (u : UnionFind) (x : Nat) : Nat := rootLoop u.parent u.parent.size x

/-- Walks from `x` to its representative for at most `fuel` links, pointing each
element it leaves at its grandparent, and goes on from there. -/
def halveLoop (parent : Std.HashMap Nat Nat) : Nat → Nat → Nat × Std.HashMap Nat Nat
  | 0, x => (x, parent)
  | fuel + 1, x =>
    match parent.get? x with
    | some p =>
      -- a representative is its own parent
      let g := (parent.get? p).getD p
      halveLoop (parent.insert x g) fuel g
    | none => (x, parent)

/-- The representative of `x`, and the sets after the walk to it halved its path. -/
def findHalving (u : UnionFind) (x : Nat) : Nat × UnionFind :=
  let (r, parent) := halveLoop u.parent u.parent.size x
  (r, { u with parent })

/-- The size of the class of the representative `r`. -/
def classSize (u : UnionFind) (r : Nat) : Nat := u.size.getD r 1

/-- Puts the representative `rb` under `ra`, whose class takes the size of both. -/
def graft (u : UnionFind) (ra rb : Nat) : UnionFind :=
  { u with parent := u.parent.insert rb ra,
           size := u.size.insert ra (u.classSize ra + u.classSize rb) }

/-- Joins the classes of `a` and `b`; `false` if they were one class already. -/
def union (u : UnionFind) (a b : Nat) : Bool × UnionFind :=
  let (ra, u) := u.findHalving a
  let (rb, u) := u.findHalving b
  if ra = rb then (false, u)
  else if u.classSize ra < u.classSize rb then (true, u.graft rb ra)
  else (true, u.graft ra rb)

/-- Refuses an element outside the sets. -/
def check (u : UnionFind) (x : Nat) : Except Panic Unit :=
  if x < u.count then .ok () else .error (.indexOutOfBounds u.count x)

/-- `findHalving`, refusing an element outside the sets. -/
def findChecked (u : UnionFind) (x : Nat) : Except Panic (Nat × UnionFind) := do
  u.check x
  pure (u.findHalving x)

/-- `union`, refusing an element outside the sets (`a` is checked first). -/
def unionChecked (u : UnionFind) (a b : Nat) : Except Panic (Bool × UnionFind) := do
  u.check a
  u.check b
  pure (u.union a b)

end UnionFind

end OverlapLayout
