import Std.Data.HashMap
import Std.Data.TreeMap
import OverlapLayout.Layout.Position
import OverlapLayout.Stats.Running
/-!
  Merging paths whose ends vote for each other.

  * Each path end casts a vote for the edge with the longest overlap there,
    and one for its cheapest edge when that differs. A vote counts when the
    edge is not dearer than a multiple of the mean path edge cost and joins
    ends, within a window, of two different paths; `JunctionVotes` keeps the
    saturating sum of the costs and the number of votes of each pair of
    signed ends.
  * `pairEnds`: pairs junctions by increasing mean cost, each end used once,
    chaining the end lists of two groups when the junction's ends are at an
    end of each list. Every list holds the signed ends of its paths in
    traversal order, two per path.
  * `LayoutThresholds.mergeClosePaths`: walks each list and joins consecutive
    paths through the edge between them, starting a new path where no edge
    joins.
-/

namespace OverlapLayout

/-- The votes for joining two signed path ends. -/
structure JunctionVotes where
  /-- Sum of the voting edges' costs, held at the largest word. -/
  total : Nat := 0
  /-- Number of votes. -/
  count : Nat := 0
  deriving Repr, Inhabited

namespace JunctionVotes

/-- Adds a vote of an edge of the given cost. -/
def add (v : JunctionVotes) (cost : Nat) : JunctionVotes :=
  { total := min (v.total + cost) (Nat.pow 2 64 - 1), count := v.count + 1 }

/-- The mean cost of the votes, the largest word when there is none. -/
def cost (v : JunctionVotes) : Nat := if v.count = 0 then Nat.pow 2 64 - 1 else v.total / v.count

end JunctionVotes

/-- Junction votes by pair of signed ends, the smaller first. -/
abbrev Junctions := Std.HashMap (Int × Int) JunctionVotes

/-- Groups of signed path ends in traversal order, by group id. -/
abbrev EndLists := Std.TreeMap Int (List Int) compare

/-- Lexicographic order on pairs of integers. -/
def pairLe (a b : Int × Int) : Bool := a.1 < b.1 || (a.1 == b.1 && a.2 ≤ b.2)

/-- One chaining step: joins the lists holding `p1` and `p2` when each is at an
end of its list, reversing the second so that `p2` meets `p1`. -/
def joinEnds (state : Std.HashMap Int Int × EndLists × List Int) (p1 p2 : Int) :
    Std.HashMap Int Int × EndLists × List Int :=
  let (groups, lists, used) := state
  if used.contains p1 || used.contains p2 then state
  else
    match groups.get? p1, groups.get? p2 with
    | some g1, some g2 =>
      if g1 == g2 then state
      else
        match lists.get? g1, lists.get? g2 with
        | some first, some second =>
          let reverseSecond :=
            if second.getLast? == some p2 then some true
            else if second.head? == some p2 then some false else none
          let append :=
            if first.getLast? == some p1 then some true
            else if first.head? == some p1 then some false else none
          match reverseSecond, append with
          | some rev, some app =>
            let second := if rev then second.reverse else second
            let groups := second.foldl (fun m e => m.insert e g1) groups
            let joined := if app then first ++ second else second.reverse ++ first
            (groups, (lists.erase g2).insert g1 joined, p2 :: p1 :: used)
          | _, _ => state
        | _, _ => state
    | _, _ => state

/-- The end lists after pairing the junctions of `n` paths by increasing mean
cost, then by ends. -/
def pairEnds (junctions : Junctions) (n : Nat) : EndLists :=
  let sorted := (junctions.toList.map fun (k, v) => (k, v.cost)).mergeSort fun a b =>
    a.2 < b.2 || (a.2 == b.2 && pairLe a.1 b.1)
  let ids := (List.range n).map fun i => ((i + 1 : Nat) : Int)
  let groups : Std.HashMap Int Int := ids.foldl (fun m i => (m.insert i i).insert (-i) i) {}
  let lists : EndLists := ids.foldl (fun m i => m.insert i [i, -i]) {}
  let (_, lists, _) := sorted.foldl (fun st (k, _) => joinEnds st k.1 k.2) (groups, lists, [])
  lists

/-- The state of walking one end list: the path being grown, the last end
seen, the free path slots and the finished paths. -/
structure MergeWalk where
  /-- The path being grown. -/
  current : Option Path := none
  /-- The last end seen. -/
  lastEnd : Int := 0
  /-- Paths not yet taken. -/
  slots : Array (Option Path)
  /-- Finished paths. -/
  merged : Array Path

/-- Reads one signed end: the second end of a path takes the path from its
slot (reversed when read right to left) and joins it to the path being grown,
or starts a new one if no edge joins them. -/
def MergeWalk.step (g : AssemblyGraph) (w : MergeWalk) (e : Int) : MergeWalk :=
  if e != -w.lastEnd then { w with lastEnd := e }
  else
    let (index, reverse) := if 0 < e then ((e - 1).toNat, true) else ((w.lastEnd - 1).toNat, false)
    let w := { w with lastEnd := e }
    match (w.slots[index]?).join with
    | none => w
    | some next =>
      let w := { w with slots := w.slots.set! index none }
      match w.current.bind fun p => p.connectPath g next reverse with
      | some p => { w with current := some p }
      | none =>
        let next := if reverse then next.reverse else next
        { w with
          current := some next
          merged := match w.current with
            | some p => w.merged.push p
            | none => w.merged }

namespace LayoutThresholds

/-- Adds the vote of the edge `id?` at path end vertex `v`. -/
def vote (t : LayoutThresholds) (g : AssemblyGraph) (positions : Std.HashMap Nat PathLocation)
    (maxCost : Float) (v : Vertex) (id? : Option Nat) (js : Junctions) : Except Panic Junctions := do
  match id?.bind g.edge? with
  | none => return js
  | some e =>
    if maxCost < e.cost.toFloat then return js
    match positions.get? v.id, e.across v with
    | some first, some other =>
      match positions.get? other.id with
      | none => return js
      | some second =>
        if first.path = second.path then return js
        let end1 ← first.endId t.mergeEndWindow
        let end2 ← second.endId t.mergeEndWindow
        match end1, end2 with
        | some a, some b => return js.alter (min a b, max a b) fun v => some ((v.getD {}).add e.cost)
        | _, _ => return js
    | _, _ => return js

/-- Joins paths whose ends vote for each other; `costs` are the costs of the
path edges. Paths get ids from 1 in list order first. -/
def mergeClosePaths (t : LayoutThresholds) (g : AssemblyGraph) (paths : List Path)
    (costs : RunningStats) : Except Panic (List Path) := do
  let paths := paths.zipIdx.map fun (p, i) => { p with id := i + 1 }
  let positions := locate g paths
  let ends := ((paths.flatMap fun p => [p.left, p.right]).mergeSort fun a b =>
    a.sequence < b.sequence || (a.sequence == b.sequence && (!a.start || b.start))).eraseReps
  let maxCost := t.mergeMaxCostFactor * costs.average
  let junctions ← ends.foldlM (fun js v => do
    let longest := g.edgeBestOverlap v
    let js ← t.vote g positions maxCost v longest js
    let cheapest := g.edgeMinCost v
    if cheapest != longest then t.vote g positions maxCost v cheapest js else return js) {}
  let lists := pairEnds junctions paths.length
  let walk := lists.foldl (fun (w : MergeWalk) _ ends =>
    let w := ends.foldl (MergeWalk.step g) { w with current := none, lastEnd := 0 }
    match w.current with
    | some p => { w with merged := w.merged.push p }
    | none => w) { slots := paths.toArray.map some, merged := #[] }
  return walk.merged.toList

end LayoutThresholds

end OverlapLayout
