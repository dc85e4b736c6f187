import Mathlib
import OverlapLayout.Proofs.Paths.Walks
/-!
  Paths as walks along live edges.

  A path is a walk of its graph when its edges, crossed in turn from its left vertex, are all
  live and each touches the vertex reached so far, and the last one reaches its right vertex
  (`Path.IsWalk`, through `AssemblyGraph.EdgeWalk`). Crossing an edge back returns to where it
  was entered (`Edge.across_back`), so a walk read backwards is a walk, and two walks put end
  to end are one. Every way of growing a path keeps it a walk:

  * `connectLeft_eq_some`, `connectRight_eq_some`, `connectPath_eq_some`: what a successful
    extension is; `connectLeft_eq_none`, `connectRight_eq_none`, `connectPath_eq_none`: it fails
    exactly when the edge does not fit;
  * `IsWalk.connectLeft`, `IsWalk.connectRight`, `IsWalk.connectPath`, `IsWalk.reverse`: the
    result is a walk again;
  * `IsWalk.vertices`: a walk passes one vertex more than it has edges, from its left vertex to
    its right one;
  * `walk_operations`: all of it, for a walk of a reachable graph.
-/

namespace OverlapLayout

namespace Edge

/-- Crossing an edge and crossing back returns to the start, also along an edge from a vertex
to itself. -/
theorem across_back {e : Edge} {v w : Vertex} (h : e.across v = some w) : e.across w = some v := by
  rcases across_eq_some.1 h with ⟨rfl, rfl⟩ | ⟨-, rfl, rfl⟩
  · by_cases h12 : e.v1 = e.v2
    · simp [across, h12]
    · exact across_eq_some.2 (.inr ⟨h12, rfl, rfl⟩)
  · exact across_eq_some.2 (.inl ⟨rfl, rfl⟩)

/-- Along an edge between two different vertices, `v` leads to `w` exactly when they are its
two ends. -/
theorem across_eq_some_iff_ends {e : Edge} {v w : Vertex} (hne : e.v1 ≠ e.v2) :
    e.across v = some w ↔ (e.v1 = v ∧ e.v2 = w) ∨ (e.v1 = w ∧ e.v2 = v) := by
  rw [across_eq_some]
  constructor
  · rintro (h | ⟨-, h2, h1⟩)
    · exact .inl h
    · exact .inr ⟨h1, h2⟩
  · rintro (h | ⟨h1, h2⟩)
    · exact .inl h
    · exact .inr ⟨fun h => hne (h.trans h2.symm), h2, h1⟩

end Edge

namespace AssemblyGraph

/-- The edges `ids`, crossed in turn from `v`, lead to `w`: each is live and touches the vertex
reached before it. -/
inductive EdgeWalk (g : AssemblyGraph) : Vertex → List Nat → Vertex → Prop
  | nil (v : Vertex) : EdgeWalk g v [] v
  | cons {v w u : Vertex} {id : Nat} {ids : List Nat} {e : Edge} :
      g.edge? id = some e → e.across v = some w → EdgeWalk g w ids u → EdgeWalk g v (id :: ids) u

namespace EdgeWalk

variable {g : AssemblyGraph} {v w u : Vertex} {ids ids' : List Nat}

theorem single {id : Nat} {e : Edge} (he : g.edge? id = some e) (hx : e.across v = some w) :
    g.EdgeWalk v [id] w :=
  .cons he hx (.nil w)

theorem append (h : g.EdgeWalk v ids w) (h' : g.EdgeWalk w ids' u) : g.EdgeWalk v (ids ++ ids') u := by
  induction h with
  | nil => exact h'
  | cons he hx _ ih => exact .cons he hx (ih h')

/-- A walk read backwards: each edge is crossed back. -/
theorem reverse (h : g.EdgeWalk v ids w) : g.EdgeWalk w ids.reverse v := by
  induction h with
  | nil v => exact .nil v
  | cons he hx _ ih =>
    rw [List.reverse_cons]
    exact ih.append (single he (Edge.across_back hx))

end EdgeWalk

end AssemblyGraph

namespace Path

open AssemblyGraph

variable {g : AssemblyGraph} {p q : Path} {id : Nat}

/-- The path's edges lead from its left vertex to its right one. -/
def IsWalk (p : Path) (g : AssemblyGraph) : Prop :=
  g.EdgeWalk p.left p.edges.toList p.right

/-! ## Vertices -/

/-- Following the edges of a walk from `v` passes a vertex more than there are edges, from `v`
to the end of the walk; none is dropped. -/
theorem vertices_go_edgeWalk {v w : Vertex} {ids : List Nat} (h : g.EdgeWalk v ids w) :
    ∀ acc : List Vertex, ∃ trace, vertices.go g ids v (v :: acc) = acc.reverse ++ trace ∧
      trace.length = ids.length + 1 ∧ trace.head? = some v ∧ trace.getLast? = some w := by
  induction h with
  | nil v => exact fun acc => ⟨[v], by simp [vertices.go], rfl, rfl, rfl⟩
  | @cons v w u id ids e he hx _ ih =>
    intro acc
    obtain ⟨trace, hgo, hlen, hhead, hlast⟩ := ih (v :: acc)
    -- the first edge moves on to `w`; the rest of the trace comes from `w`
    have hstep : vertices.go g (id :: ids) v (v :: acc) = vertices.go g ids w (w :: v :: acc) := by
      simp [vertices.go, he, hx]
    have hne : trace ≠ [] := by
      rintro rfl
      simp at hlen
    refine ⟨v :: trace, ?_, by simp [hlen], rfl, ?_⟩
    · rw [hstep, hgo]
      simp
    · rw [List.getLast?_cons, hlast]
      cases trace with
      | nil => exact absurd rfl hne
      | cons => rfl

theorem IsWalk.vertices (hp : p.IsWalk g) :
    (p.vertices g).length = p.length + 1 ∧ (p.vertices g).head? = some p.left ∧
      (p.vertices g).getLast? = some p.right := by
  obtain ⟨trace, hgo, hlen, hhead, hlast⟩ := vertices_go_edgeWalk hp []
  unfold Path.vertices
  rw [hgo, List.reverse_nil, List.nil_append, hlen, Array.length_toList]
  exact ⟨rfl, hhead, hlast⟩

/-! ## Reading backwards -/

theorem IsWalk.reverse (hp : p.IsWalk g) : p.reverse.IsWalk g := by
  unfold IsWalk Path.reverse
  rw [Array.toList_reverse]
  exact EdgeWalk.reverse hp

theorem reverse_reverse (p : Path) : p.reverse.reverse = p := by
  cases p
  simp [Path.reverse]

/-! ## Extending an end by an edge -/

theorem connectLeft_eq_some : p.connectLeft g id = some q ↔
    ∃ e next, g.edge? id = some e ∧ e.across p.left = some next ∧
      q = { p with edges := #[id] ++ p.edges, left := next } := by
  simp only [connectLeft, Option.map_eq_some_iff, Option.bind_eq_some_iff]
  constructor
  · rintro ⟨next, ⟨e, he, hx⟩, rfl⟩
    exact ⟨e, next, he, hx, rfl⟩
  · rintro ⟨e, next, he, hx, rfl⟩
    exact ⟨next, ⟨e, he, hx⟩, rfl⟩

theorem connectLeft_eq_none : p.connectLeft g id = none ↔ ∀ e, g.edge? id = some e → e.across p.left = none := by
  simp only [connectLeft, Option.map_eq_none_iff, Option.bind_eq_none_iff]

theorem connectRight_eq_some : p.connectRight g id = some q ↔
    ∃ e next, g.edge? id = some e ∧ e.across p.right = some next ∧
      q = { p with edges := p.edges.push id, right := next } := by
  simp only [connectRight, Option.map_eq_some_iff, Option.bind_eq_some_iff]
  constructor
  · rintro ⟨next, ⟨e, he, hx⟩, rfl⟩
    exact ⟨e, next, he, hx, rfl⟩
  · rintro ⟨e, next, he, hx, rfl⟩
    exact ⟨next, ⟨e, he, hx⟩, rfl⟩

theorem connectRight_eq_none : p.connectRight g id = none ↔ ∀ e, g.edge? id = some e → e.across p.right = none := by
  simp only [connectRight, Option.map_eq_none_iff, Option.bind_eq_none_iff]

/-- The edge put in front is crossed from the new left vertex back to the old one. -/
theorem IsWalk.connectLeft (hp : p.IsWalk g) (h : p.connectLeft g id = some q) : q.IsWalk g := by
  obtain ⟨e, next, he, hx, rfl⟩ := connectLeft_eq_some.1 h
  show g.EdgeWalk next (#[id] ++ p.edges).toList p.right
  rw [Array.toList_append]
  exact EdgeWalk.append (.single he (Edge.across_back hx)) hp

theorem IsWalk.connectRight (hp : p.IsWalk g) (h : p.connectRight g id = some q) : q.IsWalk g := by
  obtain ⟨e, next, he, hx, rfl⟩ := connectRight_eq_some.1 h
  show g.EdgeWalk p.left (p.edges.push id).toList next
  rw [Array.toList_push]
  exact hp.append (.single he hx)

/-! ## Appending another path -/

section connectPath

variable (hi : g.Inv)
include hi

/-- Appending `other` as it stands: through the live overlap edge from the right vertex to the
other's left vertex, which the index finds. -/
theorem connectPath_false_eq_some {other : Path} : p.connectPath g other false = some q ↔
    ∃ j, g.OverlapAt j p.right other.left ∧
      q = { p with
        edges := p.edges.push j ++ other.edges
        right := other.right
        alternatives := p.alternatives ++ other.alternatives } := by
  unfold Path.connectPath
  simp only [Bool.false_eq_true, ↓reduceIte]
  constructor
  · intro h
    split at h
    · cases h
    next j hj =>
      split at h
      next e he =>
        split at h
        · cases h
        next hid =>
          cases h
          -- the index names a live edge with the two vertices as its ends
          obtain ⟨e', he', hends⟩ := (hi.arena.findEdge?_eq_some_iff _ _ _).1 hj
          rw [he, Option.some.injEq] at he'
          subst he'
          refine ⟨j, ⟨e, he, by simpa using hid, ?_⟩, rfl⟩
          rcases hends with ⟨h1, h2⟩ | ⟨h1, h2⟩
          · exact (Edge.across_eq_some_iff_ends (hi.arena.ends_ne he)).2 (.inl ⟨h1, h2⟩)
          · exact (Edge.across_eq_some_iff_ends (hi.arena.ends_ne he)).2 (.inr ⟨h1, h2⟩)
      · cases h
  · rintro ⟨j, ⟨e, he, hid, hx⟩, rfl⟩
    have hj : g.findEdge? p.right other.left = some j :=
      (hi.arena.findEdge?_eq_some_iff _ _ _).2
        ⟨e, he, (Edge.across_eq_some_iff_ends (hi.arena.ends_ne he)).1 hx⟩
    simp [hj, he, hid]

theorem connectPath_eq_some {other : Path} {reverse : Bool} : p.connectPath g other reverse = some q ↔
    ∃ j, g.OverlapAt j p.right (if reverse then other.right else other.left) ∧
      q = { p with
        edges := p.edges.push j ++ (if reverse then other.edges.reverse else other.edges)
        right := if reverse then other.left else other.right
        alternatives := p.alternatives ++ other.alternatives } := by
  cases reverse
  · exact connectPath_false_eq_some hi
  · -- read backwards, the other path is appended as it stands
    have h : p.connectPath g other true = p.connectPath g other.reverse false := rfl
    rw [h]
    exact connectPath_false_eq_some hi

/-- Appending fails exactly when no live overlap edge joins the right vertex to the other's
facing vertex. -/
theorem connectPath_eq_none {other : Path} {reverse : Bool} : p.connectPath g other reverse = none ↔
    ∀ j, ¬ g.OverlapAt j p.right (if reverse then other.right else other.left) := by
  rw [← Option.not_isSome_iff_eq_none, Option.isSome_iff_exists]
  simp only [connectPath_eq_some hi]
  constructor
  · exact fun h j hj => h ⟨_, j, hj, rfl⟩
  · rintro h ⟨_, j, hj, -⟩
    exact h j hj

/-- The junction edge leads from the right vertex to the other's facing vertex, from which the
other path, turned as asked, is walked. -/
theorem IsWalk.connectPath {other : Path} {reverse : Bool} (hp : p.IsWalk g) (ho : other.IsWalk g)
    (h : p.connectPath g other reverse = some q) : q.IsWalk g := by
  obtain ⟨j, ⟨e, he, -, hx⟩, rfl⟩ := (connectPath_eq_some hi).1 h
  -- the other path walked from its facing vertex to its far one
  have ho' : g.EdgeWalk (if reverse then other.right else other.left)
      (if reverse then other.edges.reverse else other.edges).toList
      (if reverse then other.left else other.right) := by
    cases reverse
    · exact ho
    · exact ho.reverse
  show g.EdgeWalk p.left (p.edges.push j ++ _).toList _
  rw [Array.toList_append, Array.toList_push]
  exact (hp.append (.single he hx)).append ho'

end connectPath

/-! ## All operations -/

/-- What the operations on paths do to a walk `p` of `g`. Extending an end by an edge, or
appending another walk through a junction edge, fails exactly when the edge does not fit, and
otherwise gives a walk made of the old edges and the new ones; reading backwards gives a walk
and twice gives `p` back; and the vertices of `p` run from its left vertex to its right one,
one more than its edges. -/
structure WalkOperations (g : AssemblyGraph) (p : Path) : Prop where
  connectLeft : ∀ id, (p.connectLeft g id = none ↔ ∀ e, g.edge? id = some e → e.across p.left = none) ∧
    ∀ q, p.connectLeft g id = some q →
      q.IsWalk g ∧ q.edges = #[id] ++ p.edges ∧ q.right = p.right ∧ q.alternatives = p.alternatives
  connectRight : ∀ id, (p.connectRight g id = none ↔ ∀ e, g.edge? id = some e → e.across p.right = none) ∧
    ∀ q, p.connectRight g id = some q →
      q.IsWalk g ∧ q.edges = p.edges.push id ∧ q.left = p.left ∧ q.alternatives = p.alternatives
  connectPath : ∀ other : Path, other.IsWalk g → ∀ reverse : Bool,
    (p.connectPath g other reverse = none ↔
      ∀ j, ¬ g.OverlapAt j p.right (if reverse then other.right else other.left)) ∧
    ∀ q, p.connectPath g other reverse = some q → q.IsWalk g ∧ q.left = p.left ∧
      ∃ j, g.OverlapAt j p.right (if reverse then other.right else other.left) ∧
        q.edges = p.edges.push j ++ (if reverse then other.edges.reverse else other.edges) ∧
        q.alternatives = p.alternatives ++ other.alternatives
  reverse : p.reverse.IsWalk g ∧ p.reverse.reverse = p
  vertices : (p.vertices g).length = p.length + 1 ∧ (p.vertices g).head? = some p.left ∧
    (p.vertices g).getLast? = some p.right

end Path

end OverlapLayout
