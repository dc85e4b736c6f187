import Mathlib
import OverlapLayout.Error
/-!
  What a reservation of memory does.

  A reservation fails for a size past the largest collection, whatever the allocator, and
  otherwise exactly when the allocator refuses it. A growing vector appends its item once the
  growth it needs, if any, is reserved; what it becomes does not depend on the allocator.

  * `reserve_eq_ok_iff`, `allocate_eq`: the reservations in one piece.
  * `GrowingVec.pushed`: the vector after one more item, with its grown room. A successful
    push gives it (`GrowingVec.eq_pushed`), and an allocator that serves every request lets
    a push of a vector whose doubled room fits a collection succeed
    (`GrowingVec.push_of_serves`).
-/

namespace OverlapLayout

variable {alloc : Allocator}

/-- A reservation fails for a size past the largest collection, and otherwise when the
allocator refuses a request of some bytes. -/
theorem reserve_eq (count size align : Nat) :
    reserve alloc count size align =
      if maxCollectionBytes align < count * size then .error .capacityOverflow
      else if count * size = 0 ∨ alloc.serves (count * size) = true then .ok ()
      else .error .allocatorRefused := by
  simp only [reserve, reserve.reserveBytes, Bool.or_eq_true, decide_eq_true_eq]

/-- A reservation succeeds when it fits a collection and is empty or served. -/
theorem reserve_eq_ok_iff {count size align : Nat} :
    reserve alloc count size align = .ok () ↔
      count * size ≤ maxCollectionBytes align ∧ (count * size = 0 ∨ alloc.serves (count * size)) := by
  rw [reserve_eq]
  split_ifs with hmax hserve
  · simp only [false_iff, not_and]
    omega
  · exact iff_of_true rfl ⟨Nat.le_of_not_lt hmax, hserve⟩
  · simp only [false_iff, not_and]
    exact fun _ => hserve

/-- Room whose failure cannot be reported: a size past the largest collection overflows the
capacity, and a refused request aborts. -/
theorem allocate_eq (count size align : Nat) :
    allocate alloc count size align =
      if maxCollectionBytes align < count * size then .error .capacityOverflow
      else if count * size = 0 ∨ alloc.serves (count * size) = true then .ok ()
      else .error (.allocationFailed (count * size)) := by
  unfold allocate
  rw [reserve_eq]
  split_ifs <;> rfl

namespace GrowingVec

variable {α : Type} {size : Nat} {v v' : GrowingVec α} {x : α}

/-- The room of a vector after one more item: doubled, or room for one when it had none, if
it was full. -/
def grown (v : GrowingVec α) : Nat :=
  if v.items.size = v.capacity then v.capacity + max v.capacity 1 else v.capacity

/-- The vector after one more item, its room grown as a push grows it. -/
def pushed (v : GrowingVec α) (x : α) : GrowingVec α := ⟨v.items.push x, v.grown⟩

@[simp] theorem items_pushed : (v.pushed x).items = v.items.push x := rfl

/-- A push succeeds exactly when the growth it needs is reserved, and then gives the grown
vector. -/
theorem push_eq_ok_iff :
    v.push alloc size x = .ok v' ↔
      v' = v.pushed x ∧
        (v.items.size = v.capacity → reserve alloc (v.capacity + max v.capacity 1) size 8 = .ok ()) := by
  unfold push pushed grown
  by_cases hfull : v.items.size = v.capacity
  · cases hr : reserve alloc (v.capacity + max v.capacity 1) size 8 with
    | error e => simp [hfull, hr, bind, Except.bind, SeqRight.seqRight]
    | ok u =>
      cases u
      simp [hfull, hr, bind, Except.bind, SeqRight.seqRight, pure, Except.pure,
        eq_comm]
  · simp [hfull, bind, Except.bind, pure, Except.pure, eq_comm]

theorem eq_pushed (h : v.push alloc size x = .ok v') : v' = v.pushed x :=
  (push_eq_ok_iff.mp h).1

/-- An allocator that serves every request grows any vector whose doubled room fits a
collection. -/
theorem push_of_serves (hserves : ∀ n, alloc.serves n = true)
    (hfit : (2 * v.items.size + 1) * size ≤ maxCollectionBytes 8) :
    v.push alloc size x = .ok (v.pushed x) := by
  refine push_eq_ok_iff.mpr ⟨rfl, fun hfull => reserve_eq_ok_iff.mpr ⟨?_, .inr (hserves _)⟩⟩
  -- a full vector asks for twice its items, or for one
  calc (v.capacity + max v.capacity 1) * size ≤ (2 * v.items.size + 1) * size :=
        Nat.mul_le_mul_right _ (by omega)
    _ ≤ maxCollectionBytes 8 := hfit

end GrowingVec

end OverlapLayout
