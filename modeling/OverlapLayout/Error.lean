/-!
  Failures of the library.

  * `Panic`: a violated runtime check (arithmetic overflow, a shift by the
    width or more, an index past the end); the computation stops there.
  * `LayoutError`: a refused configuration, a failed reservation or a failed
    phase of graph construction; an operation reports it and the caller
    may go on.
  * `Fault`: either of them, for operations that can meet both.
  * `Allocator`: the memory allocator of the system, a parameter of every
    operation that takes memory: which requests, in bytes, it serves.
  * `reserve`, `allocate`: a reservation of memory for a number of items,
    whose failure is reported, or stops the computation. It is too
    large for any collection when its bytes pass the largest signed word
    less the alignment slack; otherwise it fails when the allocator refuses
    it. A refusal that cannot be reported aborts the program
    (`Panic.allocationFailed`), which no worker pool catches
    (`Panic.inPhase`).
  * `GrowingVec`: a vector whose room doubles when it is full, each growth
    a reservation whose failure is reported.

  Each has its message in one function (`Panic.message`, `LayoutError.message`).
-/

namespace OverlapLayout

/-- A violated runtime check. -/
inductive Panic
  /-- A sum left the range of its type. -/
  | addOverflow
  /-- A difference left the range of its type. -/
  | subOverflow
  /-- A product left the range of its type. -/
  | mulOverflow
  /-- A right shift by at least the width. -/
  | shiftRightOverflow
  /-- A read at `index` of a sequence of length `len`. -/
  | indexOutOfBounds (len index : Nat)
  /-- A collection sized beyond the largest collection. -/
  | capacityOverflow
  /-- The upper incomplete gamma function asked at an argument that is not positive. -/
  | gammaArgumentNotPositive
  /-- The allocator refused `bytes` bytes that had to be taken: the program aborts. -/
  | allocationFailed (bytes : Nat)
  deriving Repr, DecidableEq

/-- The text of a violated check. -/
def Panic.message : Panic → String
  | .addOverflow => "attempt to add with overflow"
  | .subOverflow => "attempt to subtract with overflow"
  | .mulOverflow => "attempt to multiply with overflow"
  | .shiftRightOverflow => "attempt to shift right with overflow"
  | .indexOutOfBounds len index =>
    "index out of bounds: the len is " ++ toString len ++ " but the index is " ++ toString index
  | .capacityOverflow => "capacity overflow"
  | .gammaArgumentNotPositive =>
    "called `Result::unwrap()` on an `Err` value: ArgIntervalExcl(\"x\", 0.0, inf)"
  | .allocationFailed bytes => "memory allocation of " ++ toString bytes ++ " bytes failed"

/-- A reported failure of an operation. -/
inductive LayoutError
  /-- A configuration value is refused. -/
  | config (message : String)
  /-- A reservation of memory failed. -/
  | resource (message : String)
  /-- A phase stopped because one of its workers stopped. -/
  | interrupted (phase : String)
  /-- Task `id` of a phase reported a failure. -/
  | taskFailed (phase : String) (id : Nat) (message : String)
  /-- A configuration text is not valid. -/
  | configParse
  /-- A configuration could not be written. -/
  | configSerialize (message : String)
  deriving Repr, DecidableEq

/-- The text of a reported failure. -/
def LayoutError.message : LayoutError → String
  | .config m => "Configuration error: " ++ m
  | .resource m => "Resource error: " ++ m
  | .interrupted phase => "Phase '" ++ phase ++ "' interrupted by a failing worker"
  | .taskFailed phase id m =>
    "Task " ++ toString id ++ " of phase '" ++ phase ++ "' failed: " ++ m
  | .configParse => "TOML parsing error"
  | .configSerialize m => "TOML serialization error: " ++ m

/-- A reported failure or a violated check. -/
inductive Fault
  /-- A reported failure. -/
  | error (e : LayoutError)
  /-- A violated check. -/
  | panic (p : Panic)
  deriving Repr, DecidableEq

/-- What a worker pool makes of a worker that stopped on a violated check: its phase is
interrupted, but a failed allocation aborts the whole program. -/
def Panic.inPhase (phase : String) : Panic → Fault
  | .allocationFailed bytes => .panic (.allocationFailed bytes)
  | _ => .error (.interrupted phase)

/-- What a worker pool makes of a worker's failure: a violated check as `Panic.inPhase`
says, a reported failure as it is. -/
def Fault.inPhase (phase : String) : Fault → Fault
  | .panic p => p.inPhase phase
  | .error e => .error e

/-- Checked sum of two words of `bits` bits. -/
def checkedAdd (bits a b : Nat) : Except Panic Nat :=
  if a + b < Nat.pow 2 bits then .ok (a + b) else .error .addOverflow

/-- Checked product of two words of `bits` bits. -/
def checkedMul (bits a b : Nat) : Except Panic Nat :=
  if a * b < Nat.pow 2 bits then .ok (a * b) else .error .mulOverflow

/-- Why a reservation of memory failed. -/
inductive ReserveError
  /-- The bytes asked for pass the largest collection. -/
  | capacityOverflow
  /-- The memory allocator could not serve the request. -/
  | allocatorRefused
  deriving Repr, DecidableEq

/-- The text of a failed reservation. -/
def ReserveError.message : ReserveError → String
  | .capacityOverflow =>
    "memory allocation failed because the computed capacity exceeded the collection's maximum"
  | .allocatorRefused => "memory allocation failed because the memory allocator returned an error"

/-- The failed reservation as a reported failure. -/
def ReserveError.toLayoutError (e : ReserveError) : LayoutError :=
  .resource ("allocation failed: " ++ e.message)

/-- The largest size in bytes of one collection of items aligned at `align`: the
largest signed word, less the slack that rounding up to the alignment may add. -/
def maxCollectionBytes (align : Nat) : Nat := Nat.pow 2 63 - 1 - (align - 1)

/-- The memory allocator of the system the library runs on. -/
structure Allocator where
  /-- Whether a request for this many bytes is served. -/
  serves : Nat → Bool

/-- Reserves `count` items of `size` bytes aligned at `align`. -/
def reserve (alloc : Allocator) (count size align : Nat) : Except ReserveError Unit :=
  reserveBytes alloc (count * size) align
where
  /-- Reserves `bytes` bytes aligned at `align`; a request of no bytes does not reach the
  allocator. -/
  reserveBytes (alloc : Allocator) (bytes align : Nat) : Except ReserveError Unit :=
    if maxCollectionBytes align < bytes then .error .capacityOverflow
    else if bytes = 0 || alloc.serves bytes then .ok ()
    else .error .allocatorRefused

/-- Takes room for `count` items of `size` bytes aligned at `align` where a failure
cannot be reported: a size past the largest collection overflows the capacity,
and a refused request aborts the program. -/
def allocate (alloc : Allocator) (count size align : Nat) : Except Panic Unit :=
  match reserve alloc count size align with
  | .ok () => .ok ()
  | .error .capacityOverflow => .error .capacityOverflow
  | .error .allocatorRefused => .error (.allocationFailed (count * size))

/-- A vector whose room grows by doubling, each growth reserved from the allocator. -/
structure GrowingVec (α : Type) where
  /-- The items, oldest first. -/
  items : Array α := #[]
  /-- The number of items there is room for. -/
  capacity : Nat := 0

/-- Appends an item of `size` bytes aligned at 8. A full vector first doubles its room,
or takes room for one item when it has none; a refused reservation is reported. -/
def GrowingVec.push {α : Type} (alloc : Allocator) (size : Nat) (v : GrowingVec α) (x : α) :
    Except ReserveError (GrowingVec α) := do
  let capacity ←
    if v.items.size = v.capacity then
      let grown := v.capacity + max v.capacity 1
      reserve alloc grown size 8 *> pure grown
    else pure v.capacity
  pure ⟨v.items.push x, capacity⟩

end OverlapLayout
