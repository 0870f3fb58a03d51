import CellForth.Memory

/-!
# Stacks in memory

A stack occupies the cells from `base` up to `limit` and grows upwards; `pointer` is its next
free slot. Bounds are checked before any cell is written, so a full or an empty stack never
touches its neighbours. The list `Stack.toList` of the live cells, bottom first, is what a
stack means; cells above the pointer are left over from earlier use.

An operation that is refused has done nothing, but a row of operations keeps what was done
before the refusal. Words that take several steps begin with the checks that the later ones
need, for items with `Stack.require` and for room with `Stack.requireRoom`.
-/

namespace CellForth

/-- Which of the two stacks, hence which faults it raises. -/
inductive StackKind where
  /-- The stack of operands. -/
  | data
  /-- The stack of return addresses and loop counters. -/
  | returns
  deriving DecidableEq

/-- The fault of a stack without room. -/
def StackKind.overflow : StackKind → Fault
  | data => .stackOverflow
  | returns => .returnStackOverflow

/-- The fault of a stack without enough items. -/
def StackKind.underflow : StackKind → Fault
  | data => .stackUnderflow
  | returns => .returnStackUnderflow

/-- A stack in a range of memory. -/
structure Stack where
  /-- The memory that holds it. -/
  memory : Memory
  /-- The next free slot. -/
  pointer : Cell
  /-- The lowest slot. -/
  base : Cell
  /-- The end of the range, one past the highest slot. -/
  limit : Cell
  /-- Which faults it raises. -/
  kind : StackKind

/-- Operations on a stack. -/
abbrev StackM := EStateM Fault Stack

namespace Stack

/-- The number of items. -/
def size (s : Stack) : Nat :=
  s.pointer.toNat - s.base.toNat

/-- Is nothing on the stack? -/
def isEmpty (s : Stack) : Bool :=
  s.pointer ≤ s.base

/-- The number of items that the range can hold. -/
def capacity (s : Stack) : Nat :=
  s.limit.toNat - s.base.toNat

/-- The number of items for which there is still room. -/
def room (s : Stack) : Nat :=
  s.capacity - s.size

/-- The items, bottom first. -/
def toList (s : Stack) : List Cell :=
  s.memory.slice s.base.toNat (s.base.toNat + s.size)

/-- The item `n` below the top. -/
def peekAt (n : Nat) (s : Stack) : Except Fault Cell :=
  if n < s.size then s.memory.get (s.pointer.toNat - 1 - n) else .error s.kind.underflow

/-- The item `n` below the top. -/
def pick (n : Nat) : StackM Cell :=
  observe (peekAt n)

/-- The top item. -/
def peek : StackM Cell :=
  pick 0

/-- Refuses unless at least `n` items are there. -/
def require (n : Nat) : StackM Unit :=
  observe fun s => demand (n ≤ s.size) s.kind.underflow

/-- Refuses unless `n` more items fit. -/
def requireRoom (n : Nat) : StackM Unit :=
  observe fun s => demand (n ≤ s.room) s.kind.overflow

/-- Puts an item on top. -/
def push (v : Cell) : StackM Unit
  | ⟨memory, pointer, base, limit, kind⟩ =>
    if pointer < limit then
      match Memory.put pointer.toNat v memory with
      | .ok _ memory => .ok () ⟨memory, pointer + 1, base, limit, kind⟩
      | .error e memory => .error e ⟨memory, pointer, base, limit, kind⟩
    else .error kind.overflow ⟨memory, pointer, base, limit, kind⟩

/-- Takes the top item off. -/
def pop : StackM Cell := fun s =>
  if s.isEmpty then .error s.kind.underflow s
  else
    match s.memory.get (s.pointer.toNat - 1) with
    | .ok v => .ok v { s with pointer := s.pointer - 1 }
    | .error e => .error e s

/-- Overwrites the item `n` below the top. -/
def set (n : Nat) (v : Cell) : StackM Unit
  | ⟨memory, pointer, base, limit, kind⟩ =>
    if n < pointer.toNat - base.toNat then
      match Memory.put (pointer.toNat - 1 - n) v memory with
      | .ok _ memory => .ok () ⟨memory, pointer, base, limit, kind⟩
      | .error e memory => .error e ⟨memory, pointer, base, limit, kind⟩
    else .error kind.underflow ⟨memory, pointer, base, limit, kind⟩

/-- Takes the top item off and forgets it. -/
def drop : StackM Unit := do
  let _ ← pop
  return ()

/-- Takes the top two items off. -/
def dropTwo : StackM Unit := do
  require 2
  drop
  drop

/-- Puts two items on top, the second one above the first. -/
def pushTwo (x y : Cell) : StackM Unit := do
  requireRoom 2
  push x
  push y

end Stack

end CellForth
