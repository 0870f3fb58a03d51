import CellForth.Cell
import CellForth.Effect
import CellForth.Fault

/-!
# Core memory

Memory is a fixed arena of cells addressed by offset. Every read and write is checked
against its size, and an offset outside it is the fault `invalidMemoryAddress`.

Byte strings are packed two to a cell, the first byte in the low half; a string of odd length
leaves the high half of its last cell zero. `Memory.putBytes` writes cell by cell and stops
at the first cell outside memory, so a string that does not fit is written as far as it does.
-/

namespace CellForth

/-- Cells below this offset are reserved; offset zero stands for "none". -/
def dictionaryStart : Nat := 256

/-- The number of cells that hold `n` packed bytes. -/
def packedLength (n : Nat) : Nat :=
  (n + 1) / 2

/-- A fixed arena of cells. -/
structure Memory where
  /-- The cells, by offset. -/
  cells : Array Cell

namespace Memory

/-- An arena of `n` cells, all zero. -/
def zeroed (n : Nat) : Memory :=
  ⟨Array.replicate n 0⟩

/-- The number of cells. -/
def size (memory : Memory) : Nat :=
  memory.cells.size

@[simp] theorem size_zeroed (n : Nat) : (zeroed n).size = n := by
  simp [zeroed, size]

/-- Does memory contain the offset? -/
def contains (memory : Memory) (pos : Nat) : Bool :=
  pos < memory.size

/-- The cell at an offset. -/
def get (memory : Memory) (pos : Nat) : Except Fault Cell :=
  match memory.cells[pos]? with
  | some c => .ok c
  | none => .error .invalidMemoryAddress

theorem get_eq_ok_iff {memory : Memory} {pos : Nat} {c : Cell} :
    memory.get pos = .ok c ↔ memory.cells[pos]? = some c := by
  unfold get
  cases memory.cells[pos]? <;> simp

/-- Reading fails exactly outside memory. -/
theorem get_eq_error_iff {memory : Memory} {pos : Nat} {e : Fault} :
    memory.get pos = .error e ↔ memory.size ≤ pos ∧ e = .invalidMemoryAddress := by
  unfold get size
  split
  · rename_i c h
    obtain ⟨hlt, _⟩ := Array.getElem?_eq_some_iff.1 h
    simp only [reduceCtorEq, false_iff, not_and]
    omega
  · rename_i h
    have hle := Array.getElem?_eq_none_iff.1 h
    simp [hle, eq_comm]

/-- Stores a cell at an offset. -/
def put (pos : Nat) (c : Cell) : EStateM Fault Memory Unit
  | ⟨cells⟩ =>
    if h : pos < cells.size then .ok () ⟨cells.set pos c h⟩
    else .error .invalidMemoryAddress ⟨cells⟩

theorem put_of_lt {memory : Memory} {pos : Nat} (c : Cell) (h : pos < memory.size) :
    put pos c memory = .ok () ⟨memory.cells.set pos c h⟩ := by
  have hlt : pos < memory.cells.size := h
  simp [put, hlt]

theorem put_of_le {memory : Memory} {pos : Nat} (c : Cell) (h : memory.size ≤ pos) :
    put pos c memory = .error .invalidMemoryAddress memory := by
  have hlt : ¬ pos < memory.cells.size := Nat.not_lt.2 h
  simp [put, hlt]

/-- Byte `i` of a string packed from `pos` on. -/
def getByte (memory : Memory) (pos i : Nat) : Except Fault UInt8 :=
  match memory.get (pos + i / 2) with
  | .ok c => .ok (if i % 2 = 0 then Cell.lowByte c else Cell.highByte c)
  | .error e => .error e

/-- The first `n` bytes of a string packed from `pos` on. -/
def getBytes (memory : Memory) (pos n : Nat) : Except Fault (List UInt8) :=
  (List.range n).mapM (memory.getByte pos)

/-- The cells from offset `lo` up to but not including `hi`. -/
def slice (memory : Memory) (lo hi : Nat) : List Cell :=
  (memory.cells.extract lo hi).toList

/-- The `n` cells from `pos` on, if all of them lie inside memory. -/
def getCells (memory : Memory) (pos n : Nat) : Except Fault (List Cell) :=
  if n = 0 ∨ pos + n ≤ memory.size then .ok (memory.slice pos (pos + n))
  else .error .invalidMemoryAddress

/-- Packs a string from `pos` on. -/
def putBytes (pos : Nat) : List UInt8 → EStateM Fault Memory Unit
  | [] => pure ()
  | [low] => put pos (Cell.ofBytes low 0)
  | low :: high :: rest => do
    put pos (Cell.ofBytes low high)
    putBytes (pos + 1) rest

end Memory

end CellForth
