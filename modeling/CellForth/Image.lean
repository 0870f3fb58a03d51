import CellForth.Machine

/-!
# Core images

A core image is the registers and then all of memory, cell by cell, the low byte of a cell
before the high one.
-/

namespace CellForth

namespace Image

/-- The two bytes of a cell, low byte first. -/
def encodeCell (c : Cell) : List UInt8 :=
  [Cell.lowByte c, Cell.highByte c]

/-- Cells as bytes. -/
def encode (cs : List Cell) : List UInt8 :=
  cs.flatMap encodeCell

end Image

namespace Machine

/-- The cells of the machine's image. -/
def imageCells (m : Machine) : List Cell :=
  m.regs.toCells ++ m.memory.cells.toList

/-- The machine's image. -/
def image (m : Machine) : List UInt8 :=
  Image.encode m.imageCells

/-- The length of the machine's image, in bytes. -/
def imageLength (m : Machine) : Nat :=
  (Registers.count + m.memory.size) * 2

end Machine

end CellForth
