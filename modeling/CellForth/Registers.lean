import CellForth.Layout

/-!
# Registers

The register set of a machine. All pointers are offsets into memory. `Registers.toCells` is
the order in which a core image holds them.
-/

namespace CellForth

/-- What the outer interpreter does with an ordinary word. -/
inductive Mode where
  /-- It runs the word. -/
  | interpret
  /-- It adds the word to the definition under construction. -/
  | compile
  deriving DecidableEq

/-- The register set. -/
structure Registers where
  /-- The next cell of threaded code, or zero outside of it. -/
  ip : Cell
  /-- The execution token of the word that runs. -/
  w : Cell
  /-- The next free slot of the data stack. -/
  sp : Cell
  /-- The next free slot of the return stack. -/
  rp : Cell
  /-- The next free cell of the dictionary. -/
  here : Cell
  /-- The radix of numbers. -/
  base : Cell
  /-- Whether words are run or compiled. -/
  mode : Mode
  /-- The newest record, or zero. -/
  latest : Cell
  /-- The record under definition, or zero. -/
  defining : Cell
  /-- Has the machine been poisoned? -/
  fault : Bool
  /-- The base of the data stack. -/
  dataBase : Cell
  /-- The end of the data stack. -/
  dataLimit : Cell
  /-- The base of the return stack. -/
  returnBase : Cell
  /-- The end of the return stack. -/
  returnLimit : Cell
  deriving DecidableEq

namespace Registers

/-- Are words compiled rather than run? -/
def isCompiling (regs : Registers) : Bool :=
  regs.mode = .compile

/-- The registers as cells, in the order of a core image. -/
def toCells (regs : Registers) : List Cell :=
  [regs.ip, regs.w, regs.sp, regs.rp, regs.here, regs.base,
    if regs.isCompiling then 1 else 0,
    regs.latest, regs.defining,
    if regs.fault then 1 else 0,
    regs.dataBase, regs.dataLimit, regs.returnBase, regs.returnLimit]

/-- The number of cells in `toCells`. -/
def count : Nat := 14

/-- The registers of a machine that has no words yet. -/
def initial (layout : Layout) : Registers where
  ip := 0
  w := 0
  sp := UInt16.ofNat layout.dataBase
  rp := UInt16.ofNat layout.returnBase
  here := UInt16.ofNat dictionaryStart
  base := 10
  mode := .interpret
  latest := 0
  defining := 0
  fault := false
  dataBase := UInt16.ofNat layout.dataBase
  dataLimit := UInt16.ofNat layout.returnBase
  returnBase := UInt16.ofNat layout.returnBase
  returnLimit := UInt16.ofNat layout.returnLimit

end Registers

end CellForth
