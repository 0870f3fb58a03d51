import CellForth.HostError
import CellForth.Memory

/-!
# Sizes and regions

A configuration gives the size of memory and of the two stacks, in cells. `Config.layout`
places the regions from low to high: the reserved cells, the dictionary, the data stack and
the return stack, which ends where memory does.
-/

namespace CellForth

/-- The sizes of memory and of its stacks, in cells. -/
structure Config where
  /-- The size of the whole memory. -/
  coreSize : Nat := 32768
  /-- The size of the data stack. -/
  dataStackSize : Nat := 64
  /-- The size of the return stack. -/
  returnStackSize : Nat := 128
  deriving DecidableEq

/-- The boundaries of the regions. -/
structure Layout where
  /-- The end of the dictionary and the base of the data stack. -/
  dataBase : Nat
  /-- The end of the data stack and the base of the return stack. -/
  returnBase : Nat
  /-- The end of the return stack. -/
  returnLimit : Nat
  deriving DecidableEq

/-- The largest memory that a cell can address. -/
def maxCoreSize : Nat := 65535

/-- One more than the largest size that the host can add up. -/
def hostRange : Nat := UInt64.size

/-- The regions of a configuration, or the first reason to refuse it. -/
def Config.layout (config : Config) : Except ConfigError Layout :=
  if maxCoreSize < config.coreSize then .error .coreTooLarge
  else if config.dataStackSize = 0 ∨ config.returnStackSize = 0 then .error .emptyStack
  else
    let stackCells := config.dataStackSize + config.returnStackSize
    if hostRange ≤ dictionaryStart + stackCells then .error .sizeOverflow
    else if config.coreSize ≤ dictionaryStart + stackCells then .error .stacksDoNotFit
    else
      let returnBase := config.coreSize - config.returnStackSize
      .ok ⟨returnBase - config.dataStackSize, returnBase, config.coreSize⟩

end CellForth
