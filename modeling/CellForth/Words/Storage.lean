import CellForth.Dictionary.Space

/-!
# Memory and radix words

These words check everything before they change anything, so one that faults leaves registers
and memory as they were.
-/

namespace CellForth

/-- Runs a memory word. -/
def StorageWord.perform : StorageWord → Exec Unit
  | fetch => do
    let address ← Exec.peek
    let x ← Exec.fetch address.toNat
    Exec.onData (Stack.set 0 x)
  | store => do
    Exec.onData (Stack.require 2)
    let address ← Exec.onData (Stack.pick 0)
    let x ← Exec.onData (Stack.pick 1)
    Exec.onMemory (Memory.put address.toNat x)
    Exec.onData Stack.dropTwo
  | addStore => do
    Exec.onData (Stack.require 2)
    let address ← Exec.onData (Stack.pick 0)
    let n ← Exec.onData (Stack.pick 1)
    let x ← Exec.fetch address.toNat
    Exec.onMemory (Memory.put address.toNat (x + n))
    Exec.onData Stack.dropTwo
  | comma => do
    let x ← Exec.peek
    Exec.compileCell x
    Exec.onData Stack.drop
  | here => do
    let address ← Exec.reg (·.here)
    Exec.push address
  | allot => do
    let n ← Exec.peek
    Exec.allot (Cell.signed n)
    Exec.onData Stack.drop

/-- Runs a radix word. -/
def RadixWord.perform : RadixWord → Exec Unit
  | decimal => Exec.setRegs fun regs => { regs with base := 10 }
  | hex => Exec.setRegs fun regs => { regs with base := 16 }
  | setBase => do
    let base ← Exec.peek
    settle (demand (2 ≤ base ∧ base ≤ 36) .invalidArgument)
    Exec.setRegs fun regs => { regs with base := base }
    Exec.onData Stack.drop
  | getBase => do
    let base ← Exec.reg (·.base)
    Exec.push base

/-- Reads a byte of input onto the data stack, all bits set at the end of input. -/
def Exec.key : Exec Unit := do
  let b ← onInput Source.read
  push (match b with
    | some b => b.toUInt16
    | none => Cell.top)

end CellForth
