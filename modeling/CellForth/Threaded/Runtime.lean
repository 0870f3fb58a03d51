import CellForth.Machine
import CellForth.Threaded.Opcode

/-!
# Runtime actions

Threaded code is a row of opcodes and execution tokens; the register `ip` names the next one,
and is zero outside of threaded code. Some runtime actions are followed by an operand: a
number, an offset, or a string. Offsets are relative to their own cell and modulo `2 ^ 16`, so
they lead forward and backward. Actions with an operand are refused outside of threaded code.

A counted loop keeps its limit and its index on the return stack. It is left when a step takes
the index over the boundary between `limit - 1` and `limit`, from either side.
-/

namespace CellForth

namespace Exec

/-- Refuses outside of threaded code. -/
def requireThread : Exec Unit :=
  observe fun m => demand (m.regs.ip ≠ 0) .compileOnly

/-- Moves the instruction pointer. -/
def jump (ip : Cell) : Exec Unit :=
  setRegs fun regs => { regs with ip := ip }

/-- The operand behind the current instruction, which is passed over. -/
def operand : Exec Cell := do
  requireThread
  let ip ← reg (·.ip)
  let c ← fetch ip.toNat
  jump (ip + 1)
  return c

/-- Passes over the operand without reading it. -/
def skipOperand : Exec Unit :=
  setRegs fun regs => { regs with ip := regs.ip + 1 }

/-- Adds the offset at the instruction pointer to it. -/
def branch : Exec Unit := do
  requireThread
  let ip ← reg (·.ip)
  let offset ← fetch ip.toNat
  jump (ip + offset)

end Exec

/-- Does a step by `n` take the index, `diff` above the limit, over the boundary below the
limit? It does if the distance changes its sign against the direction of the step. -/
def crossesLimit (diff n : Cell) : Bool :=
  Cell.isNegative (diff ^^^ (diff + n)) && Cell.isNegative (diff ^^^ n)

/-- Steps the index of the innermost loop by `n`; then leaves the loop, or jumps back. -/
def Exec.stepLoop (n : Cell) : Exec Unit := do
  requireThread
  onReturn (Stack.require 2)
  let index ← onReturn (Stack.pick 0)
  let limit ← onReturn (Stack.pick 1)
  if crossesLimit (index - limit) n then do
    onReturn Stack.drop
    onReturn Stack.drop
    skipOperand
  else do
    onReturn (Stack.set 0 (index + n))
    branch

/-- Runs a runtime action. -/
def Runtime.perform : Runtime → Exec Unit
  | nest => do
    let ip ← Exec.reg (·.ip)
    Exec.onReturn (Stack.push ip)
    Exec.setRegs fun regs => { regs with ip := regs.w + 1 }
  | address => do
    let w ← Exec.reg (·.w)
    Exec.push (w + 1)
  | constant => do
    let w ← Exec.reg (·.w)
    let c ← Exec.fetch (w.toNat + 1)
    Exec.push c
  | literal => do
    let c ← Exec.operand
    Exec.push c
  | branch => Exec.branch
  | zeroBranch => do
    Exec.requireThread
    let c ← Exec.pop
    if c = 0 then Exec.branch else Exec.skipOperand
  | enterLoop => do
    Exec.requireThread
    Exec.onData (Stack.require 2)
    let index ← Exec.pop
    let limit ← Exec.pop
    Exec.onReturn (Stack.pushTwo limit index)
  | stepLoop => Exec.stepLoop 1
  | stepLoopBy => do
    Exec.requireThread
    let n ← Exec.pop
    Exec.stepLoop n
  | print => do
    let n ← Exec.operand
    let ip ← Exec.reg (·.ip)
    let bs ← observe fun m => m.memory.getBytes ip.toNat n.toNat
    Exec.jump (ip + UInt16.ofNat (packedLength n.toNat))
    Exec.write bs
  | exit => do
    let ip ← Exec.onReturn Stack.pop
    Exec.jump ip

end CellForth
