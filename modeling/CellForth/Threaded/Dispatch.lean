import CellForth.Dictionary.Registering
import CellForth.Threaded.Runtime
import CellForth.Words.Arithmetic
import CellForth.Words.Defining
import CellForth.Words.Output
import CellForth.Words.Stacks
import CellForth.Words.Storage

/-!
# Running words

An execution token below the size of the action table is an opcode; any other is the address
of a code field, which holds the opcode. `Exec.execute` runs the word of a token. If its action
is `Action.execute`, the next token comes from the data stack, and so on; each round takes an
item off, so there are at most as many rounds as items.

`Action.resume` is the one action that needs an unbounded number of steps. `Exec.execute` does
not take them: it tells its caller that threaded code is to be run, see
`CellForth.Threaded.Run`.
-/

namespace CellForth

/-- What is left to do after a word. -/
inductive Continuation where
  /-- Nothing. -/
  | done
  /-- The threaded code at the instruction pointer is to be run. -/
  | resume
  deriving DecidableEq

/-- Runs an action that is a single step; the two others do nothing here. -/
def Action.step : Action → Exec Unit
  | stack word => word.perform
  | returns word => word.perform
  | unary word => word.perform
  | binary word => word.perform
  | divMod => Exec.divMod
  | storage word => word.perform
  | radix word => word.perform
  | define word => word.perform
  | control word => word.perform
  | output word => word.perform
  | runtime r => r.perform
  | key => Exec.key
  | parseWord => Exec.parseWord
  | install set => Exec.install set
  | value c => Exec.push c
  | noop => pure ()
  | execute => pure ()
  | resume => pure ()

namespace Exec

/-- The action of an execution token. A token that is not an opcode is kept in the register
`w`, even if it leads to no action. -/
def resolve (xt : Cell) : Exec Action := do
  let size ← observe fun m => .ok m.table.size
  let op ←
    if xt.toNat < size then do
      settle (demand (CodeFields.standard.contains xt = false) .invalidMemoryAddress)
      pure xt
    else do
      setRegs fun regs => { regs with w := xt }
      fetch xt.toNat
  observe fun m =>
    match m.table[op.toNat]? with
    | some action => .ok action
    | none => .error .invalidMemoryAddress

/-- Runs an action, with `rounds` items on the data stack. -/
def actWithin : (rounds : Nat) → Action → Exec Continuation
  | 0, .execute => throw .stackUnderflow
  | rounds + 1, .execute => do
    let xt ← pop
    let action ← resolve xt
    actWithin rounds action
  | _, .resume => return .resume
  | _, action => do
    action.step
    return .done

/-- Runs an action. -/
def act (action : Action) : Exec Continuation := do
  let rounds ← observe fun m => .ok m.dataStack.size
  actWithin rounds action

/-- Runs the word of an execution token. -/
def execute (xt : Cell) : Exec Continuation := do
  let action ← resolve xt
  act action

end Exec

end CellForth
