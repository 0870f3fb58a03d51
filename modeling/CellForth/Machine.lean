import CellForth.Action
import CellForth.Journal
import CellForth.Registers
import CellForth.Sink
import CellForth.Source
import CellForth.Stack

/-!
# The machine

A machine owns its memory, registers, table of actions, input, output and journal, so any
number of machines can run side by side. Its operations are steps in `Exec`: they end with a
value or with a fault, and a fault keeps what was done before it.

The functions `Exec.onMemory`, `Exec.onData`, `Exec.onReturn`, `Exec.onInput` and `Exec.write`
lift the operations of a part to the whole machine. They take the part out of the machine
before they work on it, so that memory has one owner and is updated in place.
-/

namespace CellForth

/-- A virtual machine. -/
structure Machine where
  /-- Core memory. -/
  memory : Memory
  /-- The registers. -/
  regs : Registers
  /-- The actions, by opcode. -/
  table : Array Action
  /-- Where input comes from. -/
  input : Source
  /-- Where output goes. -/
  output : Sink
  /-- The token read last. -/
  token : List UInt8
  /-- The fault that poisoned the machine. -/
  lastFault : Option Fault
  /-- What the machine reports. -/
  journal : Journal

/-- Operations of a machine. -/
abbrev Exec := EStateM Fault Machine

namespace Machine

/-- The data stack. -/
def dataStack (m : Machine) : Stack where
  memory := m.memory
  pointer := m.regs.sp
  base := m.regs.dataBase
  limit := m.regs.dataLimit
  kind := .data

/-- The return stack. -/
def returnStack (m : Machine) : Stack where
  memory := m.memory
  pointer := m.regs.rp
  base := m.regs.returnBase
  limit := m.regs.returnLimit
  kind := .returns

/-- The machine with another state of its data stack. -/
def withDataStack (m : Machine) (s : Stack) : Machine :=
  { m with memory := s.memory, regs := { m.regs with sp := s.pointer } }

/-- The machine with another state of its return stack. -/
def withReturnStack (m : Machine) (s : Stack) : Machine :=
  { m with memory := s.memory, regs := { m.regs with rp := s.pointer } }

/-- The items on the data stack, bottom first. -/
def dataItems (m : Machine) : List Cell :=
  m.dataStack.toList

/-- The items on the return stack, bottom first. -/
def returnItems (m : Machine) : List Cell :=
  m.returnStack.toList

/-- The free cells of the dictionary. -/
def unused (m : Machine) : Nat :=
  m.regs.dataBase.toNat - m.regs.here.toNat

end Machine

namespace Exec

variable {α : Type}

/-- Runs an operation of memory. -/
@[inline] def onMemory (op : EStateM Fault Memory α) : Exec α
  | ⟨memory, regs, table, input, output, token, lastFault, journal⟩ =>
    match op memory with
    | .ok a memory => .ok a ⟨memory, regs, table, input, output, token, lastFault, journal⟩
    | .error e memory =>
      .error e ⟨memory, regs, table, input, output, token, lastFault, journal⟩

/-- An operation of memory changes the machine's memory and nothing else. -/
theorem onMemory_eq (op : EStateM Fault Memory α) (m : Machine) :
    onMemory op m =
      match op m.memory with
      | .ok a memory => .ok a { m with memory := memory }
      | .error e memory => .error e { m with memory := memory } := by
  cases m
  rfl

/-- Runs an operation of the data stack. -/
@[inline] def onData (op : StackM α) : Exec α
  | ⟨memory, regs, table, input, output, token, lastFault, journal⟩ =>
    match op ⟨memory, regs.sp, regs.dataBase, regs.dataLimit, .data⟩ with
    | .ok a s =>
      .ok a
        ⟨s.memory, { regs with sp := s.pointer }, table, input, output, token, lastFault, journal⟩
    | .error e s =>
      .error e
        ⟨s.memory, { regs with sp := s.pointer }, table, input, output, token, lastFault, journal⟩

/-- An operation of the data stack changes memory and the stack's pointer and nothing else. -/
theorem onData_eq (op : StackM α) (m : Machine) :
    onData op m =
      match op m.dataStack with
      | .ok a s => .ok a (m.withDataStack s)
      | .error e s => .error e (m.withDataStack s) := by
  cases m
  rfl

/-- Runs an operation of the return stack. -/
@[inline] def onReturn (op : StackM α) : Exec α
  | ⟨memory, regs, table, input, output, token, lastFault, journal⟩ =>
    match op ⟨memory, regs.rp, regs.returnBase, regs.returnLimit, .returns⟩ with
    | .ok a s =>
      .ok a
        ⟨s.memory, { regs with rp := s.pointer }, table, input, output, token, lastFault, journal⟩
    | .error e s =>
      .error e
        ⟨s.memory, { regs with rp := s.pointer }, table, input, output, token, lastFault, journal⟩

/-- An operation of the return stack changes memory and the stack's pointer and nothing else. -/
theorem onReturn_eq (op : StackM α) (m : Machine) :
    onReturn op m =
      match op m.returnStack with
      | .ok a s => .ok a (m.withReturnStack s)
      | .error e s => .error e (m.withReturnStack s) := by
  cases m
  rfl

/-- Runs an operation of the input source. -/
@[inline] def onInput (op : EStateM Fault Source α) : Exec α := fun m =>
  match op m.input with
  | .ok a input => .ok a { m with input := input }
  | .error e input => .error e { m with input := input }

/-- Writes bytes to the output sink. -/
def write (bs : List UInt8) : Exec Unit := fun m =>
  match Sink.write bs m.output with
  | .ok _ output => .ok () { m with output := output }
  | .error _ output => .error .outputFailure { m with output := output }

/-- Flushes the output sink. -/
def flush : Exec Unit := fun m =>
  match Sink.flush m.output with
  | .ok _ output => .ok () { m with output := output }
  | .error _ output => .error .outputFailure { m with output := output }

/-- Reads something off the registers. -/
@[inline] def reg (f : Registers → α) : Exec α := fun m =>
  .ok (f m.regs) m

/-- Changes registers. -/
@[inline] def setRegs (f : Registers → Registers) : Exec Unit := fun m =>
  .ok () { m with regs := f m.regs }

/-- The cell at an offset of memory. -/
def fetch (pos : Nat) : Exec Cell :=
  observe fun m => m.memory.get pos

/-- Reports a notice. -/
def report (notice : Notice) : Exec Unit := fun m =>
  .ok () { m with journal := m.journal.record notice }

/-- Puts a cell on the data stack. -/
def push (c : Cell) : Exec Unit :=
  onData (Stack.push c)

/-- Takes a cell off the data stack. -/
def pop : Exec Cell :=
  onData Stack.pop

/-- The top of the data stack. -/
def peek : Exec Cell :=
  onData Stack.peek

end Exec

end CellForth
