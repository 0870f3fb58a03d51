import CellForth.Words.Compiling

/-!
# Control structures

While a definition is compiled, open control structures are kept on the data stack. An entry
is an address below a tag, and the tag says what the address is for: a definition, a forward
jump to be resolved, a place to jump back to, or the start of a counted loop. A word that
closes a structure faults unless it meets the tag that it needs.
-/

namespace CellForth

/-- What an entry on the data stack stands for. -/
inductive ControlTag where
  /-- The record of the definition. -/
  | definition
  /-- An offset that awaits its target. -/
  | origin
  /-- A place to jump back to. -/
  | destination
  /-- The start of a counted loop. -/
  | countedLoop
  deriving DecidableEq

/-- A tag as a cell. -/
def ControlTag.cell : ControlTag → Cell
  | definition => 0xfc00
  | origin => 0xfc01
  | destination => 0xfc02
  | countedLoop => 0xfc03

namespace Exec

/-- Opens a control structure. -/
def pushControl (address : Cell) (tag : ControlTag) : Exec Unit :=
  onData (Stack.pushTwo address tag.cell)

/-- Closes the innermost control structure, which must have the given tag, and returns its
address. -/
def popControl (tag : ControlTag) : Exec Cell := do
  observe fun m => demand (2 ≤ m.dataStack.size) .controlMismatch
  let found ← peek
  settle (demand (found = tag.cell) .controlMismatch)
  let _ ← pop
  pop

/-- Compiles an offset that awaits its target. -/
def markForward : Exec Unit := do
  let origin ← reg (·.here)
  compileCell 0
  pushControl origin .origin

/-- Makes the offset at `origin` lead to the free end of the dictionary. -/
def resolveForward (origin : Cell) : Exec Unit := do
  let here ← reg (·.here)
  onMemory (Memory.put origin.toNat (here - origin))

/-- Compiles an offset that leads back to `destination`. -/
def compileBackward (destination : Cell) : Exec Unit := do
  let here ← reg (·.here)
  compileCell (destination - here)

/-- Opens a structure at the free end of the dictionary. -/
def markHere (tag : ControlTag) : Exec Unit := do
  let here ← reg (·.here)
  pushControl here tag

end Exec

open Exec in
/-- Builds the part of a control structure that a word stands for. -/
def ControlWord.build : ControlWord → Exec Unit
  | openIf => do
    compileRuntime .zeroBranch
    markForward
  | turnElse => do
    let origin ← popControl .origin
    compileRuntime .branch
    markForward
    resolveForward origin
  | closeThen => do
    let origin ← popControl .origin
    resolveForward origin
  | openBegin => markHere .destination
  | closeUntil => do
    let destination ← popControl .destination
    compileRuntime .zeroBranch
    compileBackward destination
  | closeAgain => do
    let destination ← popControl .destination
    compileRuntime .branch
    compileBackward destination
  | turnWhile => do
    let destination ← popControl .destination
    compileRuntime .zeroBranch
    markForward
    pushControl destination .destination
  | closeRepeat => do
    let destination ← popControl .destination
    compileRuntime .branch
    compileBackward destination
    let origin ← popControl .origin
    resolveForward origin
  | openDo => do
    compileRuntime .enterLoop
    markHere .countedLoop
  | closeLoop => do
    let destination ← popControl .countedLoop
    compileRuntime .stepLoop
    compileBackward destination
  | closePlusLoop => do
    let destination ← popControl .countedLoop
    compileRuntime .stepLoopBy
    compileBackward destination

/-- Runs a control word, which only makes sense while compiling. -/
def ControlWord.perform (word : ControlWord) : Exec Unit := do
  Exec.requireCompiling
  word.build

end CellForth
