import CellForth.Scanning
import CellForth.Text.Ascii
import CellForth.Words.Control

/-!
# Defining words

`DefiningWord.colon` opens a definition: it makes a hidden record, keeps its address in the
register `defining`, and switches to compilation. `DefiningWord.semicolon` completes and
reveals it. At most one definition is open at a time; brackets suspend and resume compilation
in between. The address of an open definition is also kept on the data stack, as a control
entry, so that a definition cannot be completed while a structure inside it is open.
-/

namespace CellForth

namespace Exec

/-- Refuses, as wrongly nested, unless the registers are as needed. -/
def requireNesting (p : Registers → Bool) : Exec Unit :=
  observe fun m => demand (p m.regs = true) .compilerNesting

/-- Switches between running and compiling words. -/
def setMode (mode : Mode) : Exec Unit :=
  setRegs fun regs => { regs with mode := mode }

/-- The execution token of the word named next in the input. -/
def parseToken : Exec Cell := do
  let name ← parseName
  let found ← observe fun m => m.find name
  match found with
  | some r => return UInt16.ofNat r.codeField
  | none => throw .undefinedWord

/-- The first byte of the name that follows in the input, as a cell. -/
def parseChar : Exec Cell := do
  let name ← parseName
  return (name.headD 0).toUInt16

/-- Reports that the definition at an address is complete, if such notices are kept. Only then
is its name read back from memory, and that may fault. -/
def noteDefinition (address : Cell) : Exec Unit := do
  let wanted ← observe fun m => .ok (m.journal.admits .debug)
  if wanted then do
    let name ← observe fun m => do
      let r ← m.memory.recordAt address.toNat
      m.memory.recordName r
    let here ← reg (·.here)
    report (.defined name (here - address))

/-- Opens a definition. -/
def beginDefinition : Exec Unit := do
  requireNesting fun regs => !regs.isCompiling && regs.defining = 0
  let name ← parseName
  let r ← createRecord name Runtime.nest.opcode Record.hiddenBit
  let address := UInt16.ofNat r.address
  pushControl address .definition
  setRegs fun regs => { regs with defining := address, mode := .compile }
  report (.defining name)

/-- Completes the open definition. -/
def endDefinition : Exec Unit := do
  requireNesting fun regs => regs.isCompiling && regs.defining ≠ 0
  let address ← popControl .definition
  observe fun m => demand (address = m.regs.defining) .controlMismatch
  compileRuntime .exit
  reveal address.toNat
  setRegs fun regs => { regs with defining := 0, mode := .interpret }
  noteDefinition address

/-- Makes a word that pushes the address of the cells that follow it. -/
def create : Exec Unit := do
  let name ← parseName
  let _ ← createRecord name Runtime.address.opcode 0
  return ()

/-- Makes a word that pushes a value. -/
def makeConstant : Exec Unit := do
  let c ← pop
  let name ← parseName
  let _ ← createRecord name Runtime.constant.opcode 0
  compileCell c

/-- Compiles a call of the open definition. -/
def compileSelf : Exec Unit := do
  requireCompiling
  requireNesting fun regs => regs.defining ≠ 0
  let r ← observe fun m => m.memory.recordAt m.regs.defining.toNat
  compileCell (UInt16.ofNat r.codeField)

end Exec

open Exec in
/-- Runs a defining word. -/
def DefiningWord.perform : DefiningWord → Exec Unit
  | colon => beginDefinition
  | semicolon => endDefinition
  | immediate => setImmediate
  | create => Exec.create
  | cellVariable => do
    Exec.create
    compileCell 0
  | constant => makeConstant
  | tick => do
    let xt ← parseToken
    push xt
  | bracketTick => do
    requireCompiling
    let xt ← parseToken
    compileInteger xt
  | leftBracket => do
    requireNesting fun regs => regs.isCompiling
    setMode .interpret
  | rightBracket => do
    requireNesting fun regs => !regs.isCompiling
    setMode .compile
  | literal => do
    requireCompiling
    let c ← pop
    compileInteger c
  | recurse => compileSelf
  | char => do
    let c ← parseChar
    push c
  | bracketChar => do
    requireCompiling
    let c ← parseChar
    compileInteger c
  | paren => do
    let _ ← parse Ascii.closeParen
    return ()
  | backslash => do
    let _ ← parse Ascii.lineFeed
    return ()

end CellForth
