import CellForth.Dictionary.Space
import CellForth.Threaded.Opcode

/-!
# Compiling words and numbers

A reference to a word is one cell: the opcode of a native word, and the execution token of
any other. A number is the literal action followed by the number.
-/

namespace CellForth.Exec

/-- Refuses unless words are being compiled. -/
def requireCompiling : Exec Unit :=
  observe fun m => demand (m.regs.isCompiling = true) .compileOnly

/-- Compiles a runtime action. -/
def compileRuntime (r : Runtime) : Exec Unit :=
  compileCell r.opcode

/-- Compiles a number. -/
def compileInteger (c : Cell) : Exec Unit := do
  compileRuntime .literal
  compileCell c

/-- Compiles a reference to a word: its opcode if it is native, else its token. -/
def compileReference (r : Record) : Exec Unit := do
  let code ← fetch r.codeField
  if CodeFields.standard.contains code then compileCell (UInt16.ofNat r.codeField)
  else compileCell code

end CellForth.Exec
