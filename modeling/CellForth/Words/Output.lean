import CellForth.Dictionary.Space
import CellForth.Numeral.Printer
import CellForth.Scanning
import CellForth.Text.Ascii
import CellForth.Threaded.Opcode

/-!
# Output words

A number is followed by a space. The words that list things, `OutputWord.words` and
`OutputWord.showStack`, build their text first and write it in one go.
-/

namespace CellForth

/-- The names of the visible records, each followed by a space. -/
def Memory.visibleNames (memory : Memory) : List Record → Except Fault (List UInt8)
  | [] => .ok []
  | r :: rs =>
    if r.isHidden then memory.visibleNames rs
    else do
      let name ← memory.recordName r
      let names ← memory.visibleNames rs
      return name ++ Ascii.space :: names

/-- The list of words as text. -/
def Machine.wordsText (m : Machine) : Except Fault (List UInt8) := do
  let rs ← m.records
  let names ← m.memory.visibleNames rs
  return names ++ [Ascii.lineFeed]

/-- The data stack as text: the number of items, and then the items. -/
def Machine.stackText (m : Machine) : List UInt8 :=
  let items := m.dataItems
  [Ascii.less] ++ Numeral.format items.length false 10 ++ [Ascii.greater, Ascii.space] ++
    items.flatMap fun c => Numeral.formatSigned c m.regs.base.toNat ++ [Ascii.space]

/-- Runs an output word. -/
def OutputWord.perform : OutputWord → Exec Unit
  | emit => do
    let c ← Exec.pop
    Exec.write [Cell.lowByte c]
  | dot => do
    let n ← Exec.pop
    let base ← Exec.reg (·.base)
    Exec.write (Numeral.formatSigned n base.toNat)
    Exec.write [Ascii.space]
  | unsignedDot => do
    let n ← Exec.pop
    let base ← Exec.reg (·.base)
    Exec.write (Numeral.formatUnsigned n base.toNat)
    Exec.write [Ascii.space]
  | newline => Exec.write [Ascii.lineFeed]
  | space => Exec.write [Ascii.space]
  | spaces => do
    let n ← Exec.pop
    if 0 < Cell.signed n then
      Exec.write (List.replicate (Cell.signed n).toNat Ascii.space)
  | dotQuote => do
    let text ← Exec.parse Ascii.quote
    let compiling ← Exec.reg (·.isCompiling)
    if compiling then do
      Exec.compileCell Runtime.print.opcode
      Exec.compileString text
    else Exec.write text
  | words => do
    let text ← observe Machine.wordsText
    Exec.write text
  | showStack => do
    let text ← observe fun m => .ok m.stackText
    Exec.write text

end CellForth
