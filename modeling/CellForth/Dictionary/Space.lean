import CellForth.Dictionary.Lookup

/-!
# Building the dictionary

The dictionary grows from its free end, the register `here`, up to the data stack. A record
or a string is written only if all of it fits.
-/

namespace CellForth

/-- The cell of a record that holds its header. -/
def headerAddress (address : Nat) : Nat :=
  address + 1

namespace Exec

/-- Appends a cell. -/
def compileCell (c : Cell) : Exec Unit := do
  observe fun m => demand (0 < m.unused) .dictionaryOverflow
  let here ← reg (·.here)
  onMemory (Memory.put here.toNat c)
  setRegs fun regs => { regs with here := here + 1 }

/-- Packs bytes at the free end and moves it behind them, without looking for room. -/
def packBytes (bs : List UInt8) : Exec Unit := do
  let here ← reg (·.here)
  onMemory (Memory.putBytes here.toNat bs)
  setRegs fun regs => { regs with here := here + UInt16.ofNat (packedLength bs.length) }

/-- Appends a string: its length and then its packed bytes. -/
def compileString (bs : List UInt8) : Exec Unit := do
  observe fun m =>
    demand (bs.length ≤ 65535 ∧ 1 + packedLength bs.length ≤ m.unused) .dictionaryOverflow
  compileCell (UInt16.ofNat bs.length)
  packBytes bs

/-- Moves the free end of the dictionary by a number of cells, which may be negative. -/
def allot (n : Int) : Exec Unit := do
  let here ← reg (·.here)
  let target := (here.toNat : Int) + n
  observe fun m => demand (target ≤ m.regs.dataBase.toNat) .dictionaryOverflow
  settle (demand ((dictionaryStart : Int) ≤ target) .invalidMemoryAddress)
  setRegs fun regs => { regs with here := UInt16.ofNat target.toNat }

/-- Reports that a name is about to be defined again, if such notices are kept. -/
def noteRedefinition (name : List UInt8) : Exec Unit := fun m =>
  if m.journal.admits .debug then
    match m.find name with
    | .ok (some old) => report (.redefined name old.address) m
    | _ => .ok () m
  else .ok () m

/-- Appends a record with the given code field and flags and makes it the newest word. -/
def createRecord (name : List UInt8) (code flags : Cell) : Exec Record := do
  settle (demand (name ≠ []) .unexpectedEnd)
  settle (demand (name.length ≤ Record.maxNameLength) .nameTooLong)
  observe fun m => demand (Record.cellsFor name.length ≤ m.unused) .dictionaryOverflow
  noteRedefinition name
  let address ← reg (·.here)
  let link ← reg (·.latest)
  let header := Record.makeHeader flags name.length
  compileCell link
  compileCell header
  packBytes name
  compileCell code
  setRegs fun regs => { regs with latest := address }
  return ⟨address.toNat, link, header⟩

/-- Changes the header of the record at an address, which must not be zero. -/
def updateHeader (address : Nat) (f : Cell → Cell) : Exec Unit := do
  settle (demand (address ≠ 0) .invalidMemoryAddress)
  let header ← fetch (headerAddress address)
  onMemory (Memory.put (headerAddress address) (f header))

/-- Makes the newest word immediate. -/
def setImmediate : Exec Unit := do
  let latest ← reg (·.latest)
  updateHeader latest.toNat (· ||| Record.immediateBit)

/-- Makes the record at an address visible to look-up. -/
def reveal (address : Nat) : Exec Unit :=
  updateHeader address (· &&& ~~~Record.hiddenBit)

end Exec

end CellForth
