import CellForth.Memory

/-!
# Word records

A record in the dictionary describes a word. Its cells are, in order, the link to the record
before it, the header, the packed name, the code field, and the body. The header holds the
length of the name in its low byte and two flags in its top bits: an immediate word runs even
while compiling, and a hidden word is passed over by look-up.

The address of the code field is the word's execution token.
-/

namespace CellForth

/-- The decoded head of a record. -/
structure Record where
  /-- Where the record starts. -/
  address : Nat
  /-- Where the record before it starts, or zero. -/
  link : Cell
  /-- Flags and length of the name. -/
  header : Cell
  deriving DecidableEq

namespace Record

/-- The header bit of words that run even while compiling. -/
def immediateBit : Cell := 0x8000

/-- The header bit of words that look-up passes over. -/
def hiddenBit : Cell := 0x4000

/-- The header bits that hold the length of the name. -/
def nameMask : Cell := 0x00ff

/-- The longest name of a definition, in bytes. -/
def maxNameLength : Nat := 31

/-- The length of the name, in bytes. -/
def nameLength (r : Record) : Nat :=
  (r.header &&& nameMask).toNat

/-- Does the word run even while compiling? -/
def isImmediate (r : Record) : Bool :=
  r.header &&& immediateBit != 0

/-- Does look-up pass the word over? -/
def isHidden (r : Record) : Bool :=
  r.header &&& hiddenBit != 0

/-- The first cell of the packed name. -/
def nameAddress (r : Record) : Nat :=
  r.address + 2

/-- The code field, which is the execution token. -/
def codeField (r : Record) : Nat :=
  r.nameAddress + packedLength r.nameLength

/-- The first cell of the body. -/
def body (r : Record) : Nat :=
  r.codeField + 1

/-- The cells of a record with a name of `n` bytes, without its body. -/
def cellsFor (n : Nat) : Nat :=
  3 + packedLength n

/-- The header of a new record: of the flags given, only the two that exist are kept. -/
def makeHeader (flags : Cell) (n : Nat) : Cell :=
  (flags &&& (immediateBit ||| hiddenBit)) ||| (UInt16.ofNat n &&& nameMask)

/-- A one-line description of a record. -/
def describe (r : Record) : String :=
  "Word at " ++ toString r.address ++ " imm " ++ toString r.isImmediate ++
    ", hidden " ++ toString r.isHidden ++ ", xt " ++ toString r.codeField

end Record

end CellForth
