/-!
# Cells

A cell is the machine word: sixteen bits, with addition, subtraction and multiplication
modulo `2 ^ 16`. Programs read the same bits in two ways, as the number `c.toNat` below
`65536` and as the signed number `Cell.signed c` between `-32768` and `32767`; `Cell.ofInt`
goes back from any integer to the cell congruent to it.

Truth values are cells too: `Cell.flag` writes true with all bits set and false as zero.
-/

namespace CellForth

/-- The machine word: sixteen bits, arithmetic modulo `2 ^ 16`. -/
abbrev Cell := UInt16

namespace Cell

/-- The largest cell in the unsigned reading, all bits set. -/
def top : Cell := 65535

/-- The largest cell in the signed reading. -/
def signedTop : Cell := 32767

/-- The signed reading: cells from `32768` on stand for negative numbers. -/
def signed (c : Cell) : Int :=
  if c.toNat < 32768 then (c.toNat : Int) else (c.toNat : Int) - 65536

/-- The cell congruent to `i` modulo `2 ^ 16`. -/
def ofInt (i : Int) : Cell :=
  UInt16.ofNat (i % 65536).toNat

/-- The signed reading lies between `-32768` and `32767`. -/
theorem signed_bounds (c : Cell) : -32768 ≤ signed c ∧ signed c ≤ 32767 := by
  have h : c.toNat < 65536 := c.toNat_lt
  unfold signed
  split <;> omega

/-- The signed reading determines the cell. -/
theorem ofInt_signed (c : Cell) : ofInt (signed c) = c := by
  have h : c.toNat < 65536 := c.toNat_lt
  have key : (signed c % 65536).toNat = c.toNat := by
    unfold signed
    split <;> omega
  rw [ofInt, key, UInt16.ofNat_toNat]

/-- Integers in the signed range come back from their cell. -/
theorem signed_ofInt {i : Int} (h : -32768 ≤ i ∧ i ≤ 32767) : signed (ofInt i) = i := by
  have key : (ofInt i).toNat = (i % 65536).toNat := by
    rw [ofInt, UInt16.toNat_ofNat']
    exact Nat.mod_eq_of_lt (by omega)
  rw [signed, key]
  split <;> omega

/-- The sign bit, set exactly when the signed reading is negative. -/
def isNegative (c : Cell) : Bool :=
  32768 ≤ c.toNat

theorem isNegative_iff (c : Cell) : isNegative c = true ↔ signed c < 0 := by
  have h : c.toNat < 65536 := c.toNat_lt
  unfold isNegative signed
  split <;> simp <;> omega

/-- A truth value as a cell: all bits set for true, zero for false. -/
def flag (b : Bool) : Cell :=
  if b then top else 0

/-- The low byte of a cell. -/
def lowByte (c : Cell) : UInt8 :=
  c.toUInt8

/-- The high byte of a cell. -/
def highByte (c : Cell) : UInt8 :=
  (c >>> 8).toUInt8

/-- The cell with the given low and high bytes. -/
def ofBytes (low high : UInt8) : Cell :=
  low.toUInt16 ||| (high.toUInt16 <<< 8)

end Cell

end CellForth
