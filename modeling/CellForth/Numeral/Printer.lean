import CellForth.Cell
import CellForth.Text.Ascii

/-!
# Writing numbers

Numbers are written in a radix from `2` to `36`, with upper case letters for the digits from
ten on, no leading zeros, and a minus sign in front of negative ones. The text is a list of
ASCII bytes, as the output sink takes it.
-/

namespace CellForth.Numeral

/-- The byte that stands for a digit below `36`. -/
def digitByte (d : Nat) : UInt8 :=
  if d < 10 then UInt8.ofNat (48 + d) else UInt8.ofNat (55 + d)

/-- The digits of `n` in radix `base`, most significant first, in front of `rest`. -/
def digitsOnto (base n : Nat) (rest : List UInt8) : List UInt8 :=
  if _h : 2 ≤ base ∧ base ≤ n then
    digitsOnto base (n / base) (digitByte (n % base) :: rest)
  else digitByte n :: rest
termination_by n
decreasing_by exact Nat.div_lt_self (by omega) (by omega)

/-- The number `n` in radix `base`, with a minus sign in front if `negative`. -/
def format (n : Nat) (negative : Bool) (base : Nat) : List UInt8 :=
  if negative then Ascii.minus :: digitsOnto base n [] else digitsOnto base n []

/-- A cell in its signed reading. -/
def formatSigned (c : Cell) (base : Nat) : List UInt8 :=
  format (Cell.signed c).natAbs (decide (Cell.signed c < 0)) base

/-- A cell in its unsigned reading. -/
def formatUnsigned (c : Cell) (base : Nat) : List UInt8 :=
  format c.toNat false base

end CellForth.Numeral
