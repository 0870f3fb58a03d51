import CellForth.Cell
import CellForth.Text.Ascii

/-!
# Reading numbers

A number is an optional single sign and then one or more digits of the current radix, up to
`36`, where letters of either case follow the digit nine. The whole token has to be a
number: nothing may be left over. Without a minus sign the magnitude may be any cell, with
one it reaches down to `-32768`.

`Numeral.sign` takes off the sign, `Numeral.magnitude?` reads the digits, and
`Numeral.read?` joins the two.
-/

namespace CellForth.Numeral

/-- Splits off an optional sign: is it a minus, and what follows it? -/
def sign : List UInt8 → Bool × List UInt8
  | [] => (false, [])
  | c :: rest =>
    if c = Ascii.plus then (false, rest)
    else if c = Ascii.minus then (true, rest)
    else (false, c :: rest)

/-- The value of a digit or letter, letters of either case counting on from ten. -/
def digitValue? (c : UInt8) : Option Nat :=
  if 48 ≤ c ∧ c ≤ 57 then some (c.toNat - 48)
  else if 97 ≤ c ∧ c ≤ 122 then some (c.toNat - 87)
  else if 65 ≤ c ∧ c ≤ 90 then some (c.toNat - 55)
  else none

/-- Reads digits on top of the value `acc` of those before them, as long as the value fits a
cell. -/
def magnitudeFrom (base : Nat) : Nat → List UInt8 → Option Nat
  | acc, [] => some acc
  | acc, c :: rest =>
    match digitValue? c with
    | none => none
    | some d =>
      if d < base ∧ acc * base + d ≤ 65535 then magnitudeFrom base (acc * base + d) rest
      else none

/-- The value of a nonempty row of digits in radix `base`, if it fits a cell. -/
def magnitude? (base : Nat) : List UInt8 → Option Nat
  | [] => none
  | c :: rest => magnitudeFrom base 0 (c :: rest)

/-- The cell that a token denotes in radix `base`, if it is a number there. -/
def read? (token : List UInt8) (base : Cell) : Option Cell :=
  if 2 ≤ base.toNat ∧ base.toNat ≤ 36 then
    match sign token with
    | (negative, digits) =>
      match magnitude? base.toNat digits with
      | none => none
      | some n =>
        if negative then
          if n ≤ 32768 then some (-(UInt16.ofNat n)) else none
        else some (UInt16.ofNat n)
  else none

end CellForth.Numeral
