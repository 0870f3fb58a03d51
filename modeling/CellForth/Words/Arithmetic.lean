import CellForth.Machine

/-!
# Arithmetic, logic and comparison

Sums, differences and products are taken modulo `2 ^ 16`. Division works on the signed
reading and rounds toward zero; a zero divisor is a fault, and so is `-32768` divided by `-1`,
whose quotient does not fit a cell. Shifts by sixteen bits or more give zero. Comparisons give
a flag.
-/

namespace CellForth

namespace Cell

/-- Does the quotient not fit a cell? -/
def divisionOverflows (n d : Cell) : Bool :=
  signed n = -32768 ∧ signed d = -1

/-- The signed quotient, rounded toward zero, if there is one and it fits a cell. -/
def checkedDiv (n d : Cell) : Option Cell :=
  if signed d = 0 ∨ divisionOverflows n d then none
  else some (ofInt ((signed n).tdiv (signed d)))

/-- The signed remainder, zero or with the sign of the dividend, if there is a quotient that
fits a cell. -/
def checkedRem (n d : Cell) : Option Cell :=
  if signed d = 0 ∨ divisionOverflows n d then none
  else some (ofInt ((signed n).tmod (signed d)))

end Cell

/-- What a unary word computes. -/
def UnaryWord.apply : UnaryWord → Cell → Cell
  | negate, x => -x
  | abs, x => Cell.ofInt (Cell.signed x).natAbs
  | increment, x => x + 1
  | decrement, x => x - 1
  | double, x => x + x
  | halve, x => Cell.ofInt (Cell.signed x / 2)
  | invert, x => ~~~x
  | isZero, x => Cell.flag (x = 0)
  | isNegative, x => Cell.flag (Cell.signed x < 0)
  | isPositive, x => Cell.flag (0 < Cell.signed x)
  | isNonzero, x => Cell.flag (x ≠ 0)

/-- What a binary word computes, the top of the stack being the second operand. -/
def BinaryWord.apply : BinaryWord → Cell → Cell → Except Fault Cell
  | add, x, y => .ok (x + y)
  | sub, x, y => .ok (x - y)
  | mul, x, y => .ok (x * y)
  | div, x, y =>
    if y = 0 then .error .divisionByZero
    else
      match Cell.checkedDiv x y with
      | some q => .ok q
      | none => .error .resultOutOfRange
  | mod, x, y =>
    if y = 0 then .error .divisionByZero
    else
      match Cell.checkedRem x y with
      | some r => .ok r
      | none => .error .resultOutOfRange
  | min, x, y => .ok (if Cell.signed x < Cell.signed y then x else y)
  | max, x, y => .ok (if Cell.signed y < Cell.signed x then x else y)
  | and, x, y => .ok (x &&& y)
  | or, x, y => .ok (x ||| y)
  | xor, x, y => .ok (x ^^^ y)
  | shiftLeft, x, y => .ok (if y < 16 then x <<< y else 0)
  | shiftRight, x, y => .ok (if y < 16 then x >>> y else 0)
  | eq, x, y => .ok (Cell.flag (x = y))
  | ne, x, y => .ok (Cell.flag (x ≠ y))
  | lt, x, y => .ok (Cell.flag (Cell.signed x < Cell.signed y))
  | gt, x, y => .ok (Cell.flag (Cell.signed y < Cell.signed x))
  | below, x, y => .ok (Cell.flag (x < y))
  | above, x, y => .ok (Cell.flag (y < x))

namespace Stack

/-- Replaces the top item by what `f` computes from it. -/
def unary (f : Cell → Cell) : StackM Unit := do
  let x ← peek
  set 0 (f x)

/-- Replaces the top two items by what `f` computes from them, the top being its second
argument. -/
def binary (f : Cell → Cell → Except Fault Cell) : StackM Unit := do
  require 2
  let y ← pick 0
  let x ← pick 1
  let v ← settle (f x y)
  drop
  set 0 v

/-- Replaces dividend and divisor by remainder and quotient. -/
def divMod : StackM Unit := do
  require 2
  let d ← pick 0
  let n ← pick 1
  settle (demand (d ≠ 0) .divisionByZero)
  match Cell.checkedRem n d, Cell.checkedDiv n d with
  | some r, some q => do
    set 1 r
    set 0 q
  | _, _ => throw .resultOutOfRange

end Stack

/-- Runs a unary word. -/
def UnaryWord.perform (word : UnaryWord) : Exec Unit :=
  Exec.onData (Stack.unary word.apply)

/-- Runs a binary word. -/
def BinaryWord.perform (word : BinaryWord) : Exec Unit :=
  Exec.onData (Stack.binary word.apply)

/-- Computes remainder and quotient. -/
def Exec.divMod : Exec Unit :=
  onData Stack.divMod

end CellForth
