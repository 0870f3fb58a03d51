import CellForth.Action

/-!
# Opcodes of the runtime actions

The runtime actions take the first places of the action table in a fixed order,
so their opcodes are known without looking at a machine.

Three of them belong only in the code field of a record, where they say what kind of word it
is. As instructions in threaded code they are refused.
-/

namespace CellForth

namespace Runtime

/-- The opcode of a runtime action. -/
def opcode : Runtime → Cell
  | nest => 0
  | address => 1
  | constant => 2
  | literal => 3
  | branch => 4
  | zeroBranch => 5
  | enterLoop => 6
  | stepLoop => 7
  | stepLoopBy => 8
  | print => 9
  | exit => 10

end Runtime

/-- The opcodes that belong only in code fields. -/
structure CodeFields where
  /-- The code field of colon definitions. -/
  nest : Cell
  /-- The code field of created words. -/
  address : Cell
  /-- The code field of constants. -/
  constant : Cell

namespace CodeFields

/-- Does the opcode belong only in code fields? -/
def contains (fields : CodeFields) (op : Cell) : Bool :=
  op = fields.nest || op = fields.address || op = fields.constant

/-- The code fields of every machine. -/
def standard : CodeFields where
  nest := Runtime.nest.opcode
  address := Runtime.address.opcode
  constant := Runtime.constant.opcode

end CodeFields

end CellForth
