import CellForth.Dictionary.Space
import CellForth.Vocabulary

/-!
# Registering words

Registering an action gives it the next opcode; a primitive also gets a record with that opcode in
its code field. The table holds at most as many actions as there are reserved cells, so that an
opcode is never the address of a code field.
-/

namespace CellForth

namespace Exec

/-- Gives an action the next opcode, without a record. -/
def addRuntime (name : String) (action : Action) : Exec Cell := do
  let op ← observe fun m => .ok m.table.size
  settle (demand (op < dictionaryStart) .dictionaryOverflow)
  modify fun m => { m with table := m.table.push action }
  report (.opcode op name)
  return UInt16.ofNat op

/-- Registers a native word and returns its opcode. -/
def addPrimitive (name : String) (action : Action) : Exec Cell := do
  let op ← addRuntime name action
  let _ ← createRecord (Text.bytes name) op 0
  return op

/-- Registers a native word that runs even while compiling. -/
def addImmediate (name : String) (action : Action) : Exec Cell := do
  let op ← addPrimitive name action
  setImmediate
  return op

/-- Registers a built-in word. -/
def addBuiltin (word : Builtin) : Exec Unit := do
  let _ ← if word.immediate then addImmediate word.name word.action
    else addPrimitive word.name word.action
  return ()

/-- Registers the words of a set, up to the first for which there is no room. -/
def install (set : WordSet) : Exec Unit :=
  set.words.forM addBuiltin

end Exec

end CellForth
