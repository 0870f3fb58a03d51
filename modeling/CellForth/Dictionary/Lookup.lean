import CellForth.Dictionary.Record
import CellForth.Machine

/-!
# Look-up

Records form a chain from the newest one to the link zero. `Machine.find` returns the first
visible record on it with the given name, letters of either case being the same. A program
can overwrite links, so the chain may leave memory or loop; leaving memory is a fault where it
happens, and a chain of more records than memory has cells is a loop and a fault too.
-/

namespace CellForth

/-- An ASCII letter in lower case, any other byte as it is. -/
def lowerCase (b : UInt8) : UInt8 :=
  if 65 ≤ b ∧ b ≤ 90 then b + 32 else b

/-- Are two bytes equal up to the case of ASCII letters? -/
def sameLetter (a b : UInt8) : Bool :=
  lowerCase a = lowerCase b

namespace Memory

/-- The record that starts at an address. -/
def recordAt (memory : Memory) (address : Nat) : Except Fault Record := do
  let link ← memory.get address
  let header ← memory.get (address + 1)
  return ⟨address, link, header⟩

/-- The name of a record. -/
def recordName (memory : Memory) (r : Record) : Except Fault (List UInt8) :=
  memory.getBytes r.nameAddress r.nameLength

/-- Do the bytes packed from `pos` on, the first `i` left out, agree with `name` up to case? -/
def spells (memory : Memory) (pos : Nat) : Nat → List UInt8 → Except Fault Bool
  | _, [] => .ok true
  | i, c :: rest =>
    match memory.getByte pos i with
    | .error e => .error e
    | .ok b => if sameLetter b c then memory.spells pos (i + 1) rest else .ok false

/-- Is this the name of the record, up to case? -/
def isNamed (memory : Memory) (r : Record) (name : List UInt8) : Except Fault Bool :=
  if r.nameLength = name.length then memory.spells r.nameAddress 0 name else .ok false

/-- Is this a visible record of that name? -/
def answersTo (memory : Memory) (r : Record) (name : List UInt8) : Except Fault Bool :=
  if r.isHidden then .ok false else memory.isNamed r name

/-- Looks for a visible record along the chain from `address`, over at most `budget` records
that are not it. -/
def findFrom (memory : Memory) (name : List UInt8) :
    (budget address : Nat) → Except Fault (Option Record)
  | budget, address =>
    if address = 0 then .ok none
    else
      match memory.recordAt address with
      | .error e => .error e
      | .ok r =>
        match memory.answersTo r name with
        | .error e => .error e
        | .ok true => .ok (some r)
        | .ok false =>
          match budget with
          | 0 => .error .invalidMemoryAddress
          | budget + 1 => memory.findFrom name budget r.link.toNat

/-- The records along the chain from `address`, at most `budget` of them. -/
def recordsFrom (memory : Memory) : (budget address : Nat) → Except Fault (List Record)
  | budget, address =>
    if address = 0 then .ok []
    else
      match memory.recordAt address with
      | .error e => .error e
      | .ok r =>
        match budget with
        | 0 => .error .invalidMemoryAddress
        | budget + 1 =>
          match memory.recordsFrom budget r.link.toNat with
          | .error e => .error e
          | .ok rs => .ok (r :: rs)

end Memory

namespace Machine

/-- The newest visible record with the given name, letters of either case being the same. -/
def find (m : Machine) (name : List UInt8) : Except Fault (Option Record) :=
  m.memory.findFrom name m.memory.size m.regs.latest.toNat

/-- All records, newest first. -/
def records (m : Machine) : Except Fault (List Record) :=
  m.memory.recordsFrom m.memory.size m.regs.latest.toNat

end Machine

end CellForth
