import CellForth.Machine

/-!
# Stack words

A stack word works in place. It looks at the items it needs, writes over the slots that change,
and pushes or pops what is left. Once a slot is written there is no way back, so a word has to
find all its reasons to refuse before: it looks first, and a word that pushes more than one item
asks for their room.

A word that moves an item from one stack to the other copies it first and drops it last, so
a refusal changes neither.
-/

namespace CellForth

open Stack in
/-- The effect of a stack word on the data stack. -/
def StackWord.effect : StackWord → StackM Unit
  | dup => do
    let x ← peek
    push x
  | drop => Stack.drop
  | swap => do
    require 2
    let x₂ ← Stack.pick 0
    let x₁ ← Stack.pick 1
    set 0 x₁
    set 1 x₂
  | copySecond => do
    let x₁ ← Stack.pick 1
    push x₁
  | rot => do
    require 3
    let x₃ ← Stack.pick 0
    let x₂ ← Stack.pick 1
    let x₁ ← Stack.pick 2
    set 2 x₂
    set 1 x₃
    set 0 x₁
  | minusRot => do
    require 3
    let x₃ ← Stack.pick 0
    let x₂ ← Stack.pick 1
    let x₁ ← Stack.pick 2
    set 2 x₃
    set 1 x₁
    set 0 x₂
  | nip => do
    require 2
    let x₂ ← pop
    set 0 x₂
  | tuck => do
    require 2
    let x₂ ← Stack.pick 0
    let x₁ ← Stack.pick 1
    push x₂
    set 1 x₁
    set 2 x₂
  | pick => do
    let u ← peek
    let x ← Stack.pick (u.toNat + 1)
    set 0 x
  | questionDup => do
    let x ← peek
    if x ≠ 0 then push x
  | twoDup => do
    require 2
    requireRoom 2
    let x₂ ← Stack.pick 0
    let x₁ ← Stack.pick 1
    push x₁
    push x₂
  | twoDrop => dropTwo
  | twoSwap => do
    require 4
    let x₄ ← Stack.pick 0
    let x₃ ← Stack.pick 1
    let x₂ ← Stack.pick 2
    let x₁ ← Stack.pick 3
    set 3 x₃
    set 2 x₄
    set 1 x₁
    set 0 x₂
  | twoOver => do
    require 4
    requireRoom 2
    let x₂ ← Stack.pick 2
    let x₁ ← Stack.pick 3
    push x₁
    push x₂
  | depth => do
    let n ← observe fun s => .ok s.size
    push (UInt16.ofNat n)

/-- Runs a stack word. -/
def StackWord.perform (word : StackWord) : Exec Unit :=
  Exec.onData word.effect

/-- Runs a word between the stacks. -/
def ReturnWord.perform : ReturnWord → Exec Unit
  | toReturn => do
    let x ← Exec.peek
    Exec.onReturn (Stack.push x)
    Exec.onData Stack.drop
  | fromReturn => do
    let x ← Exec.onReturn Stack.peek
    Exec.push x
    Exec.onReturn Stack.drop
  | fetchReturn => do
    let x ← Exec.onReturn Stack.peek
    Exec.push x
  | outerIndex => do
    let x ← Exec.onReturn (Stack.pick 2)
    Exec.push x
  | unloop => Exec.onReturn Stack.dropTwo

end CellForth
