import CellForth.Request
import Mathlib.Algebra.GroupWithZero.Nat

/-!
# Operations with the domains of their parts

Some of what a machine does is partial: a pointer has to be moved without leaving the range of a
cell, a difference of bounds must not be negative, a slice has to lie in memory, the first byte of
a name needs a name that has one, a number is written in a radix for which there are digits, and so
on. The definitions that run are total; what they give outside of these domains means nothing.

`Checked op` is a form of the operation `op` in which the domains are written down. It has the same
steps as `op` in the same order, and `Checked.guarded` stands in front of every step with a partial
part. `Checked.run` runs a form and gives up, with `none`, at the first guard that does not hold. A
form of `op` cannot be a form of anything else, for the operation is part of its type.

The forms follow the definitions: stacks, the dictionary, words, the two interpreters and the calls
of a host. Machines that are within their regions never meet a guard that does not hold; that is
the subject of `CellForth.Proofs.Domains`.
-/

namespace CellForth

/-- A form of an operation that has the domains of its partial parts written down. -/
inductive Checked {ε σ : Type} : {α : Type} → EStateM ε σ α → Type 1
  /-- A step without partial parts. -/
  | plain {α : Type} (op : EStateM ε σ α) : Checked op
  /-- A step that is in its domain in the given states. -/
  | guarded {α : Type} {op : EStateM ε σ α} (domain : σ → Prop) [DecidablePred domain]
    (form : Checked op) : Checked op
  /-- A step and those behind it. -/
  | bind {α β : Type} {x : EStateM ε σ α} {f : α → EStateM ε σ β} (first : Checked x)
    (rest : (a : α) → Checked (f a)) : Checked (x >>= f)
  /-- One of two steps. -/
  | ite {α : Type} {c : Prop} [Decidable c] {x y : EStateM ε σ α} (yes : Checked x)
    (no : Checked y) : Checked (if c then x else y)
  /-- A step that is stated in another way. -/
  | congr {α : Type} {x y : EStateM ε σ α} (h : x = y) (form : Checked x) : Checked y

namespace Checked

/-- Runs a form, and gives up at a guard that does not hold. -/
def run {ε σ : Type} : {α : Type} → {op : EStateM ε σ α} → Checked op → σ →
    Option (EStateM.Result ε σ α)
  | _, _, plain op, s => some (op s)
  | _, _, guarded domain form, s => if domain s then form.run s else none
  | _, _, bind first rest, s =>
    match first.run s with
    | none => none
    | some (.ok a t) => (rest a).run t
    | some (.error e t) => some (.error e t)
  | _, _, @ite _ _ _ c _ _ _ yes no, s => if c then yes.run s else no.run s
  | _, _, congr _ form, s => form.run s

end Checked

/-! ### Numbers -/

/-- A radix for which there are digits. -/
def Numeral.IsRadix (base : Nat) : Prop :=
  2 ≤ base ∧ base ≤ 36

instance (base : Nat) : Decidable (Numeral.IsRadix base) :=
  inferInstanceAs (Decidable (_ ∧ _))

/-- The values that a row of digits takes one after the other while it is read, the last of which
may not fit a cell any more. -/
def Numeral.valuesFrom (base : Nat) : Nat → List UInt8 → List Nat
  | _, [] => []
  | acc, c :: rest =>
    match digitValue? c with
    | none => []
    | some d =>
      if d < base then
        (acc * base + d) ::
          if acc * base + d ≤ 65535 then valuesFrom base (acc * base + d) rest else []
      else []

/-- The values that are computed while a token is read as a number. -/
def Numeral.values (token : List UInt8) (base : Cell) : List Nat :=
  if 2 ≤ base.toNat ∧ base.toNat ≤ 36 then valuesFrom base.toNat 0 (sign token).2 else []

/-- The divisor is not zero and the quotient fits a cell. -/
def Cell.Divides (n d : Cell) : Prop :=
  signed d ≠ 0 ∧ -32768 ≤ (signed n).tdiv (signed d) ∧ (signed n).tdiv (signed d) ≤ 32767

instance (n d : Cell) : Decidable (Cell.Divides n d) :=
  inferInstanceAs (Decidable (_ ∧ _))

/-- A division is in its domain: if there is a quotient or a remainder, the operands can be
divided. -/
def Cell.DivisionInDomain (n d : Cell) : Prop :=
  (checkedDiv n d).isSome = true ∨ (checkedRem n d).isSome = true → Divides n d

instance (n d : Cell) : Decidable (Cell.DivisionInDomain n d) :=
  inferInstanceAs (Decidable (_ → _))

/-- Does the word divide? -/
def BinaryWord.isDivision : BinaryWord → Bool
  | div | mod => true
  | _ => false

/-! ### Stacks -/

namespace Stack

/-- The live cells of the stack are a slice of memory. -/
def SliceInMemory (s : Stack) : Prop :=
  s.base.toNat + s.size ≤ s.memory.size

instance (s : Stack) : Decidable s.SliceInMemory :=
  inferInstanceAs (Decidable (_ ≤ _))

/-- If there is room, the pointer is incremented. -/
def checkedPush (v : Cell) : Checked (push v) :=
  .guarded (fun s => s.pointer < s.limit → s.pointer.toNat + 1 < 65536) (.plain _)

/-- If there is an item, the pointer is decremented. -/
def checkedPop : Checked pop :=
  .guarded (fun s => s.isEmpty = false → 0 < s.pointer.toNat) (.plain _)

/-- If there are enough items, one of them is found by its distance from the pointer. -/
def checkedPick (n : Nat) : Checked (pick n) :=
  .guarded (fun s => n < s.size → n < s.pointer.toNat) (.plain _)

@[inherit_doc checkedPick]
def checkedSet (n : Nat) (v : Cell) : Checked (set n v) :=
  .guarded (fun s => n < s.size → n < s.pointer.toNat) (.plain _)

/-- The room is a difference of a difference. -/
def checkedRequireRoom (n : Nat) : Checked (requireRoom n) :=
  .guarded (fun s => s.base.toNat ≤ s.limit.toNat ∧ s.size ≤ s.capacity) (.plain _)

def checkedDrop : Checked drop :=
  .bind checkedPop fun _ => .plain _

def checkedDropTwo : Checked dropTwo :=
  .bind (.plain _) fun _ => .bind checkedDrop fun _ => checkedDrop

def checkedPushTwo (x y : Cell) : Checked (pushTwo x y) :=
  .bind (checkedRequireRoom _) fun _ => .bind (checkedPush x) fun _ => checkedPush y

def checkedUnary (f : Cell → Cell) : Checked (unary f) :=
  .bind (checkedPick 0) fun _ => checkedSet _ _

/-- What is computed from the two items is in its domain. -/
def checkedBinary (f : Cell → Cell → Except Fault Cell) (domain : Cell → Cell → Prop)
    [∀ x y, Decidable (domain x y)] : Checked (binary f) :=
  .bind (.plain _) fun _ => .bind (checkedPick 0) fun y => .bind (checkedPick 1) fun x =>
    .bind (.guarded (fun _ => domain x y) (.plain _)) fun _ => .bind checkedDrop fun _ =>
      checkedSet _ _

@[inherit_doc checkedBinary]
def checkedDivMod : Checked divMod :=
  .bind (.plain _) fun _ => .bind (checkedPick 0) fun d => .bind (checkedPick 1) fun n =>
    .bind (.plain _) fun _ => .guarded (fun _ => Cell.DivisionInDomain n d)
      (match Cell.checkedRem n d, Cell.checkedDiv n d with
      | some _, some _ => .bind (checkedSet _ _) fun _ => checkedSet _ _
      | some _, none => .plain _
      | none, _ => .plain _)

end Stack

open Stack in
def StackWord.checkedEffect : (word : StackWord) → Checked word.effect
  | dup => .bind (checkedPick 0) fun _ => checkedPush _
  | drop => checkedDrop
  | swap => .bind (.plain _) fun _ => .bind (checkedPick 0) fun _ => .bind (checkedPick 1) fun _ =>
      .bind (checkedSet _ _) fun _ => checkedSet _ _
  | copySecond => .bind (checkedPick 1) fun _ => checkedPush _
  | rot | minusRot => .bind (.plain _) fun _ => .bind (checkedPick 0) fun _ =>
      .bind (checkedPick 1) fun _ => .bind (checkedPick 2) fun _ => .bind (checkedSet _ _) fun _ =>
        .bind (checkedSet _ _) fun _ => checkedSet _ _
  | nip => .bind (.plain _) fun _ => .bind checkedPop fun _ => checkedSet _ _
  | tuck => .bind (.plain _) fun _ => .bind (checkedPick 0) fun _ => .bind (checkedPick 1) fun _ =>
      .bind (checkedPush _) fun _ => .bind (checkedSet _ _) fun _ => checkedSet _ _
  | pick => .bind (checkedPick 0) fun _ => .bind (checkedPick _) fun _ => checkedSet _ _
  | questionDup => .bind (checkedPick 0) fun _ => .ite (checkedPush _) (.plain _)
  | twoDup => .bind (.plain _) fun _ => .bind (checkedRequireRoom 2) fun _ =>
      .bind (checkedPick 0) fun _ => .bind (checkedPick 1) fun _ => .bind (checkedPush _) fun _ =>
        checkedPush _
  | twoDrop => checkedDropTwo
  | twoSwap =>
    .bind (.plain _) fun _ => .bind (checkedPick 0) fun _ => .bind (checkedPick 1) fun _ =>
      .bind (checkedPick 2) fun _ => .bind (checkedPick 3) fun _ => .bind (checkedSet _ _) fun _ =>
        .bind (checkedSet _ _) fun _ => .bind (checkedSet _ _) fun _ => checkedSet _ _
  | twoOver => .bind (.plain _) fun _ => .bind (checkedRequireRoom 2) fun _ =>
      .bind (checkedPick 2) fun _ => .bind (checkedPick 3) fun _ => .bind (checkedPush _) fun _ =>
        checkedPush _
  | depth => .bind (.plain _) fun _ => checkedPush _

/-- The capacity is a difference, and the items are a slice. -/
def StackRequest.checked : (request : StackRequest) → Checked request.perform
  | push c => .bind (Stack.checkedPush c) fun _ => .plain _
  | pop => .bind Stack.checkedPop fun _ => .plain _
  | peek => .bind (Stack.checkedPick 0) fun _ => .plain _
  | pick n => .bind (Stack.checkedPick n) fun _ => .plain _
  | set n c => .bind (Stack.checkedSet n c) fun _ => .plain _
  | require _ => .plain _
  | size => .plain _
  | isEmpty => .plain _
  | capacity => .guarded (fun s => s.base.toNat ≤ s.limit.toNat) (.plain _)
  | items => .guarded Stack.SliceInMemory (.plain _)

/-! ### The dictionary -/

namespace Exec

variable {α : Type}

/-- An operation of the data stack is in its domain if its form runs there. -/
def checkedOnData {op : StackM α} (form : Checked op) : Checked (onData op) :=
  .guarded (fun m => (form.run m.dataStack).isSome = true) (.plain _)

@[inherit_doc checkedOnData]
def checkedOnReturn {op : StackM α} (form : Checked op) : Checked (onReturn op) :=
  .guarded (fun m => (form.run m.returnStack).isSome = true) (.plain _)

def checkedPush (c : Cell) : Checked (push c) := checkedOnData (Stack.checkedPush c)

def checkedPop : Checked pop := checkedOnData Stack.checkedPop

def checkedPeek : Checked peek := checkedOnData (Stack.checkedPick 0)

/-- The end of the dictionary is incremented. -/
def checkedCompileCell (c : Cell) : Checked (compileCell c) :=
  .bind (.plain _) fun _ => .bind (.plain _) fun here => .bind (.plain _) fun _ =>
    .guarded (fun _ => here.toNat + 1 < 65536) (.plain _)

/-- The end of the dictionary is moved behind the packed bytes. -/
def checkedPackBytes (bs : List UInt8) : Checked (packBytes bs) :=
  .bind (.plain _) fun here => .bind (.plain _) fun _ =>
    .guarded (fun _ => here.toNat + packedLength bs.length < 65536) (.plain _)

def checkedCompileString (bs : List UInt8) : Checked (compileString bs) :=
  .bind (.plain _) fun _ => .bind (checkedCompileCell _) fun _ => checkedPackBytes bs

/-- The end of the dictionary is moved to a place that a cell can name. -/
def checkedAllot (n : Int) : Checked (allot n) :=
  .bind (.plain _) fun here => .bind (.plain _) fun _ => .bind (.plain _) fun _ =>
    .guarded (fun _ => 0 ≤ (here.toNat : Int) + n ∧ (here.toNat : Int) + n < 65536) (.plain _)

def checkedCreateRecord (name : List UInt8) (code flags : Cell) :
    Checked (createRecord name code flags) :=
  .bind (.plain _) fun _ => .bind (.plain _) fun _ => .bind (.plain _) fun _ =>
    .bind (.plain _) fun _ => .bind (.plain _) fun _ => .bind (.plain _) fun link =>
      .bind (checkedCompileCell link) fun _ => .bind (checkedCompileCell _) fun _ =>
        .bind (checkedPackBytes name) fun _ => .bind (checkedCompileCell code) fun _ =>
          .bind (.plain _) fun _ => .plain _

/-! ### Words -/

def checkedCompileInteger (c : Cell) : Checked (compileInteger c) :=
  .bind (checkedCompileCell _) fun _ => checkedCompileCell c

def checkedCompileReference (r : Record) : Checked (compileReference r) :=
  .bind (.plain _) fun _ => .ite (checkedCompileCell _) (checkedCompileCell _)

def checkedPushControl (address : Cell) (tag : ControlTag) : Checked (pushControl address tag) :=
  checkedOnData (Stack.checkedPushTwo _ _)

def checkedPopControl (tag : ControlTag) : Checked (popControl tag) :=
  .bind (.plain _) fun _ => .bind checkedPeek fun _ => .bind (.plain _) fun _ =>
    .bind checkedPop fun _ => checkedPop

def checkedMarkForward : Checked markForward :=
  .bind (.plain _) fun _ => .bind (checkedCompileCell _) fun _ => checkedPushControl _ _

def checkedCompileBackward (destination : Cell) : Checked (compileBackward destination) :=
  .bind (.plain _) fun _ => checkedCompileCell _

def checkedMarkHere (tag : ControlTag) : Checked (markHere tag) :=
  .bind (.plain _) fun _ => checkedPushControl _ _

/-- The first byte of a name is taken. -/
def checkedParseChar : Checked parseChar :=
  .bind (.plain _) fun name => .guarded (fun _ => name ≠ []) (.plain _)

def checkedBeginDefinition : Checked beginDefinition :=
  .bind (.plain _) fun _ => .bind (.plain _) fun _ => .bind (checkedCreateRecord _ _ _) fun _ =>
    .bind (checkedPushControl _ _) fun _ => .plain _

def checkedEndDefinition : Checked endDefinition :=
  .bind (.plain _) fun _ => .bind (checkedPopControl _) fun _ => .bind (.plain _) fun _ =>
    .bind (checkedCompileCell _) fun _ => .plain _

def checkedCreate : Checked create :=
  .bind (.plain _) fun _ => .bind (checkedCreateRecord _ _ _) fun _ => .plain _

def checkedMakeConstant : Checked makeConstant :=
  .bind checkedPop fun _ => .bind (.plain _) fun _ => .bind (checkedCreateRecord _ _ _) fun _ =>
    checkedCompileCell _

def checkedCompileSelf : Checked compileSelf :=
  .bind (.plain _) fun _ => .bind (.plain _) fun _ => .bind (.plain _) fun _ =>
    checkedCompileCell _

def checkedStepLoop (n : Cell) : Checked (stepLoop n) :=
  .bind (.plain _) fun _ => .bind (.plain _) fun _ =>
    .bind (checkedOnReturn (Stack.checkedPick 0)) fun _ =>
      .bind (checkedOnReturn (Stack.checkedPick 1)) fun _ =>
        .ite
          (.bind (checkedOnReturn Stack.checkedDrop) fun _ =>
            .bind (checkedOnReturn Stack.checkedDrop) fun _ => .plain _)
          (.bind (checkedOnReturn (Stack.checkedSet _ _)) fun _ => .plain _)

end Exec

open Exec

def ReturnWord.checked : (word : ReturnWord) → Checked word.perform
  | toReturn => .bind checkedPeek fun _ => .bind (checkedOnReturn (Stack.checkedPush _)) fun _ =>
      checkedOnData Stack.checkedDrop
  | fromReturn => .bind (checkedOnReturn (Stack.checkedPick 0)) fun _ =>
      .bind (checkedPush _) fun _ => checkedOnReturn Stack.checkedDrop
  | fetchReturn => .bind (checkedOnReturn (Stack.checkedPick 0)) fun _ => checkedPush _
  | outerIndex => .bind (checkedOnReturn (Stack.checkedPick 2)) fun _ => checkedPush _
  | unloop => checkedOnReturn Stack.checkedDropTwo

/-- A division that was not refused has a result. -/
def BinaryWord.checked (word : BinaryWord) : Checked word.perform :=
  checkedOnData
    (Stack.checkedBinary _ fun x y => word.isDivision = true → Cell.DivisionInDomain x y)

def StorageWord.checked : (word : StorageWord) → Checked word.perform
  | fetch => .bind checkedPeek fun _ => .bind (.plain _) fun _ =>
      checkedOnData (Stack.checkedSet _ _)
  | store => .bind (.plain _) fun _ => .bind (checkedOnData (Stack.checkedPick 0)) fun _ =>
      .bind (checkedOnData (Stack.checkedPick 1)) fun _ => .bind (.plain _) fun _ =>
        checkedOnData Stack.checkedDropTwo
  | addStore => .bind (.plain _) fun _ => .bind (checkedOnData (Stack.checkedPick 0)) fun _ =>
      .bind (checkedOnData (Stack.checkedPick 1)) fun _ => .bind (.plain _) fun _ =>
        .bind (.plain _) fun _ => checkedOnData Stack.checkedDropTwo
  | comma => .bind checkedPeek fun _ => .bind (checkedCompileCell _) fun _ =>
      checkedOnData Stack.checkedDrop
  | here => .bind (.plain _) fun _ => checkedPush _
  | allot => .bind checkedPeek fun _ => .bind (checkedAllot _) fun _ =>
      checkedOnData Stack.checkedDrop

def RadixWord.checked : (word : RadixWord) → Checked word.perform
  | decimal => .plain _
  | hex => .plain _
  | setBase => .bind checkedPeek fun _ => .bind (.plain _) fun _ => .bind (.plain _) fun _ =>
      checkedOnData Stack.checkedDrop
  | getBase => .bind (.plain _) fun _ => checkedPush _

def ControlWord.checkedBuild : (word : ControlWord) → Checked word.build
  | openIf => .bind (checkedCompileCell _) fun _ => checkedMarkForward
  | turnElse => .bind (checkedPopControl _) fun _ => .bind (checkedCompileCell _) fun _ =>
      .bind checkedMarkForward fun _ => .plain _
  | closeThen => .bind (checkedPopControl _) fun _ => .plain _
  | openBegin => checkedMarkHere _
  | closeUntil => .bind (checkedPopControl _) fun _ => .bind (checkedCompileCell _) fun _ =>
      checkedCompileBackward _
  | closeAgain => .bind (checkedPopControl _) fun _ => .bind (checkedCompileCell _) fun _ =>
      checkedCompileBackward _
  | turnWhile => .bind (checkedPopControl _) fun _ => .bind (checkedCompileCell _) fun _ =>
      .bind checkedMarkForward fun _ => checkedPushControl _ _
  | closeRepeat => .bind (checkedPopControl _) fun _ => .bind (checkedCompileCell _) fun _ =>
      .bind (checkedCompileBackward _) fun _ => .bind (checkedPopControl _) fun _ => .plain _
  | openDo => .bind (checkedCompileCell _) fun _ => checkedMarkHere _
  | closeLoop => .bind (checkedPopControl _) fun _ => .bind (checkedCompileCell _) fun _ =>
      checkedCompileBackward _
  | closePlusLoop => .bind (checkedPopControl _) fun _ => .bind (checkedCompileCell _) fun _ =>
      checkedCompileBackward _

def DefiningWord.checked : (word : DefiningWord) → Checked word.perform
  | colon => checkedBeginDefinition
  | semicolon => checkedEndDefinition
  | immediate => .plain _
  | create => checkedCreate
  | cellVariable => .bind checkedCreate fun _ => checkedCompileCell _
  | constant => checkedMakeConstant
  | tick => .bind (.plain _) fun _ => checkedPush _
  | bracketTick => .bind (.plain _) fun _ => .bind (.plain _) fun _ => checkedCompileInteger _
  | leftBracket => .plain _
  | rightBracket => .plain _
  | literal => .bind (.plain _) fun _ => .bind checkedPop fun _ => checkedCompileInteger _
  | recurse => checkedCompileSelf
  | char => .bind checkedParseChar fun _ => checkedPush _
  | bracketChar => .bind (.plain _) fun _ => .bind checkedParseChar fun _ =>
      checkedCompileInteger _
  | paren => .plain _
  | backslash => .plain _

/-- A number is written in the radix that the register `base` holds. -/
def Exec.checkedWriteNumber (text : Nat → List UInt8) :
    Checked (do
      let base ← reg (·.base)
      write (text base.toNat)
      write [Ascii.space]) :=
  .bind (.plain _) fun base =>
    .bind (.guarded (fun _ => Numeral.IsRadix base.toNat) (.plain _)) fun _ => .plain _

/-- The stack is shown by its slice of memory. -/
def OutputWord.checked : (word : OutputWord) → Checked word.perform
  | emit => .bind checkedPop fun _ => .plain _
  | dot => .bind checkedPop fun n => checkedWriteNumber (Numeral.formatSigned n)
  | unsignedDot => .bind checkedPop fun n => checkedWriteNumber (Numeral.formatUnsigned n)
  | newline => .plain _
  | space => .plain _
  | spaces => .bind checkedPop fun _ => .plain _
  | dotQuote => .bind (.plain _) fun _ => .bind (.plain _) fun _ =>
      .ite (.bind (checkedCompileCell _) fun _ => checkedCompileString _) (.plain _)
  | words => .plain _
  | showStack =>
    .bind
      (.guarded (fun m => m.dataStack.SliceInMemory ∧ Numeral.IsRadix 10 ∧
        Numeral.IsRadix m.regs.base.toNat) (.plain _)) fun _ => .plain _

def Runtime.checked : (r : Runtime) → Checked r.perform
  | nest =>
    .bind (.plain _) fun _ => .bind (checkedOnReturn (Stack.checkedPush _)) fun _ => .plain _
  | address => .bind (.plain _) fun _ => checkedPush _
  | constant => .bind (.plain _) fun _ => .bind (.plain _) fun _ => checkedPush _
  | literal => .bind (.plain _) fun _ => checkedPush _
  | branch => .plain _
  | zeroBranch => .bind (.plain _) fun _ => .bind checkedPop fun _ => .plain _
  | enterLoop => .bind (.plain _) fun _ => .bind (.plain _) fun _ => .bind checkedPop fun _ =>
      .bind checkedPop fun _ => checkedOnReturn (Stack.checkedPushTwo _ _)
  | stepLoop => checkedStepLoop 1
  | stepLoopBy => .bind (.plain _) fun _ => .bind checkedPop fun _ => checkedStepLoop _
  | print => .plain _
  | exit => .bind (checkedOnReturn Stack.checkedPop) fun _ => .plain _

namespace Exec

def checkedAddPrimitive (name : String) (action : Action) : Checked (addPrimitive name action) :=
  .bind (.plain _) fun _ => .bind (checkedCreateRecord _ _ _) fun _ => .plain _

def checkedAddImmediate (name : String) (action : Action) : Checked (addImmediate name action) :=
  .bind (checkedAddPrimitive name action) fun _ => .plain _

def checkedAddBuiltin (word : Builtin) : Checked (addBuiltin word) :=
  .ite (.bind (checkedAddImmediate _ _) fun _ => .plain _)
    (.bind (checkedAddPrimitive _ _) fun _ => .plain _)

def checkedAddBuiltins : (words : List Builtin) → Checked (words.forM addBuiltin)
  | [] => .plain _
  | word :: words => .bind (checkedAddBuiltin word) fun _ => checkedAddBuiltins words

end Exec

def Action.checkedStep : (action : Action) → Checked action.step
  | stack word => checkedOnData word.checkedEffect
  | returns word => word.checked
  | unary _ => checkedOnData (Stack.checkedUnary _)
  | binary word => word.checked
  | divMod => checkedOnData Stack.checkedDivMod
  | storage word => word.checked
  | radix word => word.checked
  | define word => word.checked
  | control word => .bind (.plain _) fun _ => word.checkedBuild
  | output word => word.checked
  | runtime r => r.checked
  | key => .bind (.plain _) fun _ => checkedPush _
  | parseWord => .plain _
  | install set => checkedAddBuiltins set.words
  | value c => checkedPush c
  | noop => .plain _
  | execute => .plain _
  | resume => .plain _

/-! ### Running words -/

namespace Exec

theorem actWithin_of_step {action : Action} (hexecute : action ≠ .execute)
    (hresume : action ≠ .resume) (rounds : Nat) :
    actWithin rounds action = action.step >>= fun _ => pure Continuation.done :=
  actWithin.eq_4 _ _ hresume (fun _ => hexecute) fun _ _ => hexecute

/-- Every word whose token is taken off the stack has its own form. -/
def checkedActWithin (rounds : Nat) (action : Action) : Checked (actWithin rounds action) :=
  -- Only after the actions that hand over are set apart is the rest a single step.
  if hexecute : action = .execute then
    match rounds with
    | 0 => .plain _
    | rounds + 1 =>
      .congr (x := pop >>= fun xt => resolve xt >>= actWithin rounds) (by rw [hexecute]; rfl)
        (.bind checkedPop fun _ => .bind (.plain _) fun action => checkedActWithin rounds action)
  else if hresume : action = .resume then .plain _
  else
    .congr (actWithin_of_step hexecute hresume rounds).symm
      (.bind action.checkedStep fun _ => .plain _)

def checkedAct (action : Action) : Checked (act action) :=
  .bind (.plain _) fun rounds => checkedActWithin rounds action

def checkedExecute (xt : Cell) : Checked (execute xt) :=
  .bind (.plain _) fun action => checkedAct action

def checkedEnterNumber (c : Cell) : Checked (enterNumber c) :=
  .bind (.plain _) fun _ => .ite (checkedCompileInteger c) (checkedPush c)

/-- A token that is no word is read as a number, with values that fit thirty-two bits. -/
def checkedEnterToken (token : List UInt8) : Checked (enterToken token) :=
  .bind (.plain _) fun
    | some r => .bind (.plain _) fun _ =>
        .ite (.bind (checkedCompileReference r) fun _ => .plain _)
          (.bind (checkedExecute _) fun _ => .plain _)
    | none => .bind (.plain _) fun base =>
        .guarded (fun _ => ∀ v ∈ Numeral.values token base, v < 2 ^ 32)
          (match Numeral.read? token base with
          | some c => .bind (checkedEnterNumber c) fun _ => .plain _
          | none => .plain _)

def checkedAddVocabulary : Checked addVocabulary :=
  .bind (.plain _) fun _ => checkedAddBuiltins Vocabulary.builtins

end Exec

/-! ### Runs and requests -/

namespace Machine

def checkedStepThread : Checked stepThread :=
  .bind (.plain _) fun _ => .bind (.plain _) fun xt => .bind (.plain _) fun _ =>
    .bind (checkedExecute xt) fun _ => .plain _

/-- Runs threaded code in checked form. -/
def checkedThread : (steps : Nat) → Machine → Option (Outcome Unit)
  | steps, m =>
    if m.regs.ip = 0 then some (some (.ok () m))
    else
      match steps with
      | 0 => some none
      | steps + 1 =>
        match checkedStepThread.run m with
        | none => none
        | some (.ok _ m) => checkedThread steps m
        | some (.error e m) => some (some (.error e m))

/-- Does what is left to do after a word, in checked form. -/
def checkedContinue (steps : Nat) :
    Option (EStateM.Result Fault Machine Continuation) → Option (Outcome Unit)
  | none => none
  | some (.ok .done m) => some (some (.ok () m))
  | some (.ok .resume m) => checkedThread steps m
  | some (.error e m) => some (some (.error e m))

/-- Interprets a token in checked form. -/
def checkedInterpretToken (steps : Nat) (token : List UInt8) (m : Machine) :
    Option (Outcome Unit) :=
  match checkedContinue steps ((checkedEnterToken token).run { m with token := [] }) with
  | none => none
  | some none => some none
  | some (some (.ok _ m)) => some (some (.ok () (m.restoreToken token)))
  | some (some (.error e m)) => some (some (.error e (m.restoreToken token)))

/-- Interprets the input in checked form. -/
def checkedInterpret : (steps : Nat) → Machine → Option (Outcome Unit)
  | steps, m =>
    match Exec.parseWord m with
    | .error e m => some (some (.error e m))
    | .ok _ m =>
      if m.token.isEmpty then some (some (.ok () m))
      else
        match steps with
        | 0 => some none
        | steps + 1 =>
          match checkedInterpretToken steps m.token m with
          | none => none
          | some none => some none
          | some (some (.error e m)) => some (some (.error e m))
          | some (some (.ok _ m)) => checkedInterpret steps m

/-- Interprets the input in checked form, as a call of the host. -/
def checkedRun (steps : Nat) (m : Machine) : Option (Option (HostResult Unit)) :=
  match m.poison? with
  | some f => some (some (.error (.poisoned f) m))
  | none => (m.checkedInterpret steps).map (Option.map finishRun)

/-- Interprets a text in checked form. -/
def checkedEvaluate (steps : Nat) (text : String) (m : Machine) :
    Option (Option (HostResult Unit)) :=
  match m.poison? with
  | some f => some (some (.error (.poisoned f) m))
  | none => (m.setText text).checkedRun steps

/-- Builds a machine in checked form. -/
def checkedCreate (config : Config) (input : Source) (output : Sink) (verbosity : Verbosity) :
    Option (Except (ConfigError × Journal) Machine) :=
  match config.layout with
  | .error e => some (.error (e, { verbosity }))
  | .ok layout =>
    match checkedAddVocabulary.run (bare config.coreSize layout input output verbosity) with
    | none => none
    | some (.error _ m) => some (.error (.vocabularyDoesNotFit, m.journal))
    | some (.ok _ m) =>
      some (.ok { m with journal := m.journal.record (.created m.memory.size m.regs.here) })

end Machine

namespace Request

/-- The result of an operation in checked form. -/
def ofChecked {α : Type} (answer : α → Answer) {op : Exec α} (form : Checked op) (m : Machine) :
    Option Result :=
  (form.run m).map fun r => ofExec answer (fun _ => r) m

/-- Answers a request in checked form. The requests that are not listed move no pointer, take no
slice of a stack and write no number. -/
def checked (steps : Nat) : Request → Machine → Option Result
  | evaluate text, m => (m.checkedEvaluate steps text).map ofHost
  | run, m => (m.checkedRun steps).map ofHost
  | act action, m => (Machine.checkedContinue steps ((checkedAct action).run m)).map ofOutcome
  | executeToken xt, m => (Machine.checkedContinue steps ((checkedExecute xt).run m)).map ofOutcome
  | compileCell c, m => ofChecked (fun _ => .done) (checkedCompileCell c) m
  | compileInteger c, m => ofChecked (fun _ => .done) (checkedCompileInteger c) m
  | compileString bs, m => ofChecked (fun _ => .done) (checkedCompileString bs) m
  | compileReference r, m => ofChecked (fun _ => .done) (checkedCompileReference r) m
  | allot n, m => ofChecked (fun _ => .done) (checkedAllot (Cell.signed n)) m
  | createRecord name code flags, m =>
    ofChecked (.record ∘ some) (checkedCreateRecord name code flags) m
  | addPrimitive name action, m =>
    ofChecked (fun op => .number op.toNat) (checkedAddPrimitive name action) m
  | addImmediate name action, m =>
    ofChecked (fun op => .number op.toNat) (checkedAddImmediate name action) m
  | dataStack request, m => ofChecked id (checkedOnData request.checked) m
  | returnStack request, m => ofChecked id (checkedOnReturn request.checked) m
  | request, m => some (request.perform steps m)

end Request

end CellForth
