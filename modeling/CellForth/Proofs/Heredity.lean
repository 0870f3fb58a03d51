import CellForth.Request
import CellForth.Proofs.Exchange
import CellForth.Proofs.Machine

/-!
# What words inherit from their parts

All actions, and with them all of interpreting and compiling, are made of a few elementary
operations: looks at memory and registers, safe operations of the two stacks, storing a cell, adding
to the dictionary or moving its end, setting single registers, reading a name, and writing. A
property of operations is hereditary if it holds of these and passes from the steps of a sequence
to the sequence. The theorems below walk once through all actions and conclude that a hereditary
property holds of every one of them (`Hereditary.step`).

Of the elementary operations, three move the compiler: one switches between running and compiling,
and two open and complete a definition. A property that is asked of the others only is steady, and
every action inherits it but for the four words that are made of these three (`Steady.step`). Few of
the others have to do with the register `w`, which holds the token of the word that runs: it is set
when a word is looked up, and three runtime actions read it. Without these, a property is common
(`Common.step`). Only runtime actions set the instruction pointer, and a property that is not asked
of this either is ordinary (`Ordinary.step`).

That an operation keeps an invariant is such a property, and so is that two machines which differ
only in their devices take it in step. A look may not depend on the devices then, which is what
`DeviceBlind` says; every look that a word takes is of this kind.

The five actions that read the input other than by names are treated apart: what they do at the end
of the input is not always what the property allows. Each of them is a read, and something behind
it that is hereditary again (`Ordinary.step_of_delimiter`, `Ordinary.step_key`). So are the actions
that register words, for not every property outlives another opcode (`Ordinary.install`). A property
that holds of reading and of registering is outward.

A stack operation is safe if it keeps the stack in its bounds and leaves its frame alone; which
cells of the range it writes does not matter here.
-/

namespace CellForth

/-! ### Safe operations of a stack -/

/-- What no operation of a stack changes. -/
structure Stack.Frame where
  /-- The lowest slot. -/
  base : Cell
  /-- The end of the range. -/
  limit : Cell
  /-- The number of cells of the memory around it. -/
  size : Nat

/-- The frame of a stack. -/
def Stack.frame (s : Stack) : Stack.Frame :=
  ⟨s.base, s.limit, s.memory.size⟩

/-- The operation keeps the stack in its bounds and leaves its frame alone. -/
def Stack.Safe {α : Type} (op : StackM α) : Prop :=
  ∀ g, Keeps (fun s => s.WithinBounds ∧ s.frame = g) op

namespace Stack.Safe

variable {α β : Type}

theorem pure (a : α) : Stack.Safe (Pure.pure a) := fun _ => .pure a

theorem observe (f : Stack → Except Fault α) : Stack.Safe (observe f) := fun _ => .observe f

theorem settle (r : Except Fault α) : Stack.Safe (settle r) := fun _ => .settle r

theorem bind {x : StackM α} {f : α → StackM β} (hx : Stack.Safe x)
    (hf : ∀ a, Stack.Safe (f a)) : Stack.Safe (x >>= f) :=
  fun g => .bind (hx g) fun a => hf a g

theorem pick (n : Nat) : Stack.Safe (Stack.pick n) := observe _

theorem peek : Stack.Safe Stack.peek := pick 0

theorem require (n : Nat) : Stack.Safe (Stack.require n) := observe _

theorem frame_replaced (s : Stack) (n : Nat) (vs : List Cell) :
    (s.replaced n vs).frame = s.frame := by
  simp [Stack.frame]

/-- What is refused in place, or else replaces items at the top, is safe. -/
theorem of_replaces {op : StackM α} (h : Stack.Replaces op) : Stack.Safe op := by
  rintro g s ⟨hs, rfl⟩
  obtain ⟨e, he⟩ | ⟨a, n, vs, hfits, hok⟩ := h s hs
  · rw [he]
    exact ⟨hs, rfl⟩
  · rw [hok]
    exact ⟨hs.replaced hfits, frame_replaced ..⟩

theorem push (v : Cell) : Stack.Safe (Stack.push v) := of_replaces (Stack.replaces_push v)

theorem pop : Stack.Safe Stack.pop := of_replaces Stack.drops_pop.replaces

theorem set (n : Nat) (v : Cell) : Stack.Safe (Stack.set n v) := by
  rintro g s ⟨hs, rfl⟩
  have hsize : (s.memory.overlay (s.pointer.toNat - 1 - n) [v]).size = s.memory.size :=
    Memory.size_overlay ..
  rw [hs.set_eq]
  split
  · refine ⟨⟨hs.base_le, hs.pointer_le, ?_⟩, ?_⟩
    · exact hsize ▸ hs.limit_le
    · exact congrArg (Stack.Frame.mk s.base s.limit) hsize
  · exact ⟨hs, rfl⟩

theorem drop : Stack.Safe Stack.drop := of_replaces Stack.drops_drop.replaces

theorem dropTwo : Stack.Safe Stack.dropTwo := of_replaces Stack.drops_dropTwo.replaces

theorem pushTwo (x y : Cell) : Stack.Safe (Stack.pushTwo x y) :=
  of_replaces (Stack.replaces_pushTwo x y)

/-- Every stack word is safe. -/
theorem effect (word : StackWord) : Stack.Safe word.effect :=
  of_replaces (Stack.replaces_effect word)

/-- Every request that a host can make of a stack is safe. -/
theorem perform (request : StackRequest) : Stack.Safe request.perform := by
  unfold StackRequest.perform
  cases request with
  | push c => exact bind (push c) fun _ => pure _
  | pop => exact bind pop fun _ => pure _
  | peek => exact bind peek fun _ => pure _
  | pick n => exact bind (pick n) fun _ => pure _
  | set n c => exact bind (set n c) fun _ => pure _
  | require n => exact bind (require n) fun _ => pure _
  | size => exact observe _
  | isEmpty => exact observe _
  | capacity => exact observe _
  | items => exact observe _

end Stack.Safe

/-! ### Hereditary properties -/

/-- The machine with other devices. -/
def Machine.withDevices (input : Source) (output : Sink) (journal : Journal) (m : Machine) :
    Machine :=
  { m with input := input, output := output, journal := journal }

/-- The look does not depend on input, output and journal. -/
def DeviceBlind {α : Type} (f : Machine → Except Fault α) : Prop :=
  ∀ input output journal m, f (m.withDevices input output journal) = f m

/-- The machine with another token in the register `w`. -/
def Machine.withW (w : Cell) (m : Machine) : Machine :=
  { m with regs := { m.regs with w := w } }

/-- The look does not depend on the register `w`. -/
def WordBlind {α : Type} (f : Machine → Except Fault α) : Prop :=
  ∀ w m, f (m.withW w) = f m

/-- The property holds of a sequence if it holds of its steps, and it holds of the operations that
all actions but those of threaded code are made of, except for those that move the compiler. -/
structure Ordinary (K : {α : Type} → Exec α → Prop) : Prop where
  /-- Looking at memory and registers other than `w`. -/
  glance {α : Type} {f : Machine → Except Fault α} : DeviceBlind f → WordBlind f → K (observe f)
  /-- One step after the other. -/
  bind {α β : Type} {x : Exec α} {f : α → Exec β} : K x → (∀ a, K (f a)) → K (x >>= f)
  /-- Safe operations of the data stack. -/
  onData {α : Type} {op : StackM α} : Stack.Safe op → K (Exec.onData op)
  /-- Safe operations of the return stack. -/
  onReturn {α : Type} {op : StackM α} : Stack.Safe op → K (Exec.onReturn op)
  /-- Storing a cell anywhere. -/
  put (pos : Nat) (c : Cell) : K (Exec.onMemory (Memory.put pos c))
  /-- Adding a cell to the dictionary. -/
  compileCell (c : Cell) : K (Exec.compileCell c)
  /-- Adding a string to the dictionary. -/
  compileString (bs : List UInt8) : K (Exec.compileString bs)
  /-- Adding a record to the dictionary. -/
  createRecord (name : List UInt8) (code flags : Cell) : K (Exec.createRecord name code flags)
  /-- Moving the end of the dictionary. -/
  allot (n : Int) : K (Exec.allot n)
  /-- Setting a radix that exists. -/
  setBase (b : Cell) : 2 ≤ b ∧ b ≤ 36 → K (Exec.setRegs fun regs => { regs with base := b })
  /-- Reading a name. -/
  parseName : K Exec.parseName
  /-- Writing to the output. -/
  write (bs : List UInt8) : K (Exec.write bs)

/-- The property holds of a sequence if it holds of its steps, and it holds of the operations that
all actions are made of, but for those that move the compiler and those that have to do with the
register `w`. -/
structure Common (K : {α : Type} → Exec α → Prop) : Prop extends Ordinary K where
  /-- Setting the instruction pointer to what does not depend on `w`. -/
  moveIp (f : Registers → Cell) : (∀ regs w, f { regs with w := w } = f regs) →
    K (Exec.setRegs fun regs => { regs with ip := f regs })

/-- The property holds of a sequence if it holds of its steps, and it holds of the operations that
all actions are made of, but for those that move the compiler. -/
structure Steady (K : {α : Type} → Exec α → Prop) : Prop extends Common K where
  /-- Looking at memory and registers. -/
  look {α : Type} {f : Machine → Except Fault α} : DeviceBlind f → K (observe f)
  /-- Setting the instruction pointer. -/
  setIp (f : Registers → Cell) : K (Exec.setRegs fun regs => { regs with ip := f regs })
  /-- Setting the token of the word that runs. -/
  setW (xt : Cell) : K (Exec.setRegs fun regs => { regs with w := xt })
  glance hf _ := look hf
  moveIp f _ := setIp f

/-- The property holds of the operations that all actions are made of, and of a sequence if it holds
of its steps. -/
structure Hereditary (K : {α : Type} → Exec α → Prop) : Prop extends Steady K where
  /-- Switching between running and compiling. -/
  setMode (mode : Mode) : K (Exec.setMode mode)
  /-- Opening a definition. -/
  beginDefinition : K Exec.beginDefinition
  /-- Completing a definition. -/
  endDefinition : K Exec.endDefinition

/-- Does the word move the compiler? -/
def DefiningWord.switches : DefiningWord → Bool
  | colon | semicolon | leftBracket | rightBracket => true
  | _ => false

/-- Does the action move the compiler? -/
def Action.switches : Action → Bool
  | define word => word.switches
  | _ => false

/-- Does the action belong to threaded code? -/
def Action.isRuntime : Action → Bool
  | runtime _ => true
  | _ => false

/-- Does the runtime action read the token of the word that runs? -/
def Runtime.readsW : Runtime → Bool
  | nest | address | constant => true
  | _ => false

/-- Does the action read the token of the word that runs? -/
def Action.readsW : Action → Bool
  | runtime r => r.readsW
  | _ => false

/-- Does the action register words? -/
def Action.installs : Action → Bool
  | install _ => true
  | _ => false

/-- Does the action read the input other than by names? -/
def Action.reads : Action → Bool
  | define .paren | define .backslash | output .dotQuote | key | parseWord => true
  | _ => false

/-- The property holds of what only a few actions do: reading the input other than by names, and
registering words. -/
structure Outward (K : {α : Type} → Exec α → Prop) : Prop where
  /-- Reading up to a delimiter. -/
  parse (delimiter : UInt8) : K (Exec.parse delimiter)
  /-- Reading a byte. -/
  readByte : K (Exec.onInput Source.read)
  /-- Reading a token. -/
  parseWord : K Exec.parseWord
  /-- Giving an action the next opcode. Those that read `w` are not among the words of a set. -/
  addRuntime (name : String) {action : Action} (hw : action.readsW = false) :
    K (Exec.addRuntime name action)

theorem WordSet.readsW_of_mem_words {set : WordSet} {word : Builtin} (h : word ∈ set.words) :
    word.action.readsW = false := by
  have hall : ∀ word ∈ set.words, word.action.readsW = false := by cases set <;> decide
  exact hall word h

/-- The delimiter up to which a word reads the input. -/
def Action.delimiter? : Action → Option UInt8
  | define .paren => some Ascii.closeParen
  | define .backslash => some Ascii.lineFeed
  | output .dotQuote => some Ascii.quote
  | _ => none

namespace Ordinary

variable {K : {α : Type} → Exec α → Prop} {α β : Type} (h : Ordinary K)
include h

theorem pure (a : α) : K (Pure.pure a : Exec α) :=
  h.glance (f := fun _ => .ok a) (fun _ _ _ _ => rfl) fun _ _ => rfl

theorem throw (e : Fault) : K (MonadExcept.throw e : Exec α) :=
  h.glance (f := fun _ => .error e) (fun _ _ _ _ => rfl) fun _ _ => rfl

theorem settle (r : Except Fault α) : K (settle r : Exec α) :=
  h.glance (fun _ _ _ _ => rfl) fun _ _ => rfl

theorem read (f : Registers → α) (hf : ∀ regs w, f { regs with w := w } = f regs) :
    K (Exec.reg f) :=
  h.glance (f := fun m => .ok (f m.regs)) (fun _ _ _ _ => rfl) fun w m => congrArg _ (hf m.regs w)

theorem fetch (pos : Nat) : K (Exec.fetch pos) :=
  h.glance (fun _ _ _ _ => rfl) fun _ _ => rfl

omit h in
theorem ite {c : Prop} [Decidable c] {x y : Exec α} (hx : K x) (hy : K y) :
    K (if c then x else y) := by
  split
  · exact hx
  · exact hy

/-- The steps behind a demand may use that it was met. -/
theorem demand_bind {p : Prop} [Decidable p] {e : Fault} {f : Unit → Exec β}
    (hf : p → K (f ())) : K (CellForth.settle (demand p e) >>= f) := by
  by_cases hp : p
  · have hmet : (CellForth.settle (demand p e) >>= f) = f () := by
      rw [demand_of_pos hp]
      rfl
    rw [hmet]
    exact hf hp
  · have hrefused : (CellForth.settle (demand p e) >>= f) = MonadExcept.throw e := by
      rw [demand_of_neg hp]
      rfl
    rw [hrefused]
    exact h.throw e

theorem push (c : Cell) : K (Exec.push c) := h.onData (.push c)

theorem pop : K Exec.pop := h.onData .pop

theorem peek : K Exec.peek := h.onData .peek

theorem parseToken : K Exec.parseToken :=
  h.bind h.parseName fun _ => h.bind (h.glance (fun _ _ _ _ => rfl) fun _ _ => rfl) fun found => by
    cases found with
    | some r => exact h.pure _
    | none => exact h.throw _

theorem parseChar : K Exec.parseChar :=
  h.bind h.parseName fun _ => h.pure _

theorem requireCompiling : K Exec.requireCompiling := h.glance (fun _ _ _ _ => rfl) fun _ _ => rfl

theorem requireNesting (p : Registers → Bool) (hp : ∀ regs w, p { regs with w := w } = p regs) :
    K (Exec.requireNesting p) :=
  h.glance (fun _ _ _ _ => rfl) fun w m =>
    congrArg (fun b : Bool => demand (b = true) Fault.compilerNesting) (hp m.regs w)

theorem compileInteger (c : Cell) : K (Exec.compileInteger c) :=
  h.bind (h.compileCell _) fun _ => h.compileCell _

theorem compileReference (r : Record) : K (Exec.compileReference r) :=
  h.bind (h.fetch _) fun _ => ite (h.compileCell _) (h.compileCell _)

theorem enterNumber (c : Cell) : K (Exec.enterNumber c) :=
  h.bind (h.read _ fun _ _ => rfl) fun _ => ite (h.compileInteger c) (h.push c)

theorem updateHeader (address : Nat) (f : Cell → Cell) : K (Exec.updateHeader address f) :=
  h.bind (h.settle _) fun _ => h.bind (h.fetch _) fun _ => h.put _ _

theorem setImmediate : K Exec.setImmediate :=
  h.bind (h.read _ fun _ _ => rfl) fun _ => h.updateHeader _ _

theorem reveal (address : Nat) : K (Exec.reveal address) := h.updateHeader _ _

/-! ### Words -/

theorem returnWord (word : ReturnWord) : K word.perform := by
  cases word with
  | toReturn =>
    exact h.bind h.peek fun _ => h.bind (h.onReturn (.push _)) fun _ => h.onData .drop
  | fromReturn =>
    exact h.bind (h.onReturn .peek) fun _ => h.bind (h.push _) fun _ => h.onReturn .drop
  | fetchReturn => exact h.bind (h.onReturn .peek) fun _ => h.push _
  | outerIndex => exact h.bind (h.onReturn (.pick _)) fun _ => h.push _
  | unloop => exact h.onReturn .dropTwo

/-- The words that store look at two operands first. -/
theorem twoOperands {k : Cell → Cell → Exec Unit} (hk : ∀ address x, K (k address x)) :
    K (do
      Exec.onData (Stack.require 2)
      let address ← Exec.onData (Stack.pick 0)
      let x ← Exec.onData (Stack.pick 1)
      k address x) :=
  h.bind (h.onData (.require _)) fun _ => h.bind (h.onData (.pick _)) fun _ =>
    h.bind (h.onData (.pick _)) fun _ => hk _ _

theorem storageWord (word : StorageWord) : K word.perform := by
  cases word with
  | fetch => exact h.bind h.peek fun _ => h.bind (h.fetch _) fun _ => h.onData (.set _ _)
  | store =>
    exact h.twoOperands fun _ _ => h.bind (h.put _ _) fun _ => h.onData .dropTwo
  | addStore =>
    exact h.twoOperands fun _ _ => h.bind (h.fetch _) fun _ => h.bind (h.put _ _) fun _ =>
      h.onData .dropTwo
  | comma => exact h.bind h.peek fun _ => h.bind (h.compileCell _) fun _ => h.onData .drop
  | here => exact h.bind (h.read _ fun _ _ => rfl) fun _ => h.push _
  | allot => exact h.bind h.peek fun _ => h.bind (h.allot _) fun _ => h.onData .drop

theorem radixWord (word : RadixWord) : K word.perform := by
  cases word with
  | decimal => exact h.setBase 10 (by decide)
  | hex => exact h.setBase 16 (by decide)
  | setBase =>
    exact h.bind h.peek fun base => h.demand_bind fun hbase =>
      h.bind (h.setBase base hbase) fun _ => h.onData .drop
  | getBase => exact h.bind (h.read _ fun _ _ => rfl) fun _ => h.push _

theorem pushControl (address : Cell) (tag : ControlTag) : K (Exec.pushControl address tag) :=
  h.onData (.pushTwo _ _)

theorem popControl (tag : ControlTag) : K (Exec.popControl tag) :=
  h.bind (h.glance (fun _ _ _ _ => rfl) fun _ _ => rfl) fun _ => h.bind h.peek fun _ =>
    h.bind (h.settle _) fun _ => h.bind h.pop fun _ => h.pop

theorem compileRuntime (r : Runtime) : K (Exec.compileRuntime r) := h.compileCell _

theorem markForward : K Exec.markForward :=
  h.bind (h.read _ fun _ _ => rfl) fun _ => h.bind (h.compileCell _) fun _ => h.pushControl _ _

theorem resolveForward (origin : Cell) : K (Exec.resolveForward origin) :=
  h.bind (h.read _ fun _ _ => rfl) fun _ => h.put _ _

theorem compileBackward (destination : Cell) : K (Exec.compileBackward destination) :=
  h.bind (h.read _ fun _ _ => rfl) fun _ => h.compileCell _

theorem markHere (tag : ControlTag) : K (Exec.markHere tag) :=
  h.bind (h.read _ fun _ _ => rfl) fun _ => h.pushControl _ _

/-- The words that close a loop take its entry off, compile a jump and lead it back. -/
theorem closeBackward (tag : ControlTag) (r : Runtime) :
    K (do
      let destination ← Exec.popControl tag
      Exec.compileRuntime r
      Exec.compileBackward destination) :=
  h.bind (h.popControl _) fun _ => h.bind (h.compileRuntime _) fun _ => h.compileBackward _

theorem build (word : ControlWord) : K word.build := by
  cases word with
  | openIf => exact h.bind (h.compileRuntime _) fun _ => h.markForward
  | turnElse =>
    exact h.bind (h.popControl _) fun _ => h.bind (h.compileRuntime _) fun _ =>
      h.bind h.markForward fun _ => h.resolveForward _
  | closeThen => exact h.bind (h.popControl _) fun _ => h.resolveForward _
  | openBegin => exact h.markHere _
  | closeUntil => exact h.closeBackward _ _
  | closeAgain => exact h.closeBackward _ _
  | turnWhile =>
    exact h.bind (h.popControl _) fun _ => h.bind (h.compileRuntime _) fun _ =>
      h.bind h.markForward fun _ => h.pushControl _ _
  | closeRepeat =>
    exact h.bind (h.popControl _) fun _ => h.bind (h.compileRuntime _) fun _ =>
      h.bind (h.compileBackward _) fun _ => h.bind (h.popControl _) fun _ => h.resolveForward _
  | openDo => exact h.bind (h.compileRuntime _) fun _ => h.markHere _
  | closeLoop => exact h.closeBackward _ _
  | closePlusLoop => exact h.closeBackward _ _

theorem controlWord (word : ControlWord) : K word.perform :=
  h.bind h.requireCompiling fun _ => h.build word

theorem create : K Exec.create :=
  h.bind h.parseName fun _ => h.bind (h.createRecord _ _ _) fun _ => h.pure _

/-- Every defining word, but those that read up to a delimiter and those that move the compiler. -/
theorem definingWord (word : DefiningWord) (hword : (Action.define word).reads = false)
    (hswitches : word.switches = false) : K word.perform := by
  cases word with
  | colon => cases hswitches
  | semicolon => cases hswitches
  | immediate => exact h.setImmediate
  | create => exact h.create
  | cellVariable => exact h.bind h.create fun _ => h.compileCell _
  | constant =>
    exact h.bind h.pop fun _ => h.bind h.parseName fun _ => h.bind (h.createRecord _ _ _) fun _ =>
      h.compileCell _
  | tick => exact h.bind h.parseToken fun _ => h.push _
  | bracketTick =>
    exact h.bind h.requireCompiling fun _ => h.bind h.parseToken fun _ => h.compileInteger _
  | leftBracket => cases hswitches
  | rightBracket => cases hswitches
  | literal =>
    exact h.bind h.requireCompiling fun _ => h.bind h.pop fun _ => h.compileInteger _
  | recurse =>
    exact h.bind h.requireCompiling fun _ => h.bind (h.requireNesting _ fun _ _ => rfl) fun _ =>
      h.bind (h.glance (fun _ _ _ _ => rfl) fun _ _ => rfl) fun _ => h.compileCell _
  | char => exact h.bind h.parseChar fun _ => h.push _
  | bracketChar =>
    exact h.bind h.requireCompiling fun _ => h.bind h.parseChar fun _ => h.compileInteger _
  | paren => cases hword
  | backslash => cases hword

/-- The words that write a number take it off, and write its digits and a space. -/
theorem writeNumber (text : Cell → Cell → List UInt8) :
    K (do
      let n ← Exec.pop
      let base ← Exec.reg (·.base)
      Exec.write (text n base)
      Exec.write [Ascii.space]) :=
  h.bind h.pop fun _ => h.bind (h.read _ fun _ _ => rfl) fun _ => h.bind (h.write _) fun _ =>
    h.write _

/-- Every output word, but the one that reads up to a delimiter. -/
theorem outputWord (word : OutputWord) (hword : (Action.output word).reads = false) :
    K word.perform := by
  cases word with
  | emit => exact h.bind h.pop fun _ => h.write _
  | dot => exact h.writeNumber fun n base => Numeral.formatSigned n base.toNat
  | unsignedDot => exact h.writeNumber fun n base => Numeral.formatUnsigned n base.toNat
  | newline => exact h.write _
  | space => exact h.write _
  | spaces => exact h.bind h.pop fun _ => ite (h.write _) (h.pure _)
  | dotQuote => cases hword
  | words => exact h.bind (h.glance (fun _ _ _ _ => rfl) fun _ _ => rfl) fun _ => h.write _
  | showStack => exact h.bind (h.glance (fun _ _ _ _ => rfl) fun _ _ => rfl) fun _ => h.write _

/-- A word that reads up to a delimiter does something behind it that inherits the property. -/
theorem step_of_delimiter {action : Action} {d : UInt8} (hd : action.delimiter? = some d) :
    ∃ rest : List UInt8 → Exec Unit, action.step = Exec.parse d >>= rest ∧
      ∀ text, K (rest text) := by
  unfold Action.delimiter? at hd
  split at hd
  · cases hd
    exact ⟨_, rfl, fun _ => h.pure _⟩
  · cases hd
    exact ⟨_, rfl, fun _ => h.pure _⟩
  · cases hd
    exact ⟨_, rfl, fun _ => h.bind (h.read _ fun _ _ => rfl) fun _ =>
      ite (h.bind (h.compileCell _) fun _ => h.compileString _) (h.write _)⟩
  · cases hd

/-- What follows the read of a byte inherits the property. -/
theorem step_key : ∃ rest : Option UInt8 → Exec Unit,
    Action.key.step = Exec.onInput Source.read >>= rest ∧ ∀ b, K (rest b) :=
  ⟨_, rfl, fun _ => h.push _⟩

theorem forM {f : α → Exec Unit} {as : List α} (hf : ∀ a ∈ as, K (f a)) : K (as.forM f) := by
  induction as with
  | nil => exact h.pure _
  | cons a as ih =>
    exact h.bind (hf a List.mem_cons_self) fun _ => ih fun b hb => hf b (List.mem_cons_of_mem a hb)

theorem addPrimitive {name : String} {action : Action} (hadd : K (Exec.addRuntime name action)) :
    K (Exec.addPrimitive name action) :=
  h.bind hadd fun _ => h.bind (h.createRecord _ _ _) fun _ => h.pure _

theorem addImmediate {name : String} {action : Action} (hadd : K (Exec.addRuntime name action)) :
    K (Exec.addImmediate name action) :=
  h.bind (h.addPrimitive hadd) fun _ => h.bind h.setImmediate fun _ => h.pure _

theorem addBuiltin {word : Builtin} (hadd : K (Exec.addRuntime word.name word.action)) :
    K (Exec.addBuiltin word) :=
  ite (h.bind (h.addImmediate hadd) fun _ => h.pure _)
    (h.bind (h.addPrimitive hadd) fun _ => h.pure _)

/-- Words are registered one after the other. -/
theorem install
    (hadd : ∀ name {action : Action}, action.readsW = false → K (Exec.addRuntime name action))
    (set : WordSet) : K (Exec.install set) :=
  h.forM fun word hword => h.addBuiltin (hadd word.name (WordSet.readsW_of_mem_words hword))

/-- Every action that reads no input but names and registers no words inherits the property, unless
it moves the compiler or belongs to threaded code. -/
theorem step_of_reads_names {action : Action} (hreads : action.reads = false)
    (hinstalls : action.installs = false) (hswitches : action.switches = false)
    (hruntime : action.isRuntime = false) : K action.step := by
  cases action with
  | stack word => exact h.onData (.effect word)
  | returns word => exact h.returnWord word
  | unary word => exact h.onData (.of_replaces (Stack.replaces_unary _))
  | binary word => exact h.onData (.of_replaces (Stack.replaces_binary _))
  | divMod => exact h.onData (.of_replaces Stack.replaces_divMod)
  | storage word => exact h.storageWord word
  | radix word => exact h.radixWord word
  | define word => exact h.definingWord word hreads hswitches
  | control word => exact h.controlWord word
  | output word => exact h.outputWord word hreads
  | runtime r => cases hruntime
  | key => cases hreads
  | parseWord => cases hreads
  | install set => cases hinstalls
  | value c => exact h.push c
  | noop => exact h.pure _
  | execute => exact h.pure _
  | resume => exact h.pure _

/-- The actions that read the input other than by names inherit the property, if reading has it. -/
theorem step_of_reads (hparse : ∀ d, K (Exec.parse d)) (hread : K (Exec.onInput Source.read))
    (hword : K Exec.parseWord) {action : Action} (hreads : action.reads = true) :
    K action.step := by
  unfold Action.reads at hreads
  split at hreads
  · exact h.bind (hparse _) fun _ => h.pure _
  · exact h.bind (hparse _) fun _ => h.pure _
  · have hd : (Action.output .dotQuote).delimiter? = some Ascii.quote := rfl
    obtain ⟨rest, heq, hrest⟩ := h.step_of_delimiter hd
    rw [heq]
    exact h.bind (hparse _) hrest
  · obtain ⟨rest, heq, hrest⟩ := h.step_key
    rw [heq]
    exact h.bind hread hrest
  · exact hword
  · cases hreads

/-- The actions that register words inherit the property, if registering one has it. -/
theorem step_of_installs
    (hadd : ∀ name {action : Action}, action.readsW = false → K (Exec.addRuntime name action))
    {action : Action} (hinstalls : action.installs = true) : K action.step := by
  cases action with
  | install set => exact h.install hadd set
  | _ => cases hinstalls

/-- If reading and registering have the property, only the actions that do neither are left. -/
theorem step_of_outward (ho : Outward K) {action : Action}
    (hstep : action.reads = false → action.installs = false → K action.step) : K action.step := by
  cases hreads : action.reads with
  | true => exact h.step_of_reads ho.parse ho.readByte ho.parseWord hreads
  | false =>
    cases hinstalls : action.installs with
    | false => exact hstep hreads hinstalls
    | true => exact h.step_of_installs ho.addRuntime hinstalls

/-- Every action that is a single step inherits the property, unless it moves the compiler or
belongs to threaded code, if reading and registering have it too. -/
theorem step (ho : Outward K) {action : Action} (hswitches : action.switches = false)
    (hruntime : action.isRuntime = false) : K action.step :=
  h.step_of_outward ho fun hreads hinstalls =>
    h.step_of_reads_names hreads hinstalls hswitches hruntime

/-- The words that move the compiler inherit the property, if what they are made of has it too. -/
theorem step_of_switches (hmode : ∀ mode, K (Exec.setMode mode)) (hbegin : K Exec.beginDefinition)
    (hend : K Exec.endDefinition) {action : Action} (hswitches : action.switches = true) :
    K action.step := by
  cases action with
  | define word =>
    cases word with
    | colon => exact hbegin
    | semicolon => exact hend
    | leftBracket => exact h.bind (h.requireNesting _ fun _ _ => rfl) fun _ => hmode _
    | rightBracket => exact h.bind (h.requireNesting _ fun _ _ => rfl) fun _ => hmode _
    | _ => cases hswitches
  | _ => cases hswitches

end Ordinary

namespace Common

variable {K : {α : Type} → Exec α → Prop} (h : Common K)
include h

theorem requireThread : K Exec.requireThread := h.glance (fun _ _ _ _ => rfl) fun _ _ => rfl

theorem jump (ip : Cell) : K (Exec.jump ip) := h.moveIp (fun _ => ip) fun _ _ => rfl

theorem branch : K Exec.branch :=
  h.bind h.requireThread fun _ => h.bind (h.read _ fun _ _ => rfl) fun _ =>
    h.bind (h.fetch _) fun _ => h.jump _

theorem skipOperand : K Exec.skipOperand := h.moveIp (fun regs => regs.ip + 1) fun _ _ => rfl

theorem operand : K Exec.operand :=
  h.bind h.requireThread fun _ => h.bind (h.read _ fun _ _ => rfl) fun _ =>
    h.bind (h.fetch _) fun _ => h.bind (h.jump _) fun _ => h.pure _

theorem stepLoop (n : Cell) : K (Exec.stepLoop n) :=
  h.bind h.requireThread fun _ => h.bind (h.onReturn (.require _)) fun _ =>
    h.bind (h.onReturn (.pick _)) fun _ => h.bind (h.onReturn (.pick _)) fun _ =>
      Ordinary.ite
        (h.bind (h.onReturn .drop) fun _ => h.bind (h.onReturn .drop) fun _ => h.skipOperand)
        (h.bind (h.onReturn (.set _ _)) fun _ => h.branch)

/-- Every runtime action, but those that read `w`. -/
theorem runtime_of_readsW_eq_false {r : Runtime} (hr : r.readsW = false) : K r.perform := by
  cases r with
  | nest => cases hr
  | address => cases hr
  | constant => cases hr
  | literal => exact h.bind h.operand fun _ => h.push _
  | branch => exact h.branch
  | zeroBranch =>
    exact h.bind h.requireThread fun _ => h.bind h.pop fun _ => Ordinary.ite h.branch h.skipOperand
  | enterLoop =>
    exact h.bind h.requireThread fun _ => h.bind (h.onData (.require _)) fun _ =>
      h.bind h.pop fun _ => h.bind h.pop fun _ => h.onReturn (.pushTwo _ _)
  | stepLoop => exact h.stepLoop 1
  | stepLoopBy => exact h.bind h.requireThread fun _ => h.bind h.pop fun _ => h.stepLoop _
  | print =>
    exact h.bind h.operand fun _ => h.bind (h.read _ fun _ _ => rfl) fun _ =>
      h.bind (h.glance (fun _ _ _ _ => rfl) fun _ _ => rfl) fun _ => h.bind (h.jump _) fun _ =>
        h.write _
  | exit => exact h.bind (h.onReturn .pop) fun _ => h.jump _

/-- Every action that reads no input but names and registers no words inherits the property, unless
it moves the compiler or reads `w`. -/
theorem step_of_reads_names {action : Action} (hreads : action.reads = false)
    (hinstalls : action.installs = false) (hswitches : action.switches = false)
    (hw : action.readsW = false) : K action.step := by
  cases hruntime : action.isRuntime with
  | false => exact h.toOrdinary.step_of_reads_names hreads hinstalls hswitches hruntime
  | true =>
    cases action with
    | runtime r => exact h.runtime_of_readsW_eq_false hw
    | _ => cases hruntime

/-- Every action that is a single step inherits the property, unless it moves the compiler or reads
`w`, if reading and registering have it too. -/
theorem step (ho : Outward K) {action : Action} (hswitches : action.switches = false)
    (hw : action.readsW = false) : K action.step :=
  h.step_of_outward ho fun hreads hinstalls => h.step_of_reads_names hreads hinstalls hswitches hw

end Common

namespace Steady

variable {K : {α : Type} → Exec α → Prop} {α : Type} (h : Steady K)
include h

theorem reg (f : Registers → α) : K (Exec.reg f) :=
  h.look (f := fun m => .ok (f m.regs)) fun _ _ _ _ => rfl

theorem runtime (r : Runtime) : K r.perform := by
  cases hr : r.readsW with
  | false => exact h.runtime_of_readsW_eq_false hr
  | true =>
    cases r with
    | nest => exact h.bind (h.reg _) fun _ => h.bind (h.onReturn (.push _)) fun _ => h.setIp _
    | address => exact h.bind (h.reg _) fun _ => h.push _
    | constant => exact h.bind (h.reg _) fun _ => h.bind (h.fetch _) fun _ => h.push _
    | _ => cases hr

/-- The actions that read `w` inherit the property too. -/
theorem step_of_readsW {action : Action} (hw : action.readsW = true) : K action.step := by
  cases action with
  | runtime r => exact h.runtime r
  | _ => cases hw

/-- Every action that reads no input but names and registers no words inherits the property, unless
it moves the compiler. -/
theorem step_of_reads_names {action : Action} (hreads : action.reads = false)
    (hinstalls : action.installs = false) (hswitches : action.switches = false) :
    K action.step := by
  cases hw : action.readsW with
  | false => exact h.toCommon.step_of_reads_names hreads hinstalls hswitches hw
  | true => exact h.step_of_readsW hw

/-- Every action that is a single step inherits the property, unless it moves the compiler, if
reading and registering have it too. -/
theorem step (ho : Outward K) {action : Action} (hswitches : action.switches = false) :
    K action.step := by
  cases hw : action.readsW with
  | false => exact h.toCommon.step ho hswitches hw
  | true => exact h.step_of_readsW hw

/-! ### Finding the action of a token -/

theorem resolve (xt : Cell) : K (Exec.resolve xt) :=
  h.bind (h.look fun _ _ _ _ => rfl) fun _ =>
    Ordinary.ite
      (h.bind (h.settle _) fun _ => h.bind (h.pure _) fun _ => h.look fun _ _ _ _ => rfl)
      (h.bind (h.setW _) fun _ => h.bind (h.fetch _) fun _ => h.look fun _ _ _ _ => rfl)

end Steady

namespace Hereditary

variable {K : {α : Type} → Exec α → Prop} (h : Hereditary K)
include h

/-- So do the words that move the compiler. -/
theorem step_of_switches {action : Action} (hswitches : action.switches = true) : K action.step :=
  h.toOrdinary.step_of_switches h.setMode h.beginDefinition h.endDefinition hswitches

/-- Every action that reads no input but names and registers no words inherits the property. -/
theorem step_of_reads_names {action : Action} (hreads : action.reads = false)
    (hinstalls : action.installs = false) : K action.step := by
  cases hswitches : action.switches with
  | false => exact h.toSteady.step_of_reads_names hreads hinstalls hswitches
  | true => exact h.step_of_switches hswitches

/-- Every action that is a single step inherits the property, if reading and registering have it
too. -/
theorem step (ho : Outward K) (action : Action) : K action.step := by
  cases hswitches : action.switches with
  | false => exact h.toSteady.step ho hswitches
  | true => exact h.step_of_switches hswitches

end Hereditary

end CellForth
