import CellForth.Vocabulary
import CellForth.Proofs.Frames

/-!
# Words that refuse in place

A refusal does not roll back, so what a word has done before it is refused stays done. For a word
that moves several items, on two stacks or in the dictionary, this would leave the machine half way;
such a word has to find all its reasons to refuse before its first write. The words on the stacks,
the words that compute, and those on memory and on the radix do so: where one of them is refused,
the machine is as it was (`Builtin.refused_in_place`). A word that hands over to another, `execute`,
is not among them, and `key` is only in part, for the byte that it has read is gone.

`Exec.RefusedInPlace m op` is the statement about one operation at one machine. A word is a row of
looks, which change nothing, with one operation behind them that is refused in place; or it takes
its operands off a stack in the end, and then that cannot be refused any more, since the looks have
found them and the operation in between has left that stack alone (`Exec.Spares`). Either stack can
be the one in question, so what follows is stated for both at once, by their kind.
-/

namespace CellForth

variable {α β : Type} {m : Machine} {kind : StackKind}

/-! ### Either stack -/

/-- The other one of the two. -/
def StackKind.other : StackKind → StackKind
  | data => returns
  | returns => data

/-- The stack of a kind. -/
def Machine.stackOf (m : Machine) : StackKind → Stack
  | .data => m.dataStack
  | .returns => m.returnStack

theorem Machine.Ordered.stackOf (hm : m.Ordered) (kind : StackKind) :
    (m.stackOf kind).WithinBounds := by
  cases kind with
  | data => exact hm.dataStack
  | returns => exact hm.returnStack

namespace Exec

/-- Runs an operation of the stack of a kind. -/
def onStack : StackKind → StackM α → Exec α
  | .data, op => onData op
  | .returns, op => onReturn op

/-- An operation that the stack refuses without a change is refused by the machine without a
change. -/
theorem onStack_of_error {op : StackM α} {e : Fault}
    (hop : op (m.stackOf kind) = .error e (m.stackOf kind)) : onStack kind op m = .error e m := by
  cases kind with
  | data => exact onData_of_error hop
  | returns => exact onReturn_of_error hop

theorem onStack_of_ok {op : StackM α} {a : α} {s : Stack} (hop : op (m.stackOf kind) = .ok a s) :
    ∃ m', onStack kind op m = .ok a m' := by
  cases kind with
  | data => exact ⟨_, onData_of_ok hop⟩
  | returns => exact ⟨_, onReturn_of_ok hop⟩

/-- A look at a stack leaves the machine as it is. -/
theorem onStack_observe (g : Stack → Except Fault α) :
    onStack kind (observe g) m = observe (fun m => g (m.stackOf kind)) m := by
  cases hg : g (m.stackOf kind) with
  | error e =>
    rw [observe_of_error (f := fun m : Machine => g (m.stackOf kind)) hg]
    exact onStack_of_error (observe_of_error hg)
  | ok a =>
    rw [observe_of_ok (f := fun m : Machine => g (m.stackOf kind)) hg]
    cases kind with
    | data => exact onData_of_ok (observe_of_ok hg)
    | returns => exact onReturn_of_ok (observe_of_ok hg)

/-! ### Operations that are refused in place -/

/-- Where the operation is refused at `m`, the machine is as it was. -/
def RefusedInPlace (m : Machine) (op : Exec α) : Prop :=
  Ends (· = m) (fun _ _ => True) (op m)

namespace RefusedInPlace

theorem of_error {op : Exec α} {e : Fault} (h : op m = .error e m) : RefusedInPlace m op := by
  unfold RefusedInPlace
  rw [h]
  rfl

theorem of_ok {op : Exec α} {a : α} {m' : Machine} (h : op m = .ok a m') : RefusedInPlace m op := by
  unfold RefusedInPlace
  rw [h]
  trivial

/-- A look may come first, and what it has seen may be used. -/
theorem look_bind {g : Machine → Except Fault α} {f : α → Exec β}
    (hf : ∀ a, g m = .ok a → RefusedInPlace m (f a)) : RefusedInPlace m (observe g >>= f) :=
  Ends.bind (Q := fun a t => t = m ∧ g m = .ok a) (.observe rfl fun _ ha => ⟨rfl, ha⟩)
    fun a t ht => by
    obtain ⟨rfl, ha⟩ := ht
    exact hf a ha

/-- An operation of a stack that replaces items at the top. -/
theorem onStack (kind : StackKind) {op : StackM α} (hop : Stack.Replaces op) (hm : m.Ordered) :
    RefusedInPlace m (onStack kind op) := by
  obtain ⟨e, he⟩ | ⟨a, n, vs, -, hok⟩ := hop (m.stackOf kind) (hm.stackOf kind)
  · exact of_error (onStack_of_error he)
  · obtain ⟨m', hm'⟩ := onStack_of_ok hok
    exact of_ok hm'

theorem push (hm : m.Ordered) (c : Cell) : RefusedInPlace m (push c) :=
  onStack .data (Stack.replaces_push c) hm

/-- A look at a stack may come first. -/
theorem lookStack_bind (kind : StackKind) {g : Stack → Except Fault α} {f : α → Exec β}
    (hf : ∀ a, g (m.stackOf kind) = .ok a → RefusedInPlace m (f a)) :
    RefusedInPlace m (Exec.onStack kind (observe g) >>= f) := by
  have hbind : RefusedInPlace m (observe (fun m => g (m.stackOf kind)) >>= f) := look_bind hf
  unfold RefusedInPlace at hbind ⊢
  rwa [bind_congr_at (onStack_observe g)]

/-- Behind a look at the item at some depth, there are more items than that. -/
theorem pick_bind (kind : StackKind) {n : Nat} {f : Cell → Exec β}
    (hf : ∀ c, n < (m.stackOf kind).size → RefusedInPlace m (f c)) :
    RefusedInPlace m (Exec.onStack kind (Stack.pick n) >>= f) := by
  refine lookStack_bind kind fun c hc => hf c ?_
  by_contra hn
  rw [Stack.peekAt, if_neg hn] at hc
  cases hc

end RefusedInPlace

/-! ### Operands that are taken off in the end -/

/-- The operation is refused in place at `m`, or it leaves a stack of that kind with as many
items. -/
def Spares (m : Machine) (kind : StackKind) (op : Exec α) : Prop :=
  Ends (· = m)
    (fun _ m' => (m'.stackOf kind).WithinBounds ∧
      (m'.stackOf kind).size = (m.stackOf kind).size) (op m)

namespace Spares

/-- Operands that have been there all the time can be taken off. -/
theorem discard {op : Exec α} {n : Nat} {take : StackM Unit} (h : Spares m kind op)
    (hn : n ≤ (m.stackOf kind).size)
    (htake : ∀ s : Stack, s.WithinBounds → take s = Stack.exchange n [] s) :
    RefusedInPlace m (do let _ ← op; onStack kind take) := by
  refine Ends.bind h fun _ m' hm' => ?_
  obtain ⟨hbounds, hsize⟩ := hm'
  have hfits : (m'.stackOf kind).Fits n [] := ⟨by rwa [hsize], Nat.zero_le _⟩
  obtain ⟨m'', hm''⟩ := onStack_of_ok ((htake _ hbounds).trans (hbounds.exchange_of_fits hfits))
  rw [hm'']
  trivial

theorem drop {op : Exec α} (h : Spares m kind op) (hn : 1 ≤ (m.stackOf kind).size) :
    RefusedInPlace m (do let _ ← op; onStack kind Stack.drop) :=
  h.discard hn fun _ hs => hs.drop_eq

theorem dropTwo {op : Exec α} (h : Spares m kind op) (hn : 2 ≤ (m.stackOf kind).size) :
    RefusedInPlace m (do let _ ← op; onStack kind Stack.dropTwo) :=
  h.discard hn fun _ hs => hs.dropTwo_eq

/-- Pushing to the other stack. -/
theorem pushOther (hm : m.Ordered) (kind : StackKind) (c : Cell) :
    Spares m kind (onStack kind.other (Stack.push c)) := by
  have hpush := (hm.stackOf kind.other).push_eq c
  unfold Spares
  split at hpush
  · rename_i hroom
    have hfits : (m.stackOf kind.other).Fits 0 [c] :=
      ⟨Nat.zero_le _, by rw [List.length_singleton]; omega⟩
    cases kind with
    | data =>
      have hok : onStack StackKind.data.other (Stack.push c) m = _ := onReturn_of_ok hpush
      rw [hok]
      exact ⟨(hm.replaceReturn hfits).dataStack, rfl⟩
    | returns =>
      have hok : onStack StackKind.returns.other (Stack.push c) m = _ := onData_of_ok hpush
      rw [hok]
      exact ⟨(hm.replaceData hfits).returnStack, rfl⟩
  · rw [onStack_of_error hpush]
    rfl

/-- Adding a cell to the dictionary. -/
theorem compileCell (hm : m.Ordered) (c : Cell) : Spares m .data (compileCell c) := by
  unfold Spares
  rw [compileCell_eq hm]
  split
  · rename_i hroom
    have hfits : [c].length ≤ m.unused := hroom
    exact ⟨(hm.append hfits).dataStack, rfl⟩
  · rfl

/-- Moving the end of the dictionary. -/
theorem allot (hm : m.Ordered) (n : Int) : Spares m .data (allot n) := by
  unfold Spares
  rw [allot_eq]
  split
  · split
    · exact ⟨{ hm.dataStack with }, rfl⟩
    · rfl
  · rfl

/-- Storing a cell, even one of the stack itself. -/
theorem put (hm : m.Ordered) (pos : Nat) (c : Cell) :
    Spares m .data (onMemory (Memory.put pos c)) := by
  unfold Spares
  rcases Nat.lt_or_ge pos m.memory.size with hlt | hge
  · have hsize : (m.memory.overlay pos [c]).size = m.memory.size := Memory.size_overlay ..
    rw [put_of_lt c hlt]
    exact ⟨{ hm.dataStack with limit_le := hsize ▸ hm.dataStack.limit_le }, rfl⟩
  · rw [onMemory_eq, Memory.put_of_le c hge]
    rfl

/-- Setting the radix. -/
theorem setBase (hm : m.Ordered) (base : Cell) :
    Spares m .data (setRegs fun regs => { regs with base := base }) :=
  ⟨{ hm.dataStack with }, rfl⟩

end Spares

end Exec

/-! ### The words -/

open Exec

section Words

variable (hm : m.Ordered)
include hm

theorem ReturnWord.refusedInPlace (word : ReturnWord) : RefusedInPlace m word.perform := by
  cases word with
  | toReturn => exact .pick_bind .data fun c hc => (Spares.pushOther hm .data c).drop hc
  | fromReturn => exact .pick_bind .returns fun c hc => (Spares.pushOther hm .returns c).drop hc
  | fetchReturn => exact .pick_bind .returns fun c _ => .push hm c
  | outerIndex => exact .pick_bind .returns fun c _ => .push hm c
  | unloop => exact .onStack .returns Stack.drops_dropTwo.replaces hm

theorem StorageWord.refusedInPlace (word : StorageWord) : RefusedInPlace m word.perform := by
  cases word with
  | fetch =>
    exact .pick_bind .data fun _ _ => .look_bind fun x _ =>
      .onStack .data (Stack.replaces_set_zero x) hm
  | store =>
    exact .lookStack_bind .data fun _ _ => .pick_bind .data fun address _ =>
      .pick_bind .data fun x hx => (Spares.put hm address.toNat x).dropTwo hx
  | addStore =>
    exact .lookStack_bind .data fun _ _ => .pick_bind .data fun address _ =>
      .pick_bind .data fun n hn => .look_bind fun x _ =>
        (Spares.put hm address.toNat (x + n)).dropTwo hn
  | comma => exact .pick_bind .data fun x hx => (Spares.compileCell hm x).drop hx
  | here => exact RefusedInPlace.push hm m.regs.here
  | allot => exact .pick_bind .data fun n hn => (Spares.allot hm (Cell.signed n)).drop hn

theorem RadixWord.refusedInPlace (word : RadixWord) : RefusedInPlace m word.perform := by
  cases word with
  | decimal => exact .of_ok rfl
  | hex => exact .of_ok rfl
  | setBase =>
    exact .pick_bind .data fun base hbase => .look_bind fun _ _ =>
      (Spares.setBase hm base).drop hbase
  | getBase => exact RefusedInPlace.push hm m.regs.base

/-- A byte that has been read is gone, but registers and memory are as they were. -/
theorem Exec.key_refused :
    Ends (fun m' => m'.regs = m.regs ∧ m'.memory = m.memory) (fun _ _ => True) (Exec.key m) := by
  refine Ends.bind (Q := fun _ m' => ∃ input, m' = { m with input := input }) ?_ ?_
  · unfold onInput
    cases Source.read m.input with
    | ok b input => exact ⟨input, rfl⟩
    | error e input => exact ⟨rfl, rfl⟩
  · rintro b m' ⟨input, rfl⟩
    have hm' : ({ m with input := input } : Machine).Ordered := { hm with }
    refine (RefusedInPlace.push hm' _).mono ?_ fun _ _ h => h
    rintro m'' rfl
    exact ⟨rfl, rfl⟩

end Words

/-- Does the action do all its checks before its first write? -/
def Action.checksFirst : Action → Bool
  | stack _ | returns _ | unary _ | binary _ | divMod | storage _ | radix _ | noop => true
  | _ => false

theorem Action.refusedInPlace (hm : m.Ordered) {action : Action} (h : action.checksFirst = true) :
    RefusedInPlace m action.step := by
  cases action with
  | stack word => exact .onStack .data (Stack.replaces_effect word) hm
  | returns word => exact word.refusedInPlace hm
  | unary word => exact .onStack .data (Stack.replaces_unary _) hm
  | binary word => exact .onStack .data (Stack.replaces_binary _) hm
  | divMod => exact .onStack .data Stack.replaces_divMod hm
  | storage word => exact word.refusedInPlace hm
  | radix word => exact word.refusedInPlace hm
  | noop => exact .of_ok rfl
  | _ => cases h

/-- The step of an action is all there is to be refused. -/
theorem Action.refused_of_step {action : Action} (hexecute : action ≠ .execute)
    (hresume : action ≠ .resume) {e : Fault} {m' : Machine} (h : Exec.act action m = .error e m')
    {P : Machine → Prop} (hstep : Ends P (fun _ _ => True) (action.step m)) : P m' := by
  rw [Exec.act_of_step hexecute hresume] at h
  cases hrun : action.step m with
  | ok a m₁ =>
    rw [bind_of_ok hrun] at h
    cases h
  | error e₁ m₁ =>
    rw [bind_of_error hrun] at h
    cases h
    rwa [hrun] at hstep

/-- **A refused word leaves the machine as it was.** This is so for all built-in words on the
stacks, on memory and on the radix and for all that compute, but for `execute`, which hands over to
another word. The word `key` may have used up input, and registers and memory are as they were then
too. -/
theorem Builtin.refused_in_place {word : Builtin}
    (hword : word ∈ Vocabulary.stackWords ++ Vocabulary.arithmeticWords ++ Vocabulary.storageWords)
    (hexecute : word.action ≠ .execute) (hm : m.Ordered) {e : Fault} {m' : Machine}
    (h : Exec.act word.action m = .error e m') :
    m'.regs = m.regs ∧ m'.memory = m.memory ∧ (word.action ≠ .key → m' = m) := by
  have hclass :
      ∀ word ∈ Vocabulary.stackWords ++ Vocabulary.arithmeticWords ++ Vocabulary.storageWords,
      word.action ≠ .resume ∧
        (word.action = .execute ∨ word.action = .key ∨ word.action.checksFirst = true) := by
    decide
  obtain ⟨hresume, hcases⟩ := hclass word hword
  obtain hkey | hchecks := hcases.resolve_left hexecute
  · have hends : Ends (fun m' => m'.regs = m.regs ∧ m'.memory = m.memory) (fun _ _ => True)
        (word.action.step m) := by
      rw [hkey]
      exact Exec.key_refused hm
    obtain ⟨hregs, hmemory⟩ := Action.refused_of_step hexecute hresume h hends
    exact ⟨hregs, hmemory, fun hne => absurd hkey hne⟩
  · obtain rfl := Action.refused_of_step hexecute hresume h (Action.refusedInPlace hm hchecks)
    exact ⟨rfl, rfl, fun _ => rfl⟩

/-- The word `>r` moves an item from one stack to the other. Where the other is full, the item has
not been taken off. -/
theorem Builtin.toReturn_refused_in_place :
    ∃ (m m' : Machine) (e : Fault), m.Ordered ∧ m.dataStack.items = [6, 5] ∧
      Exec.act (.returns .toReturn) m = .error e m' ∧ m' = m := by
  let m₀ := Machine.bare 400 ⟨320, 340, 400⟩ Source.empty {} .off
  let m : Machine :=
    { m₀ with
      memory := m₀.memory.overlay 320 [5, 6]
      regs := { m₀.regs with here := 310, sp := 322, rp := 400 } }
  have hm : m.Ordered := by constructor <;> decide +kernel
  have hword : (⟨">r", .returns .toReturn, false⟩ : Builtin) ∈
      Vocabulary.stackWords ++ Vocabulary.arithmeticWords ++ Vocabulary.storageWords :=
    List.mem_append_left _ (List.mem_append_left _ (by simp [Vocabulary.stackWords]))
  have hfails : succeeded (Exec.act (.returns .toReturn) m) = false := by decide +kernel
  cases h : Exec.act (.returns .toReturn) m with
  | ok a m' =>
    rw [h] at hfails
    cases hfails
  | error e m' =>
    obtain ⟨-, -, hsame⟩ := Builtin.refused_in_place hword (by decide) hm h
    exact ⟨m, m', e, hm, by decide +kernel, h, hsame (by decide)⟩

end CellForth
