import CellForth.Threaded.Dispatch
import CellForth.Proofs.Exchange
import CellForth.Proofs.Machine

/-!
# Stores

Most words know nothing of memory, of the dictionary or of threaded code. They take items off the
data stack, put others on it, and write output. A `Store` is what such a word works on: the items
as a list, the room there is for them, the radix, and the sink. On a store these words are functions
that a stack comment can state, and that is how `StackWord.rewrite` states them: the item on top is
the head of the list.

`Primitive` collects the words in question, for stack, arithmetic, logic, comparison and output.
Words that move items between the stacks are not among them, because a return stack holds what the
code around a word has left there, nor are words that read input or memory.

`Machine.Running` says that a machine carries a store while it runs threaded code. The main result
is that every primitive does to the machine what its effect does to the store it carries, faults
included (`Machine.refines_primitive`).
-/

namespace CellForth

/-- What words without a use for memory work on. -/
structure Store where
  /-- The items on the data stack, top first. -/
  data : List Cell
  /-- The number of items that the data stack can hold. -/
  capacity : Nat
  /-- The radix. -/
  base : Cell
  /-- Where output goes. -/
  sink : Sink

/-- Operations on a store. -/
abbrev StoreM := EStateM Fault Store

namespace Store

/-- Puts other items in place of all those on the data stack, if there is room for them. -/
def setData (data : List Cell) : StoreM Unit := fun s =>
  if data.length ≤ s.capacity then .ok () { s with data := data } else .error .stackOverflow s

/-- Puts what `f` makes of the items in their place. -/
def rewrite (f : List Cell → Except Fault (List Cell)) : StoreM Unit := do
  let data ← observe fun s => f s.data
  setData data

/-- Puts an item on top. -/
def push (c : Cell) : StoreM Unit :=
  rewrite fun data => .ok (c :: data)

/-- Takes the top item off. -/
def pop : StoreM Cell := fun s =>
  match s.data with
  | [] => .error .stackUnderflow s
  | c :: data => .ok c { s with data := data }

/-- Writes bytes to the sink. -/
def write (bs : List UInt8) : StoreM Unit := fun s =>
  match Sink.write bs s.sink with
  | .ok _ sink => .ok () { s with sink := sink }
  | .error _ sink => .error .outputFailure { s with sink := sink }

end Store

/-! ### What words do to a store -/

/-- What a stack word makes of the items, top first. -/
def StackWord.rewrite : StackWord → List Cell → Except Fault (List Cell)
  | dup, x :: s => .ok (x :: x :: s)
  | drop, _ :: s => .ok s
  | swap, x₂ :: x₁ :: s => .ok (x₁ :: x₂ :: s)
  | copySecond, x₂ :: x₁ :: s => .ok (x₁ :: x₂ :: x₁ :: s)
  | rot, x₃ :: x₂ :: x₁ :: s => .ok (x₁ :: x₃ :: x₂ :: s)
  | minusRot, x₃ :: x₂ :: x₁ :: s => .ok (x₂ :: x₁ :: x₃ :: s)
  | nip, x₂ :: _ :: s => .ok (x₂ :: s)
  | tuck, x₂ :: x₁ :: s => .ok (x₂ :: x₁ :: x₂ :: s)
  | twoDup, x₂ :: x₁ :: s => .ok (x₂ :: x₁ :: x₂ :: x₁ :: s)
  | twoDrop, _ :: _ :: s => .ok s
  | twoSwap, x₄ :: x₃ :: x₂ :: x₁ :: s => .ok (x₂ :: x₁ :: x₄ :: x₃ :: s)
  | twoOver, x₄ :: x₃ :: x₂ :: x₁ :: s => .ok (x₂ :: x₁ :: x₄ :: x₃ :: x₂ :: x₁ :: s)
  | pick, u :: s =>
    match s[u.toNat]? with
    | some x => .ok (x :: s)
    | none => .error .stackUnderflow
  | questionDup, x :: s => .ok (if x = 0 then x :: s else x :: x :: s)
  | depth, s => .ok (UInt16.ofNat s.length :: s)
  | _, _ => .error .stackUnderflow

/-- Computes from the top item. -/
def Store.unary (f : Cell → Cell) : List Cell → Except Fault (List Cell)
  | x :: s => .ok (f x :: s)
  | [] => .error .stackUnderflow

/-- Computes from the top two items, of which the top is the second operand. The results are put on
the stack in their order. -/
def Store.binary (f : Cell → Cell → Except Fault (List Cell)) : List Cell → Except Fault (List Cell)
  | y :: x :: s => (f x y).map fun vs => vs.reverse ++ s
  | _ => .error .stackUnderflow

/-- A native word that works on a store alone. -/
inductive Primitive where
  /-- Rearranges the items. -/
  | stack (word : StackWord)
  /-- Computes one item from one. -/
  | unary (word : UnaryWord)
  /-- Computes one item from two. -/
  | binary (word : BinaryWord)
  /-- Computes remainder and quotient. -/
  | divMod
  /-- Writes a byte. -/
  | emit
  /-- Writes a signed number and a space. -/
  | dot
  /-- Writes an unsigned number and a space. -/
  | unsignedDot
  /-- Writes a line feed. -/
  | newline
  /-- Writes a space. -/
  | space
  /-- Writes as many spaces as the top item says. -/
  | spaces
  deriving DecidableEq

namespace Primitive

/-- The action of a primitive. -/
def action : Primitive → Action
  | stack word => .stack word
  | unary word => .unary word
  | binary word => .binary word
  | divMod => .divMod
  | emit => .output .emit
  | dot => .output .dot
  | unsignedDot => .output .unsignedDot
  | newline => .output .newline
  | space => .output .space
  | spaces => .output .spaces

open Store in
/-- What a primitive does to a store. -/
def effect : Primitive → StoreM Unit
  | stack word => rewrite word.rewrite
  | unary word => rewrite (Store.unary word.apply)
  | binary word => rewrite (Store.binary fun x y => (word.apply x y).map fun v => [v])
  | divMod => rewrite (Store.binary fun x y =>
      (Cell.checkDivision x y).map fun _ => [Cell.remainder x y, Cell.quotient x y])
  | emit => do
    let c ← pop
    write [Cell.lowByte c]
  | dot => do
    let n ← pop
    let base ← observe fun s => .ok s.base
    write (Numeral.formatSigned n base.toNat)
    write [Ascii.space]
  | unsignedDot => do
    let n ← pop
    let base ← observe fun s => .ok s.base
    write (Numeral.formatUnsigned n base.toNat)
    write [Ascii.space]
  | newline => write [Ascii.lineFeed]
  | space => write [Ascii.space]
  | spaces => do
    let n ← pop
    if 0 < Cell.signed n then write (List.replicate (Cell.signed n).toNat Ascii.space)

end Primitive

/-! ### Machines that carry a store -/

namespace Machine

/-- The store that a machine carries. -/
def store (m : Machine) : Store where
  data := m.dataStack.items
  capacity := m.dataStack.capacity
  base := m.regs.base
  sink := m.output

/-- The machine `m` is what becomes of `m₀` while it runs threaded code that works on a store: it
carries the given store, has the given items on its return stack, top first, and is about to go on
at the given address. Below the stacks its memory is that of `m₀`, and apart from the registers that
threaded code uses, so is everything else. -/
structure Running (m₀ : Machine) (store : Store) (returns : List Cell) (ip : Nat) (m : Machine) :
    Prop where
  /-- It is within its regions. -/
  within : m.WithinRegions
  /-- It carries the store. -/
  store_eq : m.store = store
  /-- The items on its return stack. -/
  returns_eq : m.returnStack.items = returns
  /-- Where it goes on. -/
  ip_eq : m.regs.ip = UInt16.ofNat ip
  /-- Nothing below the stacks has changed. -/
  agree : Memory.AgreeBelow m₀.regs.dataBase.toNat m.memory m₀.memory
  /-- The rest of the machine. -/
  rest : m =
    { m₀ with
      memory := m.memory
      output := m.output
      regs :=
        { m₀.regs with
          ip := m.regs.ip
          w := m.regs.w
          sp := m.regs.sp
          rp := m.regs.rp } }

namespace Running

variable {m₀ m : Machine} {s : Store} {returns : List Cell} {ip : Nat}

/-- Every machine within its regions is about to run from where its instruction pointer is. -/
theorem refl (h : m.WithinRegions) :
    m.Running m.store m.returnStack.items m.regs.ip.toNat m where
  within := h
  store_eq := rfl
  returns_eq := rfl
  ip_eq := UInt16.ofNat_toNat.symm
  agree := .refl _ _
  rest := rfl

section

variable (h : m₀.Running s returns ip m)
include h

theorem data_eq : m.dataStack.items = s.data := congrArg Store.data h.store_eq

theorem capacity_eq : m.dataStack.capacity = s.capacity := congrArg Store.capacity h.store_eq

theorem base_eq : m.regs.base = s.base := congrArg Store.base h.store_eq

theorem sink_eq : m.output = s.sink := congrArg Store.sink h.store_eq

theorem dataBase_eq : m.regs.dataBase = m₀.regs.dataBase := congrArg (·.regs.dataBase) h.rest

theorem table_eq : m.table = m₀.table := congrArg (·.table) h.rest

/-- Replacing items on the data stack changes the store. -/
theorem replaceData {n : Nat} {vs : List Cell} (hfits : m.dataStack.Fits n vs) :
    m₀.Running { s with data := vs.reverse ++ s.data.drop n } returns ip (m.replaceData n vs) where
  within := h.within.replaceData hfits
  store_eq := by
    rw [← h.data_eq, ← h.within.dataStack.items_replaced hfits, ← h.store_eq]
    rfl
  returns_eq := by
    have hitems : (m.replaceData n vs).returnStack.items = m.returnStack.items :=
      Stack.items_congr rfl rfl fun i hi _ => h.within.cells_replaceData hfits (.inr (by
        rw [h.within.dataLimit_eq]
        exact hi))
    exact hitems.trans h.returns_eq
  ip_eq := h.ip_eq
  agree := fun i hi =>
    (h.within.cells_replaceData hfits (.inl (by rwa [h.dataBase_eq]))).trans (h.agree i hi)
  rest := congrArg (Machine.replaceData n vs) h.rest

/-- Replacing items on the return stack leaves the store alone. -/
theorem replaceReturn {n : Nat} {vs : List Cell} (hfits : m.returnStack.Fits n vs) :
    m₀.Running s (vs.reverse ++ returns.drop n) ip (m.replaceReturn n vs) where
  within := h.within.replaceReturn hfits
  store_eq := by
    have hbelow : ∀ i < m.regs.sp.toNat,
        (m.replaceReturn n vs).memory.cells[i]? = m.memory.cells[i]? := fun i hi => by
      refine h.within.cells_replaceReturn hfits ?_
      have hsp := h.within.sp_le_dataLimit
      rw [h.within.dataLimit_eq] at hsp
      omega
    have hitems : (m.replaceReturn n vs).dataStack.items = m.dataStack.items :=
      Stack.items_congr rfl rfl fun i _ hi => hbelow i hi
    rw [← h.store_eq]
    simp only [store, hitems]
    rfl
  returns_eq := by
    rw [← h.returns_eq, ← h.within.returnStack.items_replaced hfits]
    rfl
  ip_eq := h.ip_eq
  agree := fun i hi => by
    refine (h.within.cells_replaceReturn hfits ?_).trans (h.agree i hi)
    have hbase := h.within.dataBase_le_sp
    have hsp := h.within.sp_le_dataLimit
    rw [h.within.dataLimit_eq] at hsp
    rw [← h.dataBase_eq] at hi
    omega
  rest := congrArg (Machine.replaceReturn n vs) h.rest

theorem setOutput (sink : Sink) :
    m₀.Running { s with sink := sink } returns ip { m with output := sink } where
  within := { h.within with }
  store_eq := congrArg (fun s : Store => { s with sink := sink }) h.store_eq
  returns_eq := h.returns_eq
  ip_eq := h.ip_eq
  agree := h.agree
  rest := congrArg (fun m : Machine => { m with output := sink }) h.rest

theorem at_eq {ip' : Nat} (hip : ip = ip') : m₀.Running s returns ip' m :=
  hip ▸ h

theorem setW (xt : Cell) : m₀.Running s returns ip { m with regs := { m.regs with w := xt } } where
  within := { h.within with }
  store_eq := h.store_eq
  returns_eq := h.returns_eq
  ip_eq := h.ip_eq
  agree := h.agree
  rest := congrArg (fun m : Machine => { m with regs := { m.regs with w := xt } }) h.rest

theorem jump {c : Cell} {ip' : Nat} (hc : c = UInt16.ofNat ip') :
    m₀.Running s returns ip' { m with regs := { m.regs with ip := c } } where
  within := { h.within with }
  store_eq := h.store_eq
  returns_eq := h.returns_eq
  ip_eq := hc
  agree := h.agree
  rest := congrArg (fun m : Machine => { m with regs := { m.regs with ip := c } }) h.rest

end

end Running

end Machine

/-! ### Words of the data stack on lists -/

namespace Stack

/-- On the data stack, the operation puts what `f` makes of the items in their place. -/
def Rewrites (op : StackM Unit) (f : List Cell → Except Fault (List Cell)) : Prop :=
  ∀ s : Stack, s.WithinBounds → s.kind = .data →
    match f s.items with
    | .error e => op s = .error e s
    | .ok items => ∃ n vs, n ≤ s.items.length ∧ items = vs.reverse ++ s.items.drop n ∧
        op s = exchange n vs s

section Words

variable {s : Stack}

/-- It does not matter by which steps the stack comes to its end. -/
theorem Rewrites.congr {op op' : StackM Unit} {f : List Cell → Except Fault (List Cell)}
    (h : Rewrites op' f) (heq : ∀ s : Stack, s.WithinBounds → op s = op' s) : Rewrites op f := by
  intro s hs hkind
  rw [heq s hs]
  exact h s hs hkind

theorem rewrites_unary (f : Cell → Cell) : Rewrites (unary f) (Store.unary f) := by
  refine Rewrites.congr (fun s h hkind => ?_) fun s h => h.unary_eq f
  cases hitems : s.items with
  | nil =>
    have hpeek := h.peek_of_nil hitems
    rw [hkind] at hpeek
    exact bind_of_error hpeek
  | cons x rest => exact ⟨1, [f x], by simp, rfl, bind_of_ok (h.peek_of_cons hitems)⟩

theorem rewrites_combine (f : Cell → Cell → Except Fault (List Cell)) :
    Rewrites (combine f) (Store.binary f) := by
  intro s h hkind
  match hitems : s.items with
  | [] | [_] =>
    have hrequire := h.require_of_lt (n := 2) (by simp [hitems])
    rw [hkind] at hrequire
    exact bind_of_error hrequire
  | y :: x :: rest =>
    have hrun : combine f s = (settle (f x y) >>= fun vs => exchange 2 vs) s := by
      unfold combine
      rw [bind_of_ok (h.require_of_le (by simp [hitems])),
        bind_of_ok (h.pick_of_some (n := 0) (c := y) (by simp [hitems])),
        bind_of_ok (h.pick_of_some (n := 1) (c := x) (by simp [hitems]))]
    cases hf : f x y with
    | error e =>
      simp only [Store.binary, hf, Except.map]
      rw [hrun, hf, bind_of_error (settle_error s)]
    | ok vs =>
      simp only [Store.binary, hf, Except.map]
      exact ⟨2, vs, by simp, rfl, by rw [hrun, hf, bind_of_ok (settle_ok s)]⟩

theorem rewrites_binary (f : Cell → Cell → Except Fault Cell) :
    Rewrites (binary f) (Store.binary fun x y => (f x y).map fun v => [v]) :=
  (rewrites_combine _).congr fun _ h => h.binary_eq f

theorem rewrites_divMod : Rewrites divMod (Store.binary fun x y =>
    (Cell.checkDivision x y).map fun _ => [Cell.remainder x y, Cell.quotient x y]) :=
  (rewrites_combine _).congr fun _ h => h.divMod_eq

theorem rewrites_pickByDepth : Rewrites pickByDepth (StackWord.rewrite .pick) := by
  intro s h hkind
  cases hitems : s.items with
  | nil =>
    have hpeek := h.peek_of_nil hitems
    rw [hkind] at hpeek
    exact bind_of_error hpeek
  | cons u rest =>
    have hrun : pickByDepth s = (pick (u.toNat + 1) >>= fun x => exchange 1 [x]) s :=
      bind_of_ok (h.peek_of_cons hitems)
    cases hx : rest[u.toNat]? with
    | none =>
      have hpick := h.pick_of_none (n := u.toNat + 1) (by simpa [hitems] using hx)
      rw [hkind] at hpick
      simp only [StackWord.rewrite, hx]
      rw [hrun]
      exact bind_of_error hpick
    | some x =>
      have hpick := h.pick_of_some (n := u.toNat + 1) (c := x) (by simpa [hitems] using hx)
      simp only [StackWord.rewrite, hx]
      exact ⟨1, [x], by simp, rfl, by rw [hrun, bind_of_ok hpick]⟩

theorem rewrites_doubleNonzero : Rewrites doubleNonzero (StackWord.rewrite .questionDup) := by
  intro s h hkind
  cases hitems : s.items with
  | nil =>
    have hpeek := h.peek_of_nil hitems
    rw [hkind] at hpeek
    exact bind_of_error hpeek
  | cons x rest =>
    refine ⟨1, if x = 0 then [x] else [x, x], by simp, ?_, bind_of_ok (h.peek_of_cons hitems)⟩
    split <;> rfl

theorem rewrites_pushDepth : Rewrites pushDepth (StackWord.rewrite .depth) := by
  intro s h _
  refine ⟨0, [UInt16.ofNat s.items.length], Nat.zero_le _, rfl, ?_⟩
  rw [h.length_items]
  exact bind_of_ok (observe_of_ok rfl)

end Words

end Stack

/-- As a function of the items, a shuffle leaves those that it names. -/
theorem StackWord.rewrite_of_shuffle {word : StackWord} {shuffle : Shuffle}
    (h : word.shuffle? = some shuffle) (items : List Cell) :
    word.rewrite items =
      if shuffle.needs ≤ items.length then
        .ok ((shuffle.leaves.map fun i => items.getD i 0).reverse ++ items.drop shuffle.needs)
      else .error .stackUnderflow := by
  -- No shuffle needs more than four items, so five shapes of the list tell all cases apart.
  cases word <;> cases h <;>
    rcases items with _ | ⟨a, _ | ⟨b, _ | ⟨c, _ | ⟨d, s⟩⟩⟩⟩ <;> simp [rewrite]

/-- Every stack word does to the items what its stack comment says. -/
theorem Stack.rewrites_effect (word : StackWord) : Rewrites word.effect word.rewrite := by
  refine Rewrites.congr ?_ fun s h => StackWord.effect_eq h word
  cases hshuffle : word.shuffle? with
  | some shuffle =>
    intro s h hkind
    have hexchanged : word.exchanged = Stack.shuffle shuffle := by
      unfold StackWord.exchanged
      rw [hshuffle]
    rw [StackWord.rewrite_of_shuffle hshuffle, hexchanged, StackWord.shuffle_eq h hshuffle]
    by_cases hneeds : shuffle.needs ≤ s.items.length
    · rw [if_pos hneeds]
      exact ⟨_, _, hneeds, rfl, if_pos hneeds⟩
    · rw [if_neg hneeds, hkind]
      exact if_neg hneeds
  | none =>
    cases word with
    | pick => exact rewrites_pickByDepth
    | questionDup => exact rewrites_doubleNonzero
    | depth => exact rewrites_pushDepth
    | _ => cases hshuffle

/-! ### Primitives on a machine that carries a store -/

namespace Machine

variable {α α' : Type} (m₀ : Machine) (returns : List Cell) (ip : Nat)

/-- As long as it runs from the same place, an operation of the machine is an operation of the store
that it carries. -/
abbrev Mirrors (V : α → α' → Prop) (x : Exec α) (y : StoreM α') : Prop :=
  Refines (fun m s => m₀.Running s returns ip m) V x y

variable {m₀ returns ip}

theorem mirrors_rewrite {op : StackM Unit} {f : List Cell → Except Fault (List Cell)}
    (hop : Stack.Rewrites op f) :
    m₀.Mirrors returns ip (fun _ _ => True) (Exec.onData op) (Store.rewrite f) := by
  intro m s h
  have hrewrites := hop m.dataStack h.within.dataStack rfl
  rw [h.data_eq] at hrewrites
  cases hf : f s.data with
  | error e =>
    rw [hf] at hrewrites
    have hstore : Store.rewrite f s = .error e s := bind_of_error (observe_of_error hf)
    rw [Exec.onData_of_error hrewrites, hstore]
    exact .error h
  | ok data =>
    rw [hf] at hrewrites
    obtain ⟨n, vs, hn, rfl, hexchange⟩ := hrewrites
    have hstore : Store.rewrite f s = Store.setData (vs.reverse ++ s.data.drop n) s :=
      bind_of_ok (observe_of_ok hf)
    have hlength : (vs.reverse ++ s.data.drop n).length = vs.length + (s.data.length - n) := by simp
    have hfits : m.dataStack.Fits n vs ↔ _ := h.within.dataStack.fits_iff
    rw [h.data_eq, h.capacity_eq] at hfits
    rw [hstore, Store.setData, hlength]
    split
    · rename_i hroom
      have hfits := hfits.mpr ⟨hn, by omega⟩
      rw [h.within.dataStack.exchange_of_fits hfits] at hexchange
      rw [Exec.onData_of_ok hexchange]
      exact .ok trivial (h.replaceData hfits)
    · rename_i hroom
      rw [Stack.exchange, h.data_eq, h.capacity_eq, if_neg (by omega),
        if_pos (by omega)] at hexchange
      rw [Exec.onData_of_error hexchange]
      exact .error h

theorem mirrors_push (c : Cell) :
    m₀.Mirrors returns ip (fun _ _ => True) (Exec.push c) (Store.push c) :=
  mirrors_rewrite fun _ h _ => ⟨0, [c], Nat.zero_le _, rfl, h.push_eq_exchange c⟩

theorem mirrors_pop : m₀.Mirrors returns ip Eq Exec.pop Store.pop := by
  intro m s h
  unfold Store.pop
  cases hdata : s.data with
  | nil =>
    have hitems : m.dataStack.items = [] := h.data_eq.trans hdata
    have hpop : Exec.pop m = .error .stackUnderflow m :=
      Exec.onData_of_error (h.within.dataStack.pop_of_nil hitems)
    rw [hpop]
    exact .error h
  | cons c data =>
    have hitems : m.dataStack.items = c :: data := h.data_eq.trans hdata
    have hfits : m.dataStack.Fits 1 [] :=
      ⟨by rw [← h.within.dataStack.length_items, hitems]; simp, Nat.zero_le _⟩
    have hpop : Exec.pop m = .ok c (m.replaceData 1 []) :=
      Exec.onData_of_ok (h.within.dataStack.pop_of_cons hitems)
    have hnew := h.replaceData hfits
    rw [hdata] at hnew
    rw [hpop]
    exact .ok rfl hnew

theorem mirrors_write (bs : List UInt8) :
    m₀.Mirrors returns ip (fun _ _ => True) (Exec.write bs) (Store.write bs) := by
  intro m s h
  unfold Exec.write Store.write
  rw [h.sink_eq]
  cases Sink.write bs s.sink with
  | ok _ sink => exact .ok trivial (h.setOutput sink)
  | error _ sink => exact .error (h.setOutput sink)

theorem mirrors_base :
    m₀.Mirrors returns ip Eq (Exec.reg (·.base)) (observe fun s => .ok s.base) :=
  fun _ _ h => .ok h.base_eq h

/-- A number from the stack is written in the current radix, with a space behind it. -/
theorem mirrors_printNumber (format : Cell → Nat → List UInt8) :
    m₀.Mirrors returns ip (fun _ _ => True)
      (do
        let n ← Exec.pop
        let base ← Exec.reg (·.base)
        Exec.write (format n base.toNat)
        Exec.write [Ascii.space])
      (do
        let n ← Store.pop
        let base ← observe fun s => .ok s.base
        Store.write (format n base.toNat)
        Store.write [Ascii.space]) := by
  refine mirrors_pop.bind ?_
  rintro n _ rfl
  refine mirrors_base.bind ?_
  rintro base _ rfl
  exact (mirrors_write _).bind fun _ _ _ => mirrors_write _

/-- Every primitive does to the machine what its effect does to the store that the machine
carries. -/
theorem refines_primitive (p : Primitive) :
    m₀.Mirrors returns ip (fun _ _ => True) p.action.step p.effect := by
  cases p with
  | stack word => exact mirrors_rewrite (Stack.rewrites_effect word)
  | unary word => exact mirrors_rewrite (Stack.rewrites_unary _)
  | binary word => exact mirrors_rewrite (Stack.rewrites_binary _)
  | divMod => exact mirrors_rewrite Stack.rewrites_divMod
  | emit =>
    refine mirrors_pop.bind ?_
    rintro c _ rfl
    exact mirrors_write _
  | dot => exact mirrors_printNumber Numeral.formatSigned
  | unsignedDot => exact mirrors_printNumber Numeral.formatUnsigned
  | newline => exact mirrors_write _
  | space => exact mirrors_write _
  | spaces =>
    refine mirrors_pop.bind ?_
    rintro n _ rfl
    split
    · exact mirrors_write _
    · exact .pure trivial

end Machine

end CellForth
