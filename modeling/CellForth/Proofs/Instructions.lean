import CellForth.Proofs.Following

/-!
# Actions of threaded code

One lemma for each action that the code of a structured body is made of. It says which step of an
evaluation the action stands for, and where the run goes on behind it. A primitive stands for its
effect, a literal for a push, a conditional jump and the end of a counted loop for taking a flag or
a number from the stack. Jumps, calls and returns stand for nothing: they change the place at which
the machine goes on, and the return stack, of which a store does not know.

Code is read from the machine `m₀` that the run started from. It stands below the stacks
(`Machine.HasCode`), so the run has not changed it.
-/

namespace CellForth

/-! ### Code in memory -/

/-- A row of code stands at a place of the dictionary, and ends below a bound. -/
structure Memory.Code (memory : Memory) (bound pos : Nat) (cs : List Cell) : Prop where
  /-- It is not among the reserved cells. -/
  start_le : dictionaryStart ≤ pos
  /-- It ends below the bound. -/
  le_bound : pos + cs.length ≤ bound
  /-- The cells are there. -/
  holds : memory.Holds pos cs

namespace Memory.Code

variable {memory : Memory} {bound pos : Nat} {c : Cell} {cs ds : List Cell}

theorem left (h : memory.Code bound pos (cs ++ ds)) : memory.Code bound pos cs where
  start_le := h.start_le
  le_bound := by
    have hle := h.le_bound
    rw [List.length_append] at hle
    omega
  holds := h.holds.left

theorem right (h : memory.Code bound pos (cs ++ ds)) : memory.Code bound (pos + cs.length) ds where
  start_le := Nat.le_add_right_of_le h.start_le
  le_bound := by
    have hle := h.le_bound
    rw [List.length_append] at hle
    omega
  holds := h.holds.right

theorem tail (h : memory.Code bound pos (c :: cs)) : memory.Code bound (pos + 1) cs where
  start_le := Nat.le_add_right_of_le h.start_le
  le_bound := by
    have hle := h.le_bound
    rw [List.length_cons] at hle
    omega
  holds := h.holds.tail

theorem head (h : memory.Code bound pos (c :: cs)) : memory.cells[pos]? = some c :=
  h.holds.cell (i := 0) rfl

theorem pos_lt (h : memory.Code bound pos (c :: cs)) : pos < bound := by
  have hle := h.le_bound
  rw [List.length_cons] at hle
  omega

end Memory.Code

/-! ### The end of a counted loop -/

theorem Exec.requireThread_of_ne_zero {m : Machine} (hip : m.regs.ip ≠ 0) :
    Exec.requireThread m = .ok () m :=
  observe_of_ok (demand_of_pos hip)

/-- Two items that are taken off one after the other are taken off together. -/
theorem Machine.Ordered.replaceReturn_drop {m : Machine} (h : m.Ordered)
    (hsize : 1 < m.returnStack.size) :
    (m.replaceReturn 1 []).replaceReturn 1 [] = m.replaceReturn 2 [] :=
  congrArg m.withReturnStack (h.returnStack.replaced_drop hsize [])

/-- With its counters on the return stack, a loop is left or gone through once more. -/
theorem Exec.stepLoop_eq {m : Machine} (hm : m.Ordered) (hip : m.regs.ip ≠ 0) {limit index : Cell}
    {rest : List Cell} (hitems : m.returnStack.items = index :: limit :: rest) (n : Cell) :
    Exec.stepLoop n m =
      if passesLimit limit index n then Exec.skipOperand (m.replaceReturn 2 [])
      else Exec.branch (m.replaceReturn 1 [index + n]) := by
  have hbounds := hm.returnStack
  have hthread := Exec.requireThread_of_ne_zero hip
  have hrequire : Exec.onReturn (Stack.require 2) m = .ok () m :=
    Exec.onReturn_of_ok (hbounds.require_of_le (by rw [hitems]; simp))
  have hindex : Exec.onReturn (Stack.pick 0) m = .ok index m :=
    Exec.onReturn_of_ok (hbounds.pick_of_some (by rw [hitems]; rfl))
  have hlimit : Exec.onReturn (Stack.pick 1) m = .ok limit m :=
    Exec.onReturn_of_ok (hbounds.pick_of_some (by rw [hitems]; rfl))
  unfold Exec.stepLoop
  rw [bind_of_ok hthread, bind_of_ok hrequire, bind_of_ok hindex, bind_of_ok hlimit,
    crossesLimit_eq]
  split
  · obtain ⟨hbelow, hitems'⟩ := hbounds.items_drop hitems
    have hfirst : Exec.onReturn Stack.drop m = .ok () (m.replaceReturn 1 []) :=
      Exec.onReturn_of_ok (hbounds.drop_of_cons hitems)
    have hsecond :
        Exec.onReturn Stack.drop (m.replaceReturn 1 []) = .ok () (m.replaceReturn 2 []) := by
      have hsize : 1 < m.returnStack.size := by
        rw [← hbounds.length_items, hitems]
        simp
      rw [← hm.replaceReturn_drop hsize]
      exact Exec.onReturn_of_ok (Stack.WithinBounds.drop_of_cons hbelow hitems')
    exact (bind_of_ok hfirst).trans (bind_of_ok hsecond)
  · exact bind_of_ok (Exec.onReturn_of_ok (hbounds.set_zero_of_cons _ hitems))

/-! ### One step of threaded code -/

namespace Machine

/-- The opcode leads to the action, and may stand in threaded code. -/
structure Native (m : Machine) (op : Cell) (action : Action) : Prop where
  /-- The table has the action. -/
  table : m.table[op.toNat]? = some action
  /-- The opcode is not one for code fields. -/
  contains_eq : CodeFields.standard.contains op = false

theorem Native.execute {m : Machine} {op : Cell} {action : Action} (h : m.Native op action)
    (hexecute : action ≠ .execute) (hresume : action ≠ .resume) :
    Exec.execute op m = (action.step >>= fun _ => pure Continuation.done) m := by
  obtain ⟨hlt, -⟩ := Array.getElem?_eq_some_iff.mp h.table
  exact (bind_of_ok (Exec.resolve_of_opcode hlt h.contains_eq h.table)).trans
    (Exec.act_of_step hexecute hresume)

/-- The runtime actions are where their opcodes lead to, as they are in every machine. -/
def Equipped (m : Machine) : Prop :=
  ∀ r : Runtime, m.table[r.opcode.toNat]? = some (.runtime r)

variable {m₀ m m' : Machine} {s : Store} {returns cs : List Cell} {c op : Cell} {ip bound : Nat}
  {action : Action}

theorem Equipped.native (h : m.Equipped) {r : Runtime}
    (hr : CodeFields.standard.contains r.opcode = false) : m.Native r.opcode (.runtime r) :=
  ⟨h r, hr⟩

/-- Code of the machine that a run started from, below its stacks. -/
abbrev HasCode (m₀ : Machine) (pos : Nat) (cs : List Cell) : Prop :=
  m₀.memory.Code m₀.regs.dataBase.toNat pos cs

namespace Running

section

variable (h : m₀.Running s returns ip m) (hcode : m₀.HasCode ip (c :: cs))
include h hcode

theorem toNat_ip : m.regs.ip.toNat = ip := by
  have hlt := m₀.regs.dataBase.toNat_lt
  have hpos := hcode.pos_lt
  rw [h.ip_eq]
  exact Cell.toNat_ofNat (by omega)

theorem ip_ne_zero : m.regs.ip ≠ 0 := by
  have hstart := hcode.start_le
  unfold dictionaryStart at hstart
  rw [← Cell.toNat_ne_zero_iff, h.toNat_ip hcode]
  omega

theorem fetch_ip : Exec.fetch m.regs.ip.toNat m = .ok c m := by
  rw [h.toNat_ip hcode]
  exact Exec.fetch_of_some ((h.agree ip hcode.pos_lt).trans hcode.head)

theorem requireThread : Exec.requireThread m = .ok () m :=
  Exec.requireThread_of_ne_zero (h.ip_ne_zero hcode)

end

theorem ip_ne_zero_of_code (h : m₀.Running s returns ip m) (hcode : m₀.HasCode ip cs)
    (hcs : cs ≠ []) : m.regs.ip ≠ 0 := by
  obtain ⟨c, rest, rfl⟩ := List.exists_cons_of_ne_nil hcs
  exact h.ip_ne_zero hcode

theorem ip_add_one (h : m₀.Running s returns ip m) : m.regs.ip + 1 = UInt16.ofNat (ip + 1) := by
  rw [h.ip_eq, UInt16.ofNat_add]
  rfl

/-- The cell behind an action can be read as its operand. -/
theorem operand (h : m₀.Running s returns ip m) (hcode : m₀.HasCode ip (c :: cs)) :
    ∃ m', Exec.operand m = .ok c m' ∧ m₀.Running s returns (ip + 1) m' := by
  refine ⟨_, ?_, h.jump h.ip_add_one⟩
  unfold Exec.operand
  rw [bind_of_ok (h.requireThread hcode), Exec.bind_reg, bind_of_ok (h.fetch_ip hcode)]
  rfl

/-- An offset leads to the place that it was made for. -/
theorem branch (h : m₀.Running s returns ip m) (hcode : m₀.HasCode ip (c :: cs)) {target : Nat}
    (htarget : UInt16.ofNat ip + c = UInt16.ofNat target) :
    ∃ m', Exec.branch m = .ok () m' ∧ m₀.Running s returns target m' := by
  refine ⟨_, ?_, h.jump (c := m.regs.ip + c) (by rw [h.ip_eq, htarget])⟩
  unfold Exec.branch
  rw [bind_of_ok (h.requireThread hcode), Exec.bind_reg, bind_of_ok (h.fetch_ip hcode)]
  rfl

theorem skipOperand (h : m₀.Running s returns ip m) :
    ∃ m', Exec.skipOperand m = .ok () m' ∧ m₀.Running s returns (ip + 1) m' :=
  ⟨_, rfl, h.jump h.ip_add_one⟩

theorem native (h : m₀.Running s returns ip m) (hop : m₀.Native op action) : m.Native op action :=
  ⟨by rw [h.table_eq]; exact hop.table, hop.contains_eq⟩

/-- A step of threaded code runs the word of the next cell, from behind it. -/
theorem stepThread_of_code (h : m₀.Running s returns ip m) (hcode : m₀.HasCode ip (c :: cs)) :
    ∃ m₁, m₀.Running s returns (ip + 1) m₁ ∧
      stepThread m = (Exec.execute c >>= fun _ => pure ()) m₁ := by
  refine ⟨_, h.jump h.ip_add_one, ?_⟩
  unfold stepThread
  rw [Exec.bind_reg, bind_of_ok (h.fetch_ip hcode), Exec.jump, Exec.bind_setRegs]

/-- A native word is a step of threaded code that starts behind its opcode. -/
theorem stepThread_native (h : m₀.Running s returns ip m) (hcode : m₀.HasCode ip (op :: cs))
    (hop : m₀.Native op action) (hexecute : action ≠ .execute) (hresume : action ≠ .resume) :
    ∃ m₁, m₀.Running s returns (ip + 1) m₁ ∧ stepThread m = action.step m₁ := by
  obtain ⟨m₁, h₁, hthread⟩ := h.stepThread_of_code hcode
  refine ⟨m₁, h₁, hthread.trans ?_⟩
  rw [bind_congr_at ((h₁.native hop).execute hexecute hresume)]
  simp only [bind_assoc, pure_bind, bind_pure_unit]

end Running

/-- An operation of the machine ends as an operation of a store did. -/
inductive Performs {α : Type} (m₀ : Machine) (P : α → Store → Machine → Prop) :
    EStateM.Result Fault Store α → EStateM.Result Fault Machine Unit → Prop
  /-- Both have succeeded. -/
  | ok {a : α} {s : Store} {m : Machine} (h : P a s m) : Performs m₀ P (.ok a s) (.ok () m)
  /-- Both have met the same fault. -/
  | error {e : Fault} {s : Store} {m : Machine} {returns : List Cell} {ip : Nat}
    (h : m₀.Running s returns ip m) : Performs m₀ P (.error e s) (.error e m)

theorem Mirrors.performs {x : Exec Unit} {y : StoreM Unit}
    (hx : m₀.Mirrors returns ip (fun _ _ => True) x y) (h : m₀.Running s returns ip m) :
    m₀.Performs (fun _ s' m' => m₀.Running s' returns ip m') (y s) (x m) := by
  have hrelated := hx m s h
  generalize x m = r, y s = r' at hrelated
  cases hrelated with
  | ok _ h' => exact .ok h'
  | error h' => exact .error h'

namespace Running

variable {α : Type} {x : StoreM α} {P : α → Store → Machine → Prop}

/-- A step of threaded code follows a step of an evaluation if it does what that does. -/
theorem follows_of_performs (hip : m.regs.ip ≠ 0) (hx : m₀.Performs P (x s) (stepThread m)) :
    m₀.Follows bound m (fun a s' m' => m.Reaches 1 m' ∧ P a s' m') (Eval.of x s) := by
  simp only [Eval.of]
  cases hstep : stepThread m with
  | ok _ m' =>
    rw [hstep] at hx
    generalize x s = r at hx
    cases hx with
    | ok hpost =>
      have hreach := reaches_of_stepThread hip hstep
      exact .ok hreach ⟨hreach, hpost⟩
  | error e m' =>
    rw [hstep] at hx
    generalize x s = r at hx
    cases hx with
    | error hrun => exact .error (runThread_of_stepThread hip hstep) hrun

/-- A native word follows a step of an evaluation if its action does what that does. -/
theorem follows_native (h : m₀.Running s returns ip m) (hcode : m₀.HasCode ip (op :: cs))
    (hop : m₀.Native op action) (hexecute : action ≠ .execute) (hresume : action ≠ .resume)
    (hx : ∀ m₁, m₀.Running s returns (ip + 1) m₁ → m₀.Performs P (x s) (action.step m₁)) :
    m₀.Follows bound m (fun a s' m' => m.Reaches 1 m' ∧ P a s' m') (Eval.of x s) := by
  obtain ⟨m₁, h₁, hstep⟩ := h.stepThread_native hcode hop hexecute hresume
  exact follows_of_performs (h.ip_ne_zero hcode) (hstep ▸ hx m₁ h₁)

/-- A step of threaded code that an evaluation knows nothing of. -/
theorem reaches_native (h : m₀.Running s returns ip m) (hcode : m₀.HasCode ip (op :: cs))
    (hop : m₀.Native op action) (hexecute : action ≠ .execute) (hresume : action ≠ .resume)
    {Q : Machine → Prop}
    (hstep : ∀ m₁, m₀.Running s returns (ip + 1) m₁ → ∃ m', action.step m₁ = .ok () m' ∧ Q m') :
    ∃ m', m.Reaches 1 m' ∧ Q m' := by
  obtain ⟨m₁, h₁, hthread⟩ := h.stepThread_native hcode hop hexecute hresume
  obtain ⟨m', hm', hpost⟩ := hstep m₁ h₁
  exact ⟨m', reaches_of_stepThread (h.ip_ne_zero hcode) (hthread.trans hm'), hpost⟩

end Running

/-! ### The actions, one by one -/

theorem Running.returnCapacity_eq (h : m₀.Running s returns ip m) :
    m.returnStack.capacity = m₀.returnStack.capacity := by
  have hlimit : m.regs.returnLimit = m₀.regs.returnLimit := congrArg (·.regs.returnLimit) h.rest
  have hbase : m.regs.returnBase = m₀.regs.returnBase := congrArg (·.regs.returnBase) h.rest
  simp only [Stack.capacity, Machine.returnStack, hlimit, hbase]

/-- What fits on the return stack is a matter of numbers. -/
theorem Running.fits_return (h : m₀.Running s returns ip m) {n : Nat} {vs : List Cell}
    (hn : n ≤ returns.length) (hroom : returns.length + vs.length ≤ n + m₀.returnStack.capacity) :
    m.returnStack.Fits n vs := by
  rw [h.within.returnStack.fits_iff, h.returns_eq, h.returnCapacity_eq]
  exact ⟨hn, hroom⟩

section Actions

variable (h : m₀.Running s returns ip m)
include h

theorem Running.follows_word {p : Primitive} (hcode : m₀.HasCode ip (op :: cs))
    (hop : m₀.Native op p.action) :
    m₀.Follows bound m (fun _ s' m' => m.Reaches 1 m' ∧ m₀.Running s' returns (ip + 1) m')
      (Eval.of p.effect s) :=
  h.follows_native hcode hop (by cases p <;> simp [Primitive.action])
    (by cases p <;> simp [Primitive.action]) fun _ h₁ => (refines_primitive p).performs h₁

/-- The index of a loop is on top of the return stack. -/
theorem Running.follows_index {index : Cell} {rest : List Cell} (hreturns : returns = index :: rest)
    (hcode : m₀.HasCode ip (op :: cs)) (hop : m₀.Native op (.returns .fetchReturn)) :
    m₀.Follows bound m (fun _ s' m' => m.Reaches 1 m' ∧ m₀.Running s' returns (ip + 1) m')
      (Eval.of (Store.push index) s) := by
  refine h.follows_native hcode hop (by simp) (by simp) fun m₁ h₁ => ?_
  have hpeek : Exec.onReturn Stack.peek m₁ = .ok index m₁ :=
    Exec.onReturn_of_ok (h₁.within.returnStack.peek_of_cons (h₁.returns_eq.trans hreturns))
  have hstep : (Action.returns .fetchReturn).step m₁ = Exec.push index m₁ := bind_of_ok hpeek
  rw [hstep]
  exact (mirrors_push index).performs h₁

variable (hequipped : m₀.Equipped)
include hequipped

theorem Running.follows_literal (hcode : m₀.HasCode ip (Runtime.literal.opcode :: c :: cs)) :
    m₀.Follows bound m (fun _ s' m' => m.Reaches 1 m' ∧ m₀.Running s' returns (ip + 2) m')
      (Eval.of (Store.push c) s) := by
  refine h.follows_native hcode (hequipped.native rfl) (by simp) (by simp) fun m₁ h₁ => ?_
  obtain ⟨m₂, hoperand, h₂⟩ := h₁.operand hcode.tail
  have hstep : (Action.runtime .literal).step m₁ = Exec.push c m₂ := bind_of_ok hoperand
  rw [hstep]
  exact (mirrors_push c).performs h₂

theorem Running.reaches_branch (hcode : m₀.HasCode ip (Runtime.branch.opcode :: c :: cs))
    {target : Nat} (htarget : UInt16.ofNat (ip + 1) + c = UInt16.ofNat target) :
    ∃ m', m.Reaches 1 m' ∧ m₀.Running s returns target m' :=
  h.reaches_native hcode (hequipped.native rfl) (by simp) (by simp) fun _ h₁ =>
    h₁.branch hcode.tail htarget

/-- A conditional jump takes a flag, and jumps if it is false. -/
theorem Running.follows_zeroBranch (hcode : m₀.HasCode ip (Runtime.zeroBranch.opcode :: c :: cs))
    {target : Nat} (htarget : UInt16.ofNat (ip + 1) + c = UInt16.ofNat target) :
    m₀.Follows bound m (fun flag s' m' => m.Reaches 1 m' ∧
        m₀.Running s' returns (if flag = 0 then target else ip + 2) m')
      (Eval.of Store.pop s) := by
  refine h.follows_native hcode (hequipped.native rfl) (by simp) (by simp) fun m₁ h₁ => ?_
  have hpop := mirrors_pop m₁ s h₁
  have hstep : (Action.runtime .zeroBranch).step m₁ =
      (Exec.pop >>= fun c => if c = 0 then Exec.branch else Exec.skipOperand) m₁ :=
    bind_of_ok (h₁.requireThread hcode.tail)
  rw [hstep]
  cases hr : Store.pop s with
  | error e s' =>
    obtain ⟨m₂, hm₂, h₂⟩ := hpop.of_eq_error hr
    rw [bind_of_error hm₂]
    exact .error h₂
  | ok flag s' =>
    obtain ⟨_, m₂, hm₂, rfl, h₂⟩ := hpop.of_eq_ok hr
    rw [bind_of_ok hm₂]
    split
    · obtain ⟨m₃, hm₃, h₃⟩ := h₂.branch hcode.tail htarget
      rw [hm₃]
      exact .ok (by rwa [if_pos ‹_›])
    · obtain ⟨m₃, hm₃, h₃⟩ := h₂.skipOperand
      rw [hm₃]
      exact .ok (by rwa [if_neg ‹_›])

/-- Entering a counted loop moves limit and index to the return stack. -/
theorem Running.follows_enterLoop (hcode : m₀.HasCode ip (Runtime.enterLoop.opcode :: c :: cs))
    (hroom : returns.length + 2 ≤ m₀.returnStack.capacity) :
    m₀.Follows bound m (fun counters s' m' => m.Reaches 1 m' ∧
        m₀.Running s' (counters.2 :: counters.1 :: returns) (ip + 1) m')
      (Eval.of Store.popCounters s) := by
  refine h.follows_native hcode (hequipped.native rfl) (by simp) (by simp) fun m₁ h₁ => ?_
  have hthread := h₁.requireThread hcode.tail
  unfold Store.popCounters
  match hdata : s.data with
  -- Both counters are asked for before the first is taken, so a lone one stays where it is.
  | [] | [_] =>
    have hrequire := h₁.within.dataStack.require_of_lt (n := 2) (by rw [h₁.data_eq, hdata]; simp)
    have hstep : (Action.runtime .enterLoop).step m₁ = .error .stackUnderflow m₁ :=
      (bind_of_ok hthread).trans (bind_of_error (Exec.onData_of_error hrequire))
    rw [hstep]
    exact .error h₁
  | index :: limit :: data =>
    have hrequire : Exec.onData (Stack.require 2) m₁ = .ok () m₁ :=
      Exec.onData_of_ok (h₁.within.dataStack.require_of_le (by rw [h₁.data_eq, hdata]; simp))
    have hindex : Store.pop s = .ok index { s with data := limit :: data } := by
      simp only [Store.pop, hdata]
    obtain ⟨index, m₂, hm₂, rfl, h₂⟩ := (mirrors_pop m₁ s h₁).of_eq_ok hindex
    have hlimit :
        Store.pop { s with data := limit :: data } = .ok limit { s with data := data } := rfl
    obtain ⟨limit, m₃, hm₃, rfl, h₃⟩ := (mirrors_pop m₂ _ h₂).of_eq_ok hlimit
    have hfits : m₃.returnStack.Fits 0 [limit, index] :=
      h₃.fits_return (Nat.zero_le _) (by rwa [Nat.zero_add])
    have hpush := Exec.onReturn_of_ok (h₃.within.returnStack.pushTwo_of_fits hfits)
    have hstep : (Action.runtime .enterLoop).step m₁ = .ok () _ :=
      (bind_of_ok hthread).trans ((bind_of_ok hrequire).trans ((bind_of_ok hm₂).trans
        ((bind_of_ok hm₃).trans hpush)))
    rw [hstep]
    exact .ok (h₃.replaceReturn hfits)

end Actions

/-- At the end of a round, a counted loop is left if the step takes its index over the limit;
otherwise the index is stepped, and the next round begins. -/
theorem Running.stepLoop {limit index : Cell} {rest : List Cell}
    (h : m₀.Running s (index :: limit :: rest) ip m) (hcode : m₀.HasCode ip (c :: cs))
    {target : Nat} (htarget : UInt16.ofNat ip + c = UInt16.ofNat target) (n : Cell) :
    ∃ m', Exec.stepLoop n m = .ok () m' ∧
      if passesLimit limit index n then m₀.Running s rest (ip + 1) m'
      else m₀.Running s ((index + n) :: limit :: rest) target m' := by
  have hlen := h.within.returnStack.length_items
  rw [h.returns_eq, List.length_cons, List.length_cons] at hlen
  rw [Exec.stepLoop_eq h.within.ordered (h.ip_ne_zero hcode) h.returns_eq]
  split
  · have hfits : m.returnStack.Fits 2 [] := ⟨by omega, Nat.zero_le _⟩
    exact (h.replaceReturn hfits).skipOperand
  · have hfits : m.returnStack.Fits 1 [index + n] := ⟨by omega, Nat.le_add_right _ _⟩
    exact (h.replaceReturn hfits).branch hcode htarget

/-- The action at the end of a counted loop takes the number by which the index is stepped. -/
theorem Running.follows_stepLoop {limit index : Cell} {rest : List Cell}
    (h : m₀.Running s (index :: limit :: rest) ip m) (hequipped : m₀.Equipped) (stride : Stride)
    (hcode : m₀.HasCode ip (stride.runtime.opcode :: c :: cs)) {target : Nat}
    (htarget : UInt16.ofNat (ip + 1) + c = UInt16.ofNat target) :
    m₀.Follows bound m (fun n s' m' => m.Reaches 1 m' ∧
        if passesLimit limit index n then m₀.Running s' rest (ip + 2) m'
        else m₀.Running s' ((index + n) :: limit :: rest) target m')
      (Eval.of stride.amount s) := by
  refine h.follows_native hcode (hequipped.native (by cases stride <;> rfl)) (by simp) (by simp)
    fun m₁ h₁ => ?_
  cases stride with
  | one =>
    obtain ⟨m', hm', h'⟩ := h₁.stepLoop hcode.tail htarget 1
    have hstep : (Action.runtime Stride.one.runtime).step m₁ = .ok () m' := hm'
    rw [hstep]
    exact .ok h'
  | popped =>
    have hpop := mirrors_pop m₁ s h₁
    have hstep : (Action.runtime Stride.popped.runtime).step m₁ =
        (Exec.pop >>= fun n => Exec.stepLoop n) m₁ :=
      bind_of_ok (h₁.requireThread hcode.tail)
    rw [hstep]
    -- Here the step is taken off the data stack, which may be empty.
    show m₀.Performs _ (Store.pop s) _
    cases hr : Store.pop s with
    | error e s' =>
      obtain ⟨m₂, hm₂, h₂⟩ := hpop.of_eq_error hr
      rw [bind_of_error hm₂]
      exact .error h₂
    | ok n s' =>
      obtain ⟨_, m₂, hm₂, rfl, h₂⟩ := hpop.of_eq_ok hr
      obtain ⟨m₃, hm₃, h₃⟩ := h₂.stepLoop hcode.tail htarget _
      rw [bind_of_ok hm₂, hm₃]
      exact .ok h₃

/-! ### Calls -/

/-- Entering a definition puts the place to come back to on the return stack, and goes on behind the
code field that the register `w` points to. -/
theorem Running.nest (h : m₀.Running s returns ip m)
    (hroom : returns.length + 1 ≤ m₀.returnStack.capacity) :
    ∃ m', Runtime.nest.perform m = .ok () m' ∧
      m₀.Running s (m.regs.ip :: returns) (m.regs.w.toNat + 1) m' := by
  have hfits : m.returnStack.Fits 0 [m.regs.ip] :=
    h.fits_return (Nat.zero_le _) (by rwa [Nat.zero_add])
  have hpush : Exec.onReturn (Stack.push m.regs.ip) m = .ok () (m.replaceReturn 0 [m.regs.ip]) :=
    Exec.onReturn_of_ok (h.within.returnStack.push_of_fits hfits)
  have htarget : m.regs.w + 1 = UInt16.ofNat (m.regs.w.toNat + 1) := by
    rw [UInt16.ofNat_add, UInt16.ofNat_toNat]
    rfl
  refine ⟨_, ?_, (h.replaceReturn hfits).jump htarget⟩
  simp only [Runtime.perform]
  rw [Exec.bind_reg, bind_of_ok hpush]
  rfl

/-- Running the token of a definition enters its code. -/
theorem Running.execute_definition (h : m₀.Running s returns ip m) (hequipped : m₀.Equipped)
    {xt : Cell} (hcode : m₀.HasCode xt.toNat (Runtime.nest.opcode :: cs))
    (hroom : returns.length + 1 ≤ m₀.returnStack.capacity) :
    ∃ m', Exec.execute xt m = .ok .done m' ∧
      m₀.Running s (m.regs.ip :: returns) (xt.toNat + 1) m' := by
  have hle : m.table.size ≤ xt.toNat := Nat.le_trans h.within.table_le hcode.start_le
  have hfield : m.memory.get xt.toNat = .ok Runtime.nest.opcode :=
    Memory.get_of_some ((h.agree _ hcode.pos_lt).trans hcode.head)
  have haction : m.table[Runtime.nest.opcode.toNat]? = some (.runtime .nest) := by
    rw [h.table_eq]
    exact hequipped .nest
  obtain ⟨m', hnest, h'⟩ := (h.setW xt).nest hroom
  refine ⟨m', ?_, h'⟩
  refine (bind_of_ok (Exec.resolve_of_address hle hfield haction)).trans ?_
  rw [Exec.act_of_step (by simp) (by simp)]
  exact bind_of_ok hnest

/-- A call enters the code of a definition. -/
theorem Running.reaches_call (h : m₀.Running s returns ip m) (hequipped : m₀.Equipped) {xt : Cell}
    {body : List Cell} (hcode : m₀.HasCode ip (xt :: cs))
    (hbody : m₀.HasCode xt.toNat (Runtime.nest.opcode :: body))
    (hroom : returns.length + 1 ≤ m₀.returnStack.capacity) :
    ∃ m', m.Reaches 1 m' ∧
      m₀.Running s (UInt16.ofNat (ip + 1) :: returns) (xt.toNat + 1) m' := by
  obtain ⟨m₁, h₁, hthread⟩ := h.stepThread_of_code hcode
  obtain ⟨m', hexecute, h'⟩ := h₁.execute_definition hequipped hbody hroom
  rw [h₁.ip_eq] at h'
  exact ⟨m', reaches_of_stepThread (h.ip_ne_zero hcode) (hthread.trans (bind_of_ok hexecute)), h'⟩

/-- The end of a definition goes back to where it was called. -/
theorem Running.reaches_exit {back : Cell} {rest : List Cell}
    (h : m₀.Running s (back :: rest) ip m) (hequipped : m₀.Equipped)
    (hcode : m₀.HasCode ip (Runtime.exit.opcode :: cs)) :
    ∃ m', m.Reaches 1 m' ∧ m₀.Running s rest back.toNat m' := by
  refine h.reaches_native hcode (hequipped.native rfl) (by simp) (by simp) fun m₁ h₁ => ?_
  have hbounds := h₁.within.returnStack
  have hfits : m₁.returnStack.Fits 1 [] :=
    ⟨by rw [← hbounds.length_items, h₁.returns_eq]; simp, Nat.zero_le _⟩
  have hpop := Exec.onReturn_of_ok (hbounds.pop_of_cons h₁.returns_eq)
  exact ⟨_, (bind_of_ok hpop).trans rfl, (h₁.replaceReturn hfits).jump UInt16.ofNat_toNat.symm⟩

end Machine

end CellForth
