import CellForth.Proofs.CompiledStrings
import CellForth.Proofs.TopLevel

/-!
# The instruction pointer

Only the actions of threaded code move the instruction pointer; every other action leaves it alone
(`Action.keeps_ip_step`). Where each of them leads is `Runtime.Leads`.

The pointer is moved by sums of cells, which are taken modulo `2 ^ 16`. A cell behind the memory
cannot be read. So when the pointer passes over a cell that has been read, it is at most at the end
of memory then, and the sum has not wrapped around (`Machine.Advances`). A conditional jump that is
not taken and a loop that is left pass over their offset without reading it
(`Runtime.perform_of_not_taken`).
-/

namespace CellForth

/-! ### Actions that do not belong to threaded code -/

namespace Exec

variable {α : Type} {ip : Cell}

theorem keeps_ip_onReturn (op : StackM α) : Keeps (fun m => m.regs.ip = ip) (onReturn op) := by
  intro m hm
  rw [onReturn_eq]
  cases op m.returnStack <;> exact hm

theorem keeps_ip_setRegs {f : Registers → Registers} (hf : ∀ regs, (f regs).ip = regs.ip) :
    Keeps (fun m => m.regs.ip = ip) (setRegs f) := by
  intro m hm
  exact (hf m.regs).trans hm

/-- Input, output and notices have nothing to do with the pointer. -/
theorem deviceFree_ip (ip : Cell) : DeviceFree fun m => m.regs.ip = ip :=
  fun _ _ _ _ _ hm => hm

theorem keeps_ip_packBytes (bs : List UInt8) : Keeps (fun m => m.regs.ip = ip) (packBytes bs) :=
  .bind (.reg _) fun _ => .bind (keeps_ip_onMemory _) fun _ => keeps_ip_setRegs fun _ => rfl

theorem keeps_ip_noteRedefinition (name : List UInt8) :
    Keeps (fun m => m.regs.ip = ip) (noteRedefinition name) := by
  intro m hm
  unfold noteRedefinition
  split
  · split
    · exact hm
    · exact hm
  · exact hm

theorem keeps_ip_createRecord (name : List UInt8) (code flags : Cell) :
    Keeps (fun m => m.regs.ip = ip) (createRecord name code flags) :=
  .bind (.settle _) fun _ => .bind (.settle _) fun _ => .bind (.observe _) fun _ =>
    .bind (keeps_ip_noteRedefinition name) fun _ => .bind (.reg _) fun _ => .bind (.reg _) fun _ =>
    .bind (keeps_ip_compileCell _) fun _ => .bind (keeps_ip_compileCell _) fun _ =>
    .bind (keeps_ip_packBytes _) fun _ => .bind (keeps_ip_compileCell _) fun _ =>
    .bind (keeps_ip_setRegs fun _ => rfl) fun _ => .pure _

theorem ordinary_keeps_ip (ip : Cell) : Ordinary fun op => Keeps (fun m => m.regs.ip = ip) op where
  glance _ _ := .observe _
  bind := .bind
  onData _ := keeps_ip_onData _
  onReturn _ := keeps_ip_onReturn _
  put _ _ := keeps_ip_onMemory _
  compileCell := keeps_ip_compileCell
  compileString bs :=
    .bind (.observe _) fun _ => .bind (keeps_ip_compileCell _) fun _ => keeps_ip_packBytes bs
  createRecord := keeps_ip_createRecord
  allot _ :=
    .bind (.reg _) fun _ => .bind (.observe _) fun _ => .bind (.settle _) fun _ =>
      keeps_ip_setRegs fun _ => rfl
  setBase _ _ := keeps_ip_setRegs fun _ => rfl
  parseName := (deviceFree_ip ip).parseName
  write := (deviceFree_ip ip).write

end Exec

/-- An action that does not belong to threaded code leaves the pointer alone. -/
theorem Action.keeps_ip_step {action : Action} (hruntime : action.isRuntime = false) (ip : Cell) :
    Keeps (fun m => m.regs.ip = ip) action.step := by
  have h := Exec.ordinary_keeps_ip ip
  have hdevices := Exec.deviceFree_ip ip
  cases hswitches : action.switches with
  | false =>
    have hadd (name : String) {action : Action} (_ : action.readsW = false) :=
      Exec.keeps_addRuntime (P := fun m => m.regs.ip = ip) (fun _ _ _ => id) name action
    exact h.step (hdevices.outward hadd) hswitches hruntime
  | true =>
    have hset (address : Cell) (mode : Mode) : Keeps (fun m => m.regs.ip = ip)
        (Exec.setRegs fun regs => { regs with defining := address, mode := mode }) :=
      Exec.keeps_ip_setRegs fun _ => rfl
    have hbegin : Keeps (fun m => m.regs.ip = ip) Exec.beginDefinition :=
      .bind (.observe _) fun _ => .bind h.parseName fun _ => .bind (h.createRecord _ _ _) fun _ =>
        .bind (h.pushControl _ _) fun _ => .bind (hset _ _) fun _ => hdevices.report _
    have hnote (address : Cell) : Keeps (fun m => m.regs.ip = ip) (Exec.noteDefinition address) :=
      .bind (.observe _) fun _ => .ite
        (.bind (.observe _) fun _ => .bind (.reg _) fun _ => hdevices.report _) (.pure _)
    have hend : Keeps (fun m => m.regs.ip = ip) Exec.endDefinition :=
      .bind (.observe _) fun _ => .bind (h.popControl _) fun _ => .bind (.observe _) fun _ =>
        .bind (h.compileRuntime _) fun _ => .bind (h.reveal _) fun _ =>
          .bind (hset _ _) fun _ => hnote _
    exact h.step_of_switches (fun _ => Exec.keeps_ip_setRegs fun _ => rfl) hbegin hend hswitches

/-! ### Passing over cells that have been read -/

/-- Only the largest cell comes round to zero. -/
theorem Cell.add_one_eq_zero_iff {c : Cell} : c + 1 = 0 ↔ c = Cell.top := by
  have hlt := c.toNat_lt
  have hsum : (c + 1).toNat = (c.toNat + 1) % 65536 := UInt16.toNat_add c 1
  constructor
  · intro hzero
    rw [hzero] at hsum
    refine Cell.eq_of_toNat_eq (b := Cell.top) ?_
    show c.toNat = 65535
    have hround : 0 = (c.toNat + 1) % 65536 := hsum
    omega
  · rintro rfl
    rfl

namespace Machine

variable {m m' : Machine} {n : Nat}

/-- The pointer has moved on by a number of cells. It is at most at the end of memory then, and it
has not come round to zero. -/
structure Advances (m : Machine) (n : Nat) (m' : Machine) : Prop where
  /-- The distance is as many cells, not only modulo `2 ^ 16`. -/
  toNat_ip : m'.regs.ip.toNat = m.regs.ip.toNat + n
  /-- The cells that were passed over are in memory. -/
  le_size : m'.regs.ip.toNat ≤ m.memory.size
  /-- The code goes on. -/
  ip_ne_zero : m'.regs.ip ≠ 0

/-- Within memory, the sum that moves the pointer does not wrap around. -/
theorem WithinRegions.advances (h : m.WithinRegions) (hip : m.regs.ip ≠ 0)
    (hle : m.regs.ip.toNat + n ≤ m.memory.size) (hm' : m'.regs.ip = m.regs.ip + UInt16.ofNat n) :
    m.Advances n m' := by
  have hsize : m.memory.size ≤ 65535 := h.size_le
  have hpos := Cell.toNat_ne_zero_iff.mpr hip
  have hsum : m'.regs.ip.toNat = m.regs.ip.toNat + n := by
    rw [hm', Cell.toNat_add_ofNat (by omega)]
  exact ⟨hsum, by omega, Cell.toNat_ne_zero_iff.mp (by omega)⟩

end Machine

namespace Memory

variable {memory : Memory} {pos n : Nat}

/-- A string that the end of memory cuts off cannot be read. -/
theorem getBytes_of_lt (hpos : pos ≤ memory.size) (hlt : memory.size < pos + packedLength n) :
    memory.getBytes pos n = .error .invalidMemoryAddress := by
  cases hbytes : memory.getBytes pos n with
  | error e => rw [fault_of_getBytes hbytes]
  | ok bs =>
    rcases exists_getBytes_iff.mp ⟨bs, hbytes⟩ with rfl | hle
    · -- The empty string has no bytes that could be cut off.
      simp only [packedLength] at hlt
      omega
    · omega

end Memory

namespace Exec

variable {m m' : Machine}

theorem fetch_of_le {pos : Nat} (hle : m.memory.size ≤ pos) :
    fetch pos m = .error .invalidMemoryAddress m :=
  observe_of_error (Memory.get_eq_error_iff.mpr ⟨hle, rfl⟩)

theorem operand_of_le (hip : m.regs.ip ≠ 0) (hle : m.memory.size ≤ m.regs.ip.toNat) :
    operand m = .error .invalidMemoryAddress m := by
  unfold operand
  rw [bind_of_ok (requireThread_of_ne_zero hip), bind_reg, bind_of_error (fetch_of_le hle)]

theorem branch_of_le (hip : m.regs.ip ≠ 0) (hle : m.memory.size ≤ m.regs.ip.toNat) :
    branch m = .error .invalidMemoryAddress m := by
  unfold branch
  rw [bind_of_ok (requireThread_of_ne_zero hip), bind_reg, bind_of_error (fetch_of_le hle)]

/-- With an item on the data stack, taking it off leaves the regions in order, and the return stack
and the pointer as they are. -/
theorem pop_of_cons (h : m.Ordered) {c : Cell} {rest : List Cell}
    (hitems : m.dataStack.items = c :: rest) :
    pop m = .ok c (m.replaceData 1 []) ∧ (m.replaceData 1 []).Ordered := by
  have hfits : m.dataStack.Fits 1 [] :=
    ⟨by rw [← h.dataStack.length_items, hitems]; simp, Nat.zero_le _⟩
  exact ⟨onData_of_ok (h.dataStack.pop_of_cons hitems), h.replaceData hfits⟩

theorem pop_of_nil (h : m.Ordered) (hitems : m.dataStack.items = []) :
    pop m = .error .stackUnderflow m :=
  onData_of_error (h.dataStack.pop_of_nil hitems)

/-- An operand that could be read is passed over. -/
theorem operand_ok {c : Cell} (h : operand m = .ok c m') :
    m.regs.ip ≠ 0 ∧ m.memory.cells[m.regs.ip.toNat]? = some c ∧
      m' = { m with regs := { m.regs with ip := m.regs.ip + 1 } } := by
  obtain ⟨_, m₁, hthread, hrest⟩ := exists_of_bind_ok h
  obtain ⟨hdemand, rfl⟩ := observe_eq_ok_iff.mp hthread
  have hip : m₁.regs.ip ≠ 0 := by
    by_contra hzero
    rw [demand_of_neg (not_not.mpr hzero)] at hdemand
    cases hdemand
  rw [bind_reg] at hrest
  obtain ⟨_, m₂, hfetch, hjump⟩ := exists_of_bind_ok hrest
  obtain ⟨hget, rfl⟩ := observe_eq_ok_iff.mp hfetch
  cases hjump
  exact ⟨hip, Memory.get_eq_ok_iff.mp hget, rfl⟩

/-- An offset that could be read is added to the pointer. -/
theorem branch_ok (h : branch m = .ok () m') :
    ∃ offset, m'.memory.cells[m.regs.ip.toNat]? = some offset ∧
      m'.regs.ip = m.regs.ip + offset := by
  obtain ⟨_, m₁, hthread, hrest⟩ := exists_of_bind_ok h
  obtain ⟨-, rfl⟩ := observe_eq_ok_iff.mp hthread
  rw [bind_reg] at hrest
  obtain ⟨offset, m₂, hfetch, hjump⟩ := exists_of_bind_ok hrest
  obtain ⟨hget, rfl⟩ := observe_eq_ok_iff.mp hfetch
  cases hjump
  exact ⟨offset, Memory.get_eq_ok_iff.mp hget, rfl⟩

end Exec

/-- The string behind the action that prints is passed over once it has been read, even if it cannot
be written. -/
theorem Machine.WithinRegions.advances_print {m : Machine} (h : m.WithinRegions)
    (hip : m.regs.ip ≠ 0) {n : Cell} (hcell : m.memory.cells[m.regs.ip.toNat]? = some n)
    (hle : m.regs.ip.toNat + 1 + packedLength n.toNat ≤ m.memory.size) :
    m.Advances (1 + packedLength n.toNat) (endState (Runtime.print.perform m)) := by
  have hsize : m.memory.size ≤ 65535 := h.size_le
  have hnext : (m.regs.ip + 1).toNat = m.regs.ip.toNat + 1 :=
    Cell.toNat_add_ofNat (n := 1) (by omega)
  obtain ⟨bs, hbytes⟩ : ∃ bs, m.memory.getBytes (m.regs.ip + 1).toNat n.toNat = .ok bs :=
    Memory.exists_getBytes_iff.mpr (.inr (by omega))
  refine h.advances hip (by omega) ?_
  have hread :
      (observe fun m' : Machine => m'.memory.getBytes (m.regs.ip + 1).toNat n.toNat : Exec _)
      { m with regs := { m.regs with ip := m.regs.ip + 1 } } =
        .ok bs { m with regs := { m.regs with ip := m.regs.ip + 1 } } := observe_of_ok hbytes
  simp only [Runtime.perform]
  rw [bind_of_ok (Exec.operand_of_some hip hcell), Exec.bind_reg, bind_of_ok hread, Exec.jump,
    Exec.bind_setRegs]
  refine (Exec.deviceFree_ip _).write bs _ ?_
  rw [UInt16.ofNat_add, UInt16.add_assoc]
  rfl

/-- A string that is cut off is not passed over. -/
theorem Runtime.print_of_lt {m : Machine} (h : m.WithinRegions) (hip : m.regs.ip ≠ 0) {n : Cell}
    (hcell : m.memory.cells[m.regs.ip.toNat]? = some n)
    (hlt : m.memory.size < m.regs.ip.toNat + 1 + packedLength n.toNat) :
    Runtime.print.perform m = .error .invalidMemoryAddress
      { m with regs := { m.regs with ip := m.regs.ip + 1 } } := by
  have hsize : m.memory.size ≤ 65535 := h.size_le
  have hin := Memory.lt_size_of_some hcell
  have hnext : (m.regs.ip + 1).toNat = m.regs.ip.toNat + 1 :=
    Cell.toNat_add_ofNat (n := 1) (by omega)
  have hbytes : m.memory.getBytes (m.regs.ip + 1).toNat n.toNat = .error .invalidMemoryAddress :=
    Memory.getBytes_of_lt (by omega) (by omega)
  have hread :
      (observe fun m' : Machine => m'.memory.getBytes (m.regs.ip + 1).toNat n.toNat : Exec _)
      { m with regs := { m.regs with ip := m.regs.ip + 1 } } = .error .invalidMemoryAddress
        { m with regs := { m.regs with ip := m.regs.ip + 1 } } := observe_of_error hbytes
  simp only [Runtime.perform]
  rw [bind_of_ok (Exec.operand_of_some hip hcell), Exec.bind_reg, bind_of_error hread]

/-! ### Jumps, and passing over an offset that is not read -/

/-- Is the innermost loop gone through once more if its index is stepped by `n`? There may be no
loop. -/
def Machine.repeats? (m : Machine) (n : Cell) : Option Bool :=
  match m.returnStack.items with
  | index :: limit :: _ => some (!passesLimit limit index n)
  | _ => none

namespace Runtime

variable {m m' : Machine} {r : Runtime}

/-- Does an offset stand behind the opcode of the action? -/
def hasOffset : Runtime → Bool
  | branch | zeroBranch | stepLoop | stepLoopBy => true
  | _ => false

/-- Is the jump taken? There is no answer if the action has no offset, or if the items that decide
it are missing. -/
def jumps? (m : Machine) : Runtime → Option Bool
  | branch => some true
  | zeroBranch => m.dataStack.items.head?.map fun c => decide (c = 0)
  | stepLoop => m.repeats? 1
  | stepLoopBy => m.dataStack.items.head?.bind m.repeats?
  | _ => none

/-- With the counters of a loop on the return stack, its end is a jump, or the offset is passed
over. -/
theorem stepLoop_of_repeats? (h : m.Ordered) (hip : m.regs.ip ≠ 0) {n : Cell} {jump : Bool}
    (hjump : m.repeats? n = some jump) : ∃ m₁ : Machine, m₁.regs.ip = m.regs.ip ∧
      Exec.stepLoop n m = (if jump then Exec.branch else Exec.skipOperand) m₁ := by
  unfold Machine.repeats? at hjump
  split at hjump
  · rename_i index limit rest hitems
    cases hjump
    rw [Exec.stepLoop_eq h hip hitems]
    cases passesLimit limit index n with
    | true => exact ⟨m.replaceReturn 2 [], rfl, rfl⟩
    | false => exact ⟨m.replaceReturn 1 [index + n], rfl, rfl⟩
  · cases hjump

theorem stepLoop_of_none (h : m.Ordered) (hip : m.regs.ip ≠ 0) {n : Cell}
    (hnone : m.repeats? n = none) :
    Exec.stepLoop n m = .error .returnStackUnderflow m := by
  have hthread := Exec.requireThread_of_ne_zero hip
  have hshort : m.returnStack.items.length < 2 := by
    unfold Machine.repeats? at hnone
    rcases hitems : m.returnStack.items with _ | ⟨index, _ | ⟨limit, rest⟩⟩
    · exact Nat.zero_lt_two
    · exact Nat.one_lt_two
    · rw [hitems] at hnone
      cases hnone
  have hrequire : Exec.onReturn (Stack.require 2) m = .error .returnStackUnderflow m :=
    Exec.onReturn_of_error (h.returnStack.require_of_lt hshort)
  unfold Exec.stepLoop
  rw [bind_of_ok hthread, bind_of_error hrequire]

/-- An action with an offset behind it jumps, or else it passes over the offset; before that, it
only works on the stacks. -/
theorem perform_of_jumps? (h : m.Ordered) (hip : m.regs.ip ≠ 0) {jump : Bool}
    (hjump : r.jumps? m = some jump) : ∃ m₁ : Machine, m₁.regs.ip = m.regs.ip ∧
      r.perform m = (if jump then Exec.branch else Exec.skipOperand) m₁ := by
  have hthread := Exec.requireThread_of_ne_zero hip
  cases r with
  | branch =>
    cases hjump
    exact ⟨m, rfl, rfl⟩
  | zeroBranch =>
    obtain ⟨c, hhead, rfl⟩ := Option.map_eq_some_iff.mp hjump
    obtain ⟨rest, hitems⟩ := List.head?_eq_some_iff.mp hhead
    refine ⟨m.replaceData 1 [], rfl, ?_⟩
    simp only [perform]
    rw [bind_of_ok hthread, bind_of_ok (Exec.pop_of_cons h hitems).1]
    by_cases hc : c = 0
    · simp only [hc, if_true, decide_true]
    · simp only [hc, if_false, decide_false, Bool.false_eq_true]
  | stepLoop => exact stepLoop_of_repeats? h hip hjump
  | stepLoopBy =>
    obtain ⟨n, hhead, hrepeats⟩ := Option.bind_eq_some_iff.mp hjump
    obtain ⟨rest, hitems⟩ := List.head?_eq_some_iff.mp hhead
    obtain ⟨hpop, hordered⟩ := Exec.pop_of_cons h hitems
    simp only [perform]
    rw [bind_of_ok hthread, bind_of_ok hpop]
    -- Taking the number off has left the counters where they are.
    exact stepLoop_of_repeats? hordered hip hrepeats
  | nest | address | constant | literal | enterLoop | print | exit => cases hjump

/-- If the items that decide on the jump are missing, the action is refused. -/
theorem refused_of_jumps? (h : m.Ordered) (hip : m.regs.ip ≠ 0) (hr : r.hasOffset = true)
    (hnone : r.jumps? m = none) : ∃ e m', r.perform m = .error e m' := by
  have hthread := Exec.requireThread_of_ne_zero hip
  cases r with
  | branch => cases hnone
  | zeroBranch =>
    have hitems : m.dataStack.items = [] :=
      List.head?_eq_none_iff.mp (Option.map_eq_none_iff.mp hnone)
    simp only [perform]
    rw [bind_of_ok hthread, bind_of_error (Exec.pop_of_nil h hitems)]
    exact ⟨_, _, rfl⟩
  | stepLoop => exact ⟨_, _, stepLoop_of_none h hip hnone⟩
  | stepLoopBy =>
    simp only [perform]
    rw [bind_of_ok hthread]
    cases hitems : m.dataStack.items with
    | nil =>
      rw [bind_of_error (Exec.pop_of_nil h hitems)]
      exact ⟨_, _, rfl⟩
    | cons n rest =>
      obtain ⟨hpop, hordered⟩ := Exec.pop_of_cons h hitems
      rw [jumps?, hitems] at hnone
      rw [bind_of_ok hpop]
      exact ⟨_, _, stepLoop_of_none hordered hip hnone⟩
  | nest | address | constant | literal | enterLoop | print | exit => cases hr

/-- A jump that has been taken has added the offset to the pointer. The offset is read when the
action has done its work on the stacks, which are in memory too. -/
theorem ip_of_taken (h : m.Ordered) (hip : m.regs.ip ≠ 0) (htaken : r.jumps? m = some true)
    (hok : r.perform m = .ok () m') :
    ∃ offset, m'.memory.cells[m.regs.ip.toNat]? = some offset ∧
      m'.regs.ip = m.regs.ip + offset := by
  obtain ⟨m₁, hsame, heq⟩ := perform_of_jumps? h hip htaken
  rw [← hsame]
  exact Exec.branch_ok (heq.symm.trans hok)

/-- An offset that is not wanted is passed over, be it in memory or not. -/
theorem perform_of_not_taken (h : m.Ordered) (hip : m.regs.ip ≠ 0)
    (hskip : r.jumps? m = some false) :
    ∃ m', r.perform m = .ok () m' ∧ m'.regs.ip = m.regs.ip + 1 := by
  obtain ⟨m₁, hsame, heq⟩ := perform_of_jumps? h hip hskip
  refine ⟨_, heq, ?_⟩
  exact congrArg (· + 1) hsame

/-! ### Where each action leads -/

/-- Where the pointer is behind an action of threaded code that has succeeded. -/
def Leads (m m' : Machine) (r : Runtime) : Prop :=
  match r with
  | nest => m'.regs.ip = m.regs.w + 1
  | address | constant | enterLoop => m'.regs.ip = m.regs.ip
  | literal | print => ∃ n, m.Advances n m'
  | exit => m.returnStack.items.head? = some m'.regs.ip
  | branch | zeroBranch | stepLoop | stepLoopBy =>
    (r.jumps? m = some true ∧ ∃ offset, m'.memory.cells[m.regs.ip.toNat]? = some offset ∧
        m'.regs.ip = m.regs.ip + offset) ∨
      (r.jumps? m = some false ∧ m'.regs.ip = m.regs.ip + 1)

/-- An action with an offset has decided on a jump, if it has succeeded. -/
theorem leads_of_hasOffset (h : m.Ordered) (hip : m.regs.ip ≠ 0) (hr : r.hasOffset = true)
    (hok : r.perform m = .ok () m') :
    (r.jumps? m = some true ∧ ∃ offset, m'.memory.cells[m.regs.ip.toNat]? = some offset ∧
        m'.regs.ip = m.regs.ip + offset) ∨
      (r.jumps? m = some false ∧ m'.regs.ip = m.regs.ip + 1) := by
  cases hjump : r.jumps? m with
  | none =>
    obtain ⟨e, m₁, herror⟩ := refused_of_jumps? h hip hr hjump
    rw [herror] at hok
    cases hok
  | some jump =>
    cases jump with
    | true => exact .inl ⟨rfl, ip_of_taken h hip hjump hok⟩
    | false =>
      obtain ⟨m₁, hskip, hnext⟩ := perform_of_not_taken h hip hjump
      rw [hskip] at hok
      cases hok
      exact .inr ⟨rfl, hnext⟩

/-- An item that was taken off the return stack was on top. -/
theorem head?_of_pop (h : m.Ordered) {c : Cell} (hpop : Exec.onReturn Stack.pop m = .ok c m') :
    m.returnStack.items.head? = some c := by
  cases hitems : m.returnStack.items with
  | nil =>
    rw [Exec.onReturn_of_error (h.returnStack.pop_of_nil hitems)] at hpop
    cases hpop
  | cons top rest =>
    rw [Exec.onReturn_of_ok (h.returnStack.pop_of_cons hitems)] at hpop
    cases hpop
    rfl

theorem leads_of_perform (h : m.WithinRegions) (hip : m.regs.ip ≠ 0)
    (hok : r.perform m = .ok () m') :
    r.Leads m m' := by
  have hordered := h.ordered
  cases r with
  | nest =>
    rw [perform, Exec.bind_reg] at hok
    obtain ⟨_, m₁, hpush, hset⟩ := exists_of_bind_ok hok
    have hkeeps :
        Keeps (fun m₁ => m₁.regs.w = m.regs.w) (Exec.onReturn (Stack.push m.regs.ip)) := by
      intro m₁ hw
      rw [Exec.onReturn_eq]
      cases Stack.push m.regs.ip m₁.returnStack <;> exact hw
    cases hset
    exact congrArg (· + 1) (hkeeps.of_ok hpush rfl)
  | address =>
    have hkeeps : Keeps (fun m' => m'.regs.ip = m.regs.ip) address.perform :=
      .bind (.reg _) fun _ => Exec.keeps_ip_push _
    exact hkeeps.of_ok hok rfl
  | constant =>
    have hkeeps : Keeps (fun m' => m'.regs.ip = m.regs.ip) constant.perform :=
      .bind (.reg _) fun _ => .bind (.observe _) fun _ => Exec.keeps_ip_push _
    exact hkeeps.of_ok hok rfl
  | literal =>
    obtain ⟨c, m₁, hoperand, hpush⟩ := exists_of_bind_ok hok
    obtain ⟨-, hcell, rfl⟩ := Exec.operand_ok hoperand
    refine ⟨1, h.advances hip (Memory.lt_size_of_some hcell) ?_⟩
    exact (Exec.keeps_ip_push c).of_ok hpush rfl
  | branch | zeroBranch | stepLoop | stepLoopBy => exact leads_of_hasOffset hordered hip rfl hok
  | enterLoop =>
    have hkeeps : Keeps (fun m' => m'.regs.ip = m.regs.ip) enterLoop.perform :=
      .bind (.observe _) fun _ => .bind (Exec.keeps_ip_onData _) fun _ =>
        .bind (Exec.keeps_ip_onData _) fun _ => .bind (Exec.keeps_ip_onData _) fun _ =>
        Exec.keeps_ip_onReturn _
    exact hkeeps.of_ok hok rfl
  | print =>
    obtain ⟨n, m₁, hoperand, -⟩ := exists_of_bind_ok hok
    obtain ⟨-, hcell, -⟩ := Exec.operand_ok hoperand
    by_cases hle : m.regs.ip.toNat + 1 + packedLength n.toNat ≤ m.memory.size
    · have hadvances := h.advances_print hip hcell hle
      rw [hok] at hadvances
      exact ⟨_, hadvances⟩
    · rw [print_of_lt h hip hcell (Nat.lt_of_not_le hle)] at hok
      cases hok
  | exit =>
    obtain ⟨c, m₁, hpop, hjump⟩ := exists_of_bind_ok hok
    cases hjump
    exact head?_of_pop hordered hpop

end Runtime

end CellForth
