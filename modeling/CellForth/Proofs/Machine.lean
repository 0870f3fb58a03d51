import CellForth.Boot
import CellForth.Proofs.Stack

/-!
# Machines within their regions

`Machine.WithinRegions` collects the bounds that hold between the registers of a machine at all
times: the dictionary ends below the data stack, the data stack below the return stack, the
return stack where memory ends, each pointer lies in its own region, the radix is one that can
be read and written, and no opcode is an address. `Machine.Ordered` is the part of this that
speaks of the regions alone. `Machine.regions` is the part of the state that never changes.

Under these bounds the operations of the machine are simple functions of it. Stack operations
are replacements at the top of a stack, `Machine.replaceData` and `Machine.replaceReturn`;
everything that is compiled is a row of cells added with `Machine.append`, where a record is
such a row too (`Record.cells`). The equations below say when each operation is refused, and
which of these functions it is otherwise.
-/

namespace CellForth

/-! ### The bounds -/

/-- The boundaries of a machine's regions, and the size of its memory. -/
structure Regions where
  /-- The end of the dictionary and the base of the data stack. -/
  dataBase : Cell
  /-- The end of the data stack. -/
  dataLimit : Cell
  /-- The base of the return stack. -/
  returnBase : Cell
  /-- The end of the return stack. -/
  returnLimit : Cell
  /-- The number of cells of memory. -/
  size : Nat
  deriving DecidableEq

namespace Machine

/-- The boundaries of the machine's regions. -/
def regions (m : Machine) : Regions where
  dataBase := m.regs.dataBase
  dataLimit := m.regs.dataLimit
  returnBase := m.regs.returnBase
  returnLimit := m.regs.returnLimit
  size := m.memory.size

/-- The bounds between the registers of a machine: from low to high, the reserved cells, the
dictionary, the data stack and the return stack follow each other without overlap and fill the
memory; pointers stay in their regions, the radix between `2` and `36`, and opcodes below the
dictionary. -/
structure WithinRegions (m : Machine) : Prop where
  /-- The dictionary starts behind the reserved cells. -/
  start_le_here : dictionaryStart ≤ m.regs.here.toNat
  /-- The dictionary ends below the data stack. -/
  here_le_dataBase : m.regs.here.toNat ≤ m.regs.dataBase.toNat
  /-- The data stack is not below its base. -/
  dataBase_le_sp : m.regs.dataBase.toNat ≤ m.regs.sp.toNat
  /-- The data stack is not above its end. -/
  sp_le_dataLimit : m.regs.sp.toNat ≤ m.regs.dataLimit.toNat
  /-- The return stack starts where the data stack ends. -/
  dataLimit_eq : m.regs.dataLimit = m.regs.returnBase
  /-- The return stack is not below its base. -/
  returnBase_le_rp : m.regs.returnBase.toNat ≤ m.regs.rp.toNat
  /-- The return stack is not above its end. -/
  rp_le_returnLimit : m.regs.rp.toNat ≤ m.regs.returnLimit.toNat
  /-- The return stack ends where memory does. -/
  returnLimit_eq : m.regs.returnLimit.toNat = m.memory.size
  /-- A cell can address all of memory and the offset behind it. -/
  size_le : m.memory.size ≤ maxCoreSize
  /-- The radix is at least two. -/
  two_le_base : 2 ≤ m.regs.base.toNat
  /-- The radix is at most thirty-six. -/
  base_le : m.regs.base.toNat ≤ 36
  /-- There are at most as many actions as reserved cells. -/
  table_le : m.table.size ≤ dictionaryStart

/-- The bounds between the regions alone: the dictionary, the data stack and the return stack follow
each other and fill the memory behind the reserved cells, and every pointer is in its region. -/
structure Ordered (m : Machine) : Prop where
  /-- The dictionary starts behind the reserved cells. -/
  start_le_here : dictionaryStart ≤ m.regs.here.toNat
  /-- The dictionary ends below the data stack. -/
  here_le_dataBase : m.regs.here.toNat ≤ m.regs.dataBase.toNat
  /-- The data stack is not below its base. -/
  dataBase_le_sp : m.regs.dataBase.toNat ≤ m.regs.sp.toNat
  /-- The data stack is not above its end. -/
  sp_le_dataLimit : m.regs.sp.toNat ≤ m.regs.dataLimit.toNat
  /-- The return stack starts where the data stack ends. -/
  dataLimit_eq : m.regs.dataLimit = m.regs.returnBase
  /-- The return stack is not below its base. -/
  returnBase_le_rp : m.regs.returnBase.toNat ≤ m.regs.rp.toNat
  /-- The return stack is not above its end. -/
  rp_le_returnLimit : m.regs.rp.toNat ≤ m.regs.returnLimit.toNat
  /-- The return stack ends where memory does. -/
  returnLimit_eq : m.regs.returnLimit.toNat = m.memory.size

theorem WithinRegions.ordered {m : Machine} (h : m.WithinRegions) : m.Ordered where
  start_le_here := h.start_le_here
  here_le_dataBase := h.here_le_dataBase
  dataBase_le_sp := h.dataBase_le_sp
  sp_le_dataLimit := h.sp_le_dataLimit
  dataLimit_eq := h.dataLimit_eq
  returnBase_le_rp := h.returnBase_le_rp
  rp_le_returnLimit := h.rp_le_returnLimit
  returnLimit_eq := h.returnLimit_eq

/-- The data stack is in its bounds. -/
theorem Ordered.dataStack {m : Machine} (h : m.Ordered) : m.dataStack.WithinBounds where
  base_le := h.dataBase_le_sp
  pointer_le := h.sp_le_dataLimit
  limit_le := by
    have h₁ := h.returnBase_le_rp
    have h₂ := h.rp_le_returnLimit
    have h₃ := h.returnLimit_eq
    have h₄ := h.dataLimit_eq
    show m.regs.dataLimit.toNat ≤ m.memory.size
    rw [h₄]
    omega

theorem WithinRegions.dataStack {m : Machine} (h : m.WithinRegions) : m.dataStack.WithinBounds :=
  h.ordered.dataStack

/-- The return stack is in its bounds. -/
theorem Ordered.returnStack {m : Machine} (h : m.Ordered) : m.returnStack.WithinBounds where
  base_le := h.returnBase_le_rp
  pointer_le := h.rp_le_returnLimit
  limit_le := Nat.le_of_eq h.returnLimit_eq

theorem WithinRegions.returnStack {m : Machine} (h : m.WithinRegions) :
    m.returnStack.WithinBounds :=
  h.ordered.returnStack

/-- The free cells of the dictionary are those up to the data stack. -/
theorem Ordered.here_add_unused {m : Machine} (h : m.Ordered) :
    m.regs.here.toNat + m.unused = m.regs.dataBase.toNat := by
  have := h.here_le_dataBase
  unfold unused
  omega

theorem WithinRegions.here_add_unused {m : Machine} (h : m.WithinRegions) :
    m.regs.here.toNat + m.unused = m.regs.dataBase.toNat :=
  h.ordered.here_add_unused

theorem Ordered.dataBase_le_size {m : Machine} (h : m.Ordered) :
    m.regs.dataBase.toNat ≤ m.memory.size := by
  have h₁ := h.dataStack.base_le
  have h₂ := h.dataStack.pointer_le
  have h₃ := h.dataStack.limit_le
  simp only [Machine.dataStack] at h₁ h₂ h₃
  omega

theorem WithinRegions.dataBase_le_size {m : Machine} (h : m.WithinRegions) :
    m.regs.dataBase.toNat ≤ m.memory.size :=
  h.ordered.dataBase_le_size

/-! ### Replacing the top of a stack -/

/-- The machine after the top `n` items of its data stack have made way for `vs`. -/
def replaceData (n : Nat) (vs : List Cell) (m : Machine) : Machine :=
  m.withDataStack (m.dataStack.replaced n vs)

/-- The machine after the top `n` items of its return stack have made way for `vs`. -/
def replaceReturn (n : Nat) (vs : List Cell) (m : Machine) : Machine :=
  m.withReturnStack (m.returnStack.replaced n vs)

@[simp] theorem dataStack_replaceData (n : Nat) (vs : List Cell) (m : Machine) :
    (m.replaceData n vs).dataStack = m.dataStack.replaced n vs := rfl

@[simp] theorem returnStack_replaceReturn (n : Nat) (vs : List Cell) (m : Machine) :
    (m.replaceReturn n vs).returnStack = m.returnStack.replaced n vs := rfl

@[simp] theorem regions_replaceData (n : Nat) (vs : List Cell) (m : Machine) :
    (m.replaceData n vs).regions = m.regions := by
  simp [regions, replaceData, withDataStack, Stack.replaced, Machine.dataStack]

@[simp] theorem regions_replaceReturn (n : Nat) (vs : List Cell) (m : Machine) :
    (m.replaceReturn n vs).regions = m.regions := by
  simp [regions, replaceReturn, withReturnStack, Stack.replaced, Machine.returnStack]

/-- A replacement on the data stack leaves the cells outside of that stack alone. -/
theorem Ordered.cells_replaceData {m : Machine} (h : m.Ordered) {n : Nat} {vs : List Cell}
    (hfits : m.dataStack.Fits n vs) {i : Nat}
    (hi : i < m.regs.dataBase.toNat ∨ m.regs.dataLimit.toNat ≤ i) :
    (m.replaceData n vs).memory.cells[i]? = m.memory.cells[i]? := by
  have hsize := h.dataStack.size_eq
  have hroom := h.dataStack.room_eq
  obtain ⟨hn, hvs⟩ := hfits
  simp only [Machine.dataStack] at hsize hroom hn hvs
  refine Stack.cells_replaced ?_
  simp only [Machine.dataStack]
  omega

theorem WithinRegions.cells_replaceData {m : Machine} (h : m.WithinRegions) {n : Nat}
    {vs : List Cell} (hfits : m.dataStack.Fits n vs) {i : Nat}
    (hi : i < m.regs.dataBase.toNat ∨ m.regs.dataLimit.toNat ≤ i) :
    (m.replaceData n vs).memory.cells[i]? = m.memory.cells[i]? :=
  h.ordered.cells_replaceData hfits hi

/-- A replacement on the return stack leaves the cells below that stack alone. -/
theorem Ordered.cells_replaceReturn {m : Machine} (h : m.Ordered) {n : Nat} {vs : List Cell}
    (hfits : m.returnStack.Fits n vs) {i : Nat} (hi : i < m.regs.returnBase.toNat) :
    (m.replaceReturn n vs).memory.cells[i]? = m.memory.cells[i]? := by
  have hsize := h.returnStack.size_eq
  obtain ⟨hn, -⟩ := hfits
  simp only [Machine.returnStack] at hsize hn
  refine Stack.cells_replaced ?_
  simp only [Machine.returnStack]
  omega

theorem WithinRegions.cells_replaceReturn {m : Machine} (h : m.WithinRegions) {n : Nat}
    {vs : List Cell} (hfits : m.returnStack.Fits n vs) {i : Nat}
    (hi : i < m.regs.returnBase.toNat) :
    (m.replaceReturn n vs).memory.cells[i]? = m.memory.cells[i]? :=
  h.ordered.cells_replaceReturn hfits hi

theorem Ordered.replaceData {m : Machine} (h : m.Ordered) {n : Nat} {vs : List Cell}
    (hfits : m.dataStack.Fits n vs) : (m.replaceData n vs).Ordered := by
  have hbounds := h.dataStack.replaced hfits
  have hsize : (m.replaceData n vs).memory.size = m.memory.size := Memory.size_overlay ..
  exact
    { h with
      dataBase_le_sp := hbounds.base_le
      sp_le_dataLimit := hbounds.pointer_le
      returnLimit_eq := h.returnLimit_eq.trans hsize.symm }

theorem WithinRegions.replaceData {m : Machine} (h : m.WithinRegions) {n : Nat} {vs : List Cell}
    (hfits : m.dataStack.Fits n vs) : (m.replaceData n vs).WithinRegions := by
  have hordered := h.ordered.replaceData hfits
  have hsize : (m.replaceData n vs).memory.size = m.memory.size := Memory.size_overlay ..
  exact { hordered, h with size_le := Nat.le_trans (Nat.le_of_eq hsize) h.size_le }

theorem Ordered.replaceReturn {m : Machine} (h : m.Ordered) {n : Nat} {vs : List Cell}
    (hfits : m.returnStack.Fits n vs) : (m.replaceReturn n vs).Ordered := by
  have hbounds := h.returnStack.replaced hfits
  have hsize : (m.replaceReturn n vs).memory.size = m.memory.size := Memory.size_overlay ..
  exact
    { h with
      returnBase_le_rp := hbounds.base_le
      rp_le_returnLimit := hbounds.pointer_le
      returnLimit_eq := h.returnLimit_eq.trans hsize.symm }

theorem WithinRegions.replaceReturn {m : Machine} (h : m.WithinRegions) {n : Nat} {vs : List Cell}
    (hfits : m.returnStack.Fits n vs) : (m.replaceReturn n vs).WithinRegions := by
  have hordered := h.ordered.replaceReturn hfits
  have hsize : (m.replaceReturn n vs).memory.size = m.memory.size := Memory.size_overlay ..
  exact { hordered, h with size_le := Nat.le_trans (Nat.le_of_eq hsize) h.size_le }

/-- Writing below the data stack leaves its items alone. -/
theorem items_overlay_of_le {m : Machine} {pos : Nat} {cs : List Cell}
    (hle : pos + cs.length ≤ m.regs.dataBase.toNat) :
    ({ m with memory := m.memory.overlay pos cs } : Machine).dataStack.items = m.dataStack.items :=
  Stack.items_congr rfl rfl fun _ hi _ => Memory.cells_overlay_of_le (Nat.le_trans hle hi)

/-! ### Adding cells to the dictionary -/

/-- The machine after a row of cells has been added to its dictionary. -/
def append (cs : List Cell) (m : Machine) : Machine :=
  { m with
    memory := m.memory.overlay m.regs.here.toNat cs
    regs := { m.regs with here := m.regs.here + UInt16.ofNat cs.length } }

@[simp] theorem regions_append (cs : List Cell) (m : Machine) :
    (m.append cs).regions = m.regions := by
  simp [regions, append]

section Append

variable {m : Machine} (h : m.Ordered) {cs : List Cell} (hroom : cs.length ≤ m.unused)
include h hroom

theorem Ordered.toNat_here_append :
    (m.append cs).regs.here.toNat = m.regs.here.toNat + cs.length := by
  have hunused := h.here_add_unused
  have hlt := m.regs.dataBase.toNat_lt
  exact Cell.toNat_add_ofNat (by omega)

theorem Ordered.append : (m.append cs).Ordered := by
  have hhere := h.toNat_here_append hroom
  have hunused := h.here_add_unused
  have hstart := h.start_le_here
  have hsize : (m.append cs).memory.size = m.memory.size := Memory.size_overlay ..
  exact
    { h with
      start_le_here := by omega
      here_le_dataBase := by
        show _ ≤ m.regs.dataBase.toNat
        omega
      returnLimit_eq := by rw [hsize]; exact h.returnLimit_eq }

theorem Ordered.unused_append : (m.append cs).unused = m.unused - cs.length := by
  have hhere := h.toNat_here_append hroom
  have hdata : (m.append cs).regs.dataBase = m.regs.dataBase := rfl
  unfold unused
  rw [hdata]
  omega

/-- Rows that are added one after the other are one row. -/
theorem Ordered.append_append {ds : List Cell} (hall : (cs ++ ds).length ≤ m.unused) :
    (m.append cs).append ds = m.append (cs ++ ds) := by
  have hhere := h.toNat_here_append hroom
  have hlen : (cs ++ ds).length = cs.length + ds.length := List.length_append
  have hds : ds.length ≤ (m.append cs).unused := by
    rw [h.unused_append hroom]
    omega
  have hreg : ((m.append cs).append ds).regs.here = (m.append (cs ++ ds)).regs.here := by
    refine Cell.eq_of_toNat_eq ?_
    rw [(h.append hroom).toNat_here_append hds, hhere, h.toNat_here_append hall, hlen]
    omega
  have hmem : ((m.append cs).append ds).memory = (m.append (cs ++ ds)).memory := by
    show (m.append cs).memory.overlay (m.append cs).regs.here.toNat ds = _
    rw [hhere]
    exact (Memory.overlay_append ..).symm
  simp only [Machine.append] at hreg hmem ⊢
  rw [hreg, hmem]

end Append

section Append

variable {m : Machine} (h : m.WithinRegions) {cs : List Cell} (hroom : cs.length ≤ m.unused)
include h hroom

theorem WithinRegions.toNat_here_append :
    (m.append cs).regs.here.toNat = m.regs.here.toNat + cs.length :=
  h.ordered.toNat_here_append hroom

theorem WithinRegions.append : (m.append cs).WithinRegions := by
  have hordered := h.ordered.append hroom
  have hsize : (m.append cs).memory.size = m.memory.size := Memory.size_overlay ..
  exact
    { hordered, h with
      size_le := by rw [hsize]; exact h.size_le }

theorem WithinRegions.unused_append : (m.append cs).unused = m.unused - cs.length :=
  h.ordered.unused_append hroom

end Append

end Machine

/-! ### Operations of a machine within its regions -/

namespace Exec

variable {α β : Type} {m : Machine}

theorem bind_reg (f : Registers → α) (k : α → Exec β) :
    (reg f >>= k) m = k (f m.regs) m := rfl

theorem bind_setRegs (f : Registers → Registers) (k : Unit → Exec β) :
    (setRegs f >>= k) m = k () { m with regs := f m.regs } := rfl

theorem onData_of_ok {op : StackM α} {a : α} {s : Stack} (hop : op m.dataStack = .ok a s) :
    onData op m = .ok a (m.withDataStack s) := by
  rw [onData_eq, hop]

theorem onData_of_error {op : StackM α} {e : Fault} {s : Stack}
    (hop : op m.dataStack = .error e s) : onData op m = .error e (m.withDataStack s) := by
  rw [onData_eq, hop]

theorem onReturn_of_ok {op : StackM α} {a : α} {s : Stack} (hop : op m.returnStack = .ok a s) :
    onReturn op m = .ok a (m.withReturnStack s) := by
  rw [onReturn_eq, hop]

theorem onReturn_of_error {op : StackM α} {e : Fault} {s : Stack}
    (hop : op m.returnStack = .error e s) : onReturn op m = .error e (m.withReturnStack s) := by
  rw [onReturn_eq, hop]

theorem onMemory_of_ok {op : EStateM Fault Memory α} {a : α} {memory : Memory}
    (hop : op m.memory = .ok a memory) : onMemory op m = .ok a { m with memory := memory } := by
  rw [onMemory_eq, hop]

theorem put_of_lt {pos : Nat} (c : Cell) (h : pos < m.memory.size) :
    onMemory (Memory.put pos c) m = .ok () { m with memory := m.memory.overlay pos [c] } :=
  onMemory_of_ok (Memory.put_eq_overlay c h)

theorem fetch_of_some {pos : Nat} {c : Cell} (h : m.memory.cells[pos]? = some c) :
    fetch pos m = .ok c m :=
  observe_of_ok (Memory.get_of_some h)

/-- A cell is added while there is room. -/
theorem compileCell_eq (h : m.Ordered) (c : Cell) :
    compileCell c m =
      if 0 < m.unused then .ok () (m.append [c]) else .error .dictionaryOverflow m := by
  have hunused := h.here_add_unused
  have hsize := h.dataBase_le_size
  unfold compileCell
  split
  · rename_i hroom
    have hput : onMemory (Memory.put m.regs.here.toNat c) m =
        .ok () { m with memory := m.memory.overlay m.regs.here.toNat [c] } :=
      put_of_lt c (by omega)
    refine Eq.trans (bind_of_ok (observe_of_ok (demand_of_pos hroom))) ?_
    rw [bind_reg, bind_of_ok hput]
    rfl
  · rename_i hroom
    exact bind_of_error (observe_of_error (demand_of_neg hroom))

theorem compileCell_of_room (h : m.Ordered) {c : Cell} (hroom : 0 < m.unused) :
    compileCell c m = .ok () (m.append [c]) := by
  rw [compileCell_eq h, if_pos hroom]

/-- Packing bytes adds their cells, if there is room for them. -/
theorem packBytes_of_room (h : m.Ordered) {bs : List UInt8}
    (hroom : packedLength bs.length ≤ m.unused) :
    packBytes bs m = .ok () (m.append (Memory.packCells bs)) := by
  have hunused := h.here_add_unused
  have hsize := h.dataBase_le_size
  have hput : onMemory (Memory.putBytes m.regs.here.toNat bs) m =
      .ok () { m with memory := m.memory.overlay m.regs.here.toNat (Memory.packCells bs) } :=
    onMemory_of_ok (Memory.putBytes_eq_overlay (by omega))
  unfold packBytes
  rw [bind_reg, bind_of_ok hput]
  simp [setRegs, Machine.append]

/-- Behind a row that was added, one more cell makes the row longer. -/
theorem compileCell_append (h : m.Ordered) {cs : List Cell} {c : Cell}
    (hroom : (cs ++ [c]).length ≤ m.unused) :
    compileCell c (m.append cs) = .ok () (m.append (cs ++ [c])) := by
  have hlen : (cs ++ [c]).length = cs.length + 1 := List.length_append
  have hcs : cs.length ≤ m.unused := by omega
  have hfree := h.unused_append hcs
  rw [compileCell_of_room (h.append hcs) (by omega), h.append_append hcs hroom]

/-- Behind a row that was added, packed bytes make the row longer. -/
theorem packBytes_append (h : m.Ordered) {cs : List Cell} {bs : List UInt8}
    (hroom : (cs ++ Memory.packCells bs).length ≤ m.unused) :
    packBytes bs (m.append cs) = .ok () (m.append (cs ++ Memory.packCells bs)) := by
  have hlen : (cs ++ Memory.packCells bs).length = cs.length + packedLength bs.length := by
    rw [List.length_append, Memory.length_packCells]
  have hcs : cs.length ≤ m.unused := by omega
  have hfree := h.unused_append hcs
  rw [packBytes_of_room (h.append hcs) (by omega), h.append_append hcs hroom]

/-- A string is its length and its packed bytes, added as a whole or not at all. -/
theorem compileString_eq (h : m.Ordered) (bs : List UInt8) :
    compileString bs m =
      if bs.length ≤ 65535 ∧ 1 + packedLength bs.length ≤ m.unused then
        .ok () (m.append (Memory.stringCells bs))
      else .error .dictionaryOverflow m := by
  unfold compileString
  split
  · rename_i hroom
    refine Eq.trans (bind_of_ok (observe_of_ok (demand_of_pos hroom))) ?_
    rw [bind_of_ok (compileCell_of_room h (by omega)), packBytes_append h (by simp; omega)]
    rfl
  · rename_i hroom
    exact bind_of_error (observe_of_error (demand_of_neg hroom))

/-- The free end moves to any place of the dictionary, and to no other. -/
theorem allot_eq (n : Int) (m : Machine) :
    allot n m =
      if (m.regs.here.toNat : Int) + n ≤ m.regs.dataBase.toNat then
        if (dictionaryStart : Int) ≤ m.regs.here.toNat + n then
          .ok () { m with regs := { m.regs with
            here := UInt16.ofNat ((m.regs.here.toNat : Int) + n).toNat } }
        else .error .invalidMemoryAddress m
      else .error .dictionaryOverflow m := by
  unfold allot
  rw [bind_reg]
  split
  · rename_i hle
    refine Eq.trans (bind_of_ok (observe_of_ok (demand_of_pos hle))) ?_
    split
    · rename_i hstart
      exact bind_of_ok (observe_of_ok (demand_of_pos hstart))
    · rename_i hstart
      exact bind_of_error (observe_of_error (demand_of_neg hstart))
  · rename_i hle
    exact bind_of_error (observe_of_error (demand_of_neg hle))

/-- An action takes the next place of the table while opcodes are below the dictionary. -/
theorem addRuntime_eq (name : String) (action : Action) (m : Machine) :
    addRuntime name action m =
      if m.table.size < dictionaryStart then
        .ok (UInt16.ofNat m.table.size)
          { m with
            table := m.table.push action
            journal := m.journal.record (.opcode m.table.size name) }
      else .error .dictionaryOverflow m := by
  unfold addRuntime
  refine Eq.trans (bind_of_ok (observe_of_ok rfl)) ?_
  split
  · rename_i hlt
    exact bind_of_ok (observe_of_ok (demand_of_pos hlt))
  · rename_i hlt
    exact bind_of_error (observe_of_error (demand_of_neg hlt))

/-- Noting a redefinition changes the journal at most. -/
theorem noteRedefinition_eq (name : List UInt8) (m : Machine) :
    ∃ journal, noteRedefinition name m = .ok () { m with journal := journal } := by
  unfold noteRedefinition
  split
  · split
    · exact ⟨_, rfl⟩
    · exact ⟨m.journal, rfl⟩
  · exact ⟨m.journal, rfl⟩

end Exec

/-- The cells of a record, from its link to its code field. -/
def Record.cells (link header : Cell) (name : List UInt8) (code : Cell) : List Cell :=
  link :: header :: (Memory.packCells name ++ [code])

@[simp] theorem Record.length_cells (link header : Cell) (name : List UInt8) (code : Cell) :
    (Record.cells link header name code).length = Record.cellsFor name.length := by
  simp only [Record.cells, List.length_cons, List.length_append, Memory.length_packCells,
    List.length_nil, Record.cellsFor]
  omega

/-- The machine after a record has been added to its dictionary as the newest one, with what its
journal holds then. -/
def Machine.addRecord (name : List UInt8) (code flags : Cell) (journal : Journal) (m : Machine) :
    Machine :=
  let m' := m.append
    (Record.cells m.regs.latest (Record.makeHeader flags name.length) name code)
  { m' with regs := { m'.regs with latest := m.regs.here }, journal := journal }

/-- A record is added as a whole if its name is acceptable and there is room for it. -/
theorem Exec.createRecord_of_room {m : Machine} (h : m.Ordered) {name : List UInt8}
    (code flags : Cell) (hne : name ≠ []) (hlen : name.length ≤ Record.maxNameLength)
    (hroom : Record.cellsFor name.length ≤ m.unused) :
    ∃ journal, createRecord name code flags m =
      .ok ⟨m.regs.here.toNat, m.regs.latest, Record.makeHeader flags name.length⟩
        (m.addRecord name code flags journal) := by
  obtain ⟨journal, hnote⟩ := noteRedefinition_eq name m
  refine ⟨journal, ?_⟩
  have hlength := Record.length_cells m.regs.latest (Record.makeHeader flags name.length) name code
  have h₀ : ({ m with journal := journal } : Machine).Ordered := { h with }
  have hroom₀ : Record.cellsFor name.length ≤ ({ m with journal := journal } : Machine).unused :=
    hroom
  rw [← hlength] at hroom₀
  simp only [Record.cells, List.length_cons, List.length_append, List.length_nil] at hroom₀
  unfold createRecord
  refine Eq.trans (bind_of_ok (observe_of_ok (demand_of_pos hne))) ?_
  refine Eq.trans (bind_of_ok (observe_of_ok (demand_of_pos hlen))) ?_
  refine Eq.trans (bind_of_ok (observe_of_ok (demand_of_pos hroom))) ?_
  rw [bind_of_ok hnote, bind_reg, bind_reg]
  -- Each of the four pieces finds the room that the check in front of them has made sure of.
  rw [bind_of_ok (compileCell_of_room h₀ (by omega)),
    bind_of_ok (compileCell_append h₀ (by simp; omega)),
    bind_of_ok (packBytes_append h₀ (by simp at hroom₀ ⊢; omega)),
    bind_of_ok (compileCell_append h₀ (by simp at hroom₀ ⊢; omega))]
  rfl

/-! ### Records that are refused -/

namespace Exec

variable {m : Machine} {name : List UInt8}

theorem createRecord_of_nil (code flags : Cell) :
    createRecord [] code flags m = .error .unexpectedEnd m :=
  bind_of_error (observe_of_error (demand_of_neg fun h => h rfl))

theorem createRecord_of_long (code flags : Cell) (hlength : Record.maxNameLength < name.length) :
    createRecord name code flags m = .error .nameTooLong m := by
  have hne : name ≠ [] := List.ne_nil_of_length_pos (Nat.zero_lt_of_lt hlength)
  unfold createRecord
  refine Eq.trans (bind_of_ok (observe_of_ok (demand_of_pos hne))) ?_
  exact bind_of_error (observe_of_error (demand_of_neg (Nat.not_le.mpr hlength)))

theorem createRecord_of_full (code flags : Cell) (hne : name ≠ [])
    (hlength : name.length ≤ Record.maxNameLength)
    (hroom : m.unused < Record.cellsFor name.length) :
    createRecord name code flags m = .error .dictionaryOverflow m := by
  unfold createRecord
  refine Eq.trans (bind_of_ok (observe_of_ok (demand_of_pos hne))) ?_
  refine Eq.trans (bind_of_ok (observe_of_ok (demand_of_pos hlength))) ?_
  exact bind_of_error (observe_of_error (demand_of_neg (Nat.not_le.mpr hroom)))

/-- A record is not begun if its name is not acceptable or if there is no room for it. -/
theorem createRecord_refused (code flags : Cell)
    (hbad : ¬ (name ≠ [] ∧ name.length ≤ Record.maxNameLength ∧
      Record.cellsFor name.length ≤ m.unused)) :
    ∃ e, createRecord name code flags m = .error e m := by
  by_cases hne : name = []
  · subst hne
    exact ⟨_, createRecord_of_nil code flags⟩
  · rcases Nat.lt_or_ge Record.maxNameLength name.length with hlong | hlength
    · exact ⟨_, createRecord_of_long code flags hlong⟩
    · have hroom : m.unused < Record.cellsFor name.length :=
        Nat.lt_of_not_ge fun hroom => hbad ⟨hne, hlength, hroom⟩
      exact ⟨_, createRecord_of_full code flags hne hlength hroom⟩

/-- A record that was made had an acceptable name and room. -/
theorem createRecord_ok (h : m.Ordered) {code flags : Cell} {r : Record} {m' : Machine}
    (hok : createRecord name code flags m = .ok r m') :
    name.length ≤ Record.maxNameLength ∧ Record.cellsFor name.length ≤ m.unused ∧
      r.address = m.regs.here.toNat ∧ ∃ journal, m' = m.addRecord name code flags journal := by
  by_cases hgood : name ≠ [] ∧ name.length ≤ Record.maxNameLength ∧
      Record.cellsFor name.length ≤ m.unused
  · obtain ⟨hne, hlength, hroom⟩ := hgood
    obtain ⟨journal, hcreate⟩ := createRecord_of_room h code flags hne hlength hroom
    rw [hok] at hcreate
    cases hcreate
    exact ⟨hlength, hroom, rfl, journal, rfl⟩
  · obtain ⟨e, hrefused⟩ := createRecord_refused code flags hgood
    rw [hok] at hrefused
    cases hrefused

end Exec

end CellForth
