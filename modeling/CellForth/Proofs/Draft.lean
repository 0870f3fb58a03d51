import CellForth.Proofs.Tokens

/-!
# Drafts of definitions

Compiling a definition scatters its state over the machine: code at the free end of the
dictionary, open control structures on the data stack, below them the entry of the definition
and then whatever the program had there. A `Draft` is this state on its own. Its code is a list,
its open structures are a list of tags with places in that code, and both are counted from the
start of the code, so that a draft does not know where in memory it will stand.

`Machine.Drafting m₀ name d m` says that `m` is what becomes of `m₀` while the definition of `name`
is open and stands at `d`. Under this relation each compiling operation of the machine is an
operation of the draft, refusals for want of room included; the room is a pair of `Draft.Limits`.
The main result is `Machine.drafts_build`. An offset is the same in both, since it is the
difference of two addresses.

Nothing is said here about which sequences of words are accepted; that is a question about drafts
alone.
-/

namespace CellForth

/-- The state of an open definition. -/
structure Draft where
  /-- The code so far. -/
  code : List Cell
  /-- The open structures, innermost first: what each one is, and a place in the code. -/
  pending : List (ControlTag × Nat)

/-- The room that an open definition has. -/
structure Draft.Limits where
  /-- The cells for code. -/
  cells : Nat
  /-- The stack items for open structures, of which each takes two. -/
  items : Nat

/-- A structure with the given tag can be open at a place. It lies in the room for code or at the
end of it, and an offset that awaits its target is not at the end. -/
structure Draft.Limits.Allows (limits : Draft.Limits) (tag : ControlTag) (i : Nat) : Prop where
  /-- Definitions are not structures. -/
  ne : tag ≠ .definition
  /-- The place is not behind the room for code. -/
  le : i ≤ limits.cells
  /-- The cell of an offset is in the room for code. -/
  lt : tag = .origin → i < limits.cells

namespace Draft

/-- The draft of a definition that has just been opened. -/
def empty : Draft := ⟨[], []⟩

/-- Adds a cell of code. -/
def emit (limits : Limits) (c : Cell) : EStateM Fault Draft Unit := fun d =>
  if d.code.length < limits.cells then .ok () { d with code := d.code ++ [c] }
  else .error .dictionaryOverflow d

/-- The place of the next cell of code. -/
def place : EStateM Fault Draft Nat := fun d =>
  .ok d.code.length d

/-- Opens a structure. -/
def openAt (limits : Limits) (i : Nat) (tag : ControlTag) : EStateM Fault Draft Unit := fun d =>
  if 2 * d.pending.length + 2 ≤ limits.items then .ok () { d with pending := (tag, i) :: d.pending }
  else .error .stackOverflow d

/-- Closes the innermost structure, which must have the given tag, and returns its place. -/
def close (tag : ControlTag) : EStateM Fault Draft Nat := fun d =>
  match d.pending with
  | [] => .error .controlMismatch d
  | (found, i) :: rest =>
    if found = tag then .ok i { d with pending := rest } else .error .controlMismatch d

/-- The offset that leads from one place to another. -/
def offset (origin target : Nat) : Cell :=
  UInt16.ofNat target - UInt16.ofNat origin

/-- Adds an offset that awaits its target. -/
def markForward (limits : Limits) : EStateM Fault Draft Unit := do
  let origin ← place
  emit limits 0
  openAt limits origin .origin

/-- Makes the offset at `origin` lead to the end of the code. -/
def resolveForward (origin : Nat) : EStateM Fault Draft Unit := fun d =>
  .ok () { d with code := d.code.set origin (offset origin d.code.length) }

/-- Adds an offset that leads back to `destination`. -/
def emitBackward (limits : Limits) (destination : Nat) : EStateM Fault Draft Unit := do
  let origin ← place
  emit limits (offset origin destination)

/-- Opens a structure at the end of the code. -/
def markHere (limits : Limits) (tag : ControlTag) : EStateM Fault Draft Unit := do
  let i ← place
  openAt limits i tag

/-- The items that stand for the open structures on the stack, top first, when the code starts at
`start`. -/
def entries (start : Nat) (d : Draft) : List Cell :=
  d.pending.flatMap fun entry => [entry.1.cell, UInt16.ofNat (start + entry.2)]

theorem length_entries (start : Nat) (d : Draft) :
    (d.entries start).length = 2 * d.pending.length := by
  unfold entries
  induction d.pending with
  | nil => rfl
  | cons entry rest ih =>
    rw [List.flatMap_cons, List.length_append, ih, List.length_cons]
    simp only [List.length_cons, List.length_nil]
    omega

/-- Offsets do not depend on where the code starts. -/
theorem offset_eq (start origin target : Nat) :
    UInt16.ofNat (start + target) - UInt16.ofNat (start + origin) = offset origin target := by
  rw [offset, UInt16.ofNat_add, UInt16.ofNat_add]
  grind

end Draft

open Draft in
/-- What a control word does to a draft. -/
def ControlWord.draft (limits : Draft.Limits) : ControlWord → EStateM Fault Draft Unit
  | openIf => do
    emit limits Runtime.zeroBranch.opcode
    markForward limits
  | turnElse => do
    let origin ← close .origin
    emit limits Runtime.branch.opcode
    markForward limits
    resolveForward origin
  | closeThen => do
    let origin ← close .origin
    resolveForward origin
  | openBegin => markHere limits .destination
  | closeUntil => do
    let destination ← close .destination
    emit limits Runtime.zeroBranch.opcode
    emitBackward limits destination
  | closeAgain => do
    let destination ← close .destination
    emit limits Runtime.branch.opcode
    emitBackward limits destination
  | turnWhile => do
    let destination ← close .destination
    emit limits Runtime.zeroBranch.opcode
    markForward limits
    openAt limits destination .destination
  | closeRepeat => do
    let destination ← close .destination
    emit limits Runtime.branch.opcode
    emitBackward limits destination
    let origin ← close .origin
    resolveForward origin
  | openDo => do
    emit limits Runtime.enterLoop.opcode
    markHere limits .countedLoop
  | closeLoop => do
    let destination ← close .countedLoop
    emit limits Runtime.stepLoop.opcode
    emitBackward limits destination
  | closePlusLoop => do
    let destination ← close .countedLoop
    emit limits Runtime.stepLoopBy.opcode
    emitBackward limits destination

/-! ### A machine with an open definition -/

namespace Machine

/-- Where the code of a definition starts if it is opened now. -/
def codeStart (m : Machine) (name : List UInt8) : Nat :=
  m.regs.here.toNat + Record.cellsFor name.length

/-- The room for a definition that is opened now, its record and its own entry taken off. -/
def limits (m : Machine) (name : List UInt8) : Draft.Limits where
  cells := m.unused - Record.cellsFor name.length
  items := m.dataStack.room - 2

/-- On top of what it was as `m₀`, the machine `m` has a definition of `name` with the given header
and code at the end of its dictionary, and the items `top` on its data stack. Apart from that, from
its journal and from the registers that compilation uses, nothing has changed. -/
structure WithDefinition (m₀ : Machine) (name : List UInt8) (header : Cell) (code top : List Cell)
    (m : Machine) : Prop where
  /-- The record has been added. -/
  grown : m₀.Grown m name header Runtime.nest.opcode
  /-- The dictionary ends behind the code. -/
  here : m.regs.here.toNat = m₀.codeStart name + code.length
  /-- The code stands behind the record. -/
  code : m.memory.Holds (m₀.codeStart name) code
  /-- The stack has been added to. -/
  items : m.dataStack.items = top ++ m₀.dataStack.items
  /-- The rest of the machine. -/
  rest : m =
    { m₀ with
      memory := m.memory
      journal := m.journal
      regs :=
        { m₀.regs with
          w := m.regs.w
          sp := m.regs.sp
          here := m.regs.here
          latest := m₀.regs.here
          mode := m.regs.mode
          defining := m.regs.defining } }

namespace WithDefinition

variable {m₀ m : Machine} {name : List UInt8} {header : Cell} {code top : List Cell}
  (h : m₀.WithDefinition name header code top m)
include h

theorem dataBase_eq : m.regs.dataBase = m₀.regs.dataBase := congrArg (·.regs.dataBase) h.rest

theorem dataLimit_eq : m.regs.dataLimit = m₀.regs.dataLimit := congrArg (·.regs.dataLimit) h.rest

/-- The room for code starts behind the record and ends at the data stack. -/
theorem codeStart_add_cells :
    m₀.codeStart name + (m₀.limits name).cells = m₀.regs.dataBase.toNat := by
  have hunused := h.grown.before.here_add_unused
  have hhere := h.here
  have hle := h.grown.after.here_le_dataBase
  rw [h.dataBase_eq] at hle
  simp only [codeStart, limits] at hhere ⊢
  omega

theorem length_code_le : code.length ≤ (m₀.limits name).cells := by
  have hcells := h.codeStart_add_cells
  have hhere := h.here
  have hle := h.grown.after.here_le_dataBase
  rw [h.dataBase_eq] at hle
  omega

theorem unused_eq : m.unused = (m₀.limits name).cells - code.length := by
  have hcells := h.codeStart_add_cells
  have hhere := h.here
  unfold unused
  rw [h.dataBase_eq]
  omega

/-- Places in the code are addresses below the stacks. -/
theorem toNat_place {i : Nat} (hi : i ≤ (m₀.limits name).cells) :
    (UInt16.ofNat (m₀.codeStart name + i)).toNat = m₀.codeStart name + i := by
  have hcells := h.codeStart_add_cells
  have hlt := m₀.regs.dataBase.toNat_lt
  exact Cell.toNat_ofNat (by omega)

theorem here_eq : m.regs.here = UInt16.ofNat (m₀.codeStart name + code.length) := by
  refine Cell.eq_of_toNat_eq ?_
  rw [h.toNat_place h.length_code_le, h.here]

/-- Items fit on the stack if they fitted on the old one, the new ones taken into account. -/
theorem fits_iff {n : Nat} {vs : List Cell} (hn : n ≤ top.length) :
    m.dataStack.Fits n vs ↔ top.length + vs.length ≤ n + m₀.dataStack.room := by
  have hlength : m.dataStack.items.length = top.length + m₀.dataStack.items.length := by
    rw [h.items, List.length_append]
  have hcapacity : m.dataStack.capacity = m₀.dataStack.capacity := by
    simp only [Stack.capacity, Machine.dataStack, h.dataLimit_eq, h.dataBase_eq]
  have hsize := h.grown.before.dataStack.length_items
  have hroom := h.grown.before.dataStack.room_eq
  have hbase := h.grown.before.dataStack.size_eq
  rw [h.grown.after.dataStack.fits_iff, hcapacity]
  simp only [Stack.capacity] at hroom ⊢
  omega

/-- Writing to the room for code changes the code only. -/
theorem overlay {pos : Nat} {cs code' : List Cell} (hpos : m₀.codeStart name ≤ pos)
    (hend : pos + cs.length ≤ m₀.regs.dataBase.toNat) (hlength : code'.length = code.length)
    (hcode : (m.memory.overlay pos cs).Holds (m₀.codeStart name) code') :
    m₀.WithDefinition name header code' top { m with memory := m.memory.overlay pos cs } where
  grown :=
    { h.grown with
      after :=
        { h.grown.after with
          returnLimit_eq := h.grown.after.returnLimit_eq.trans (Memory.size_overlay ..).symm
          size_le := Nat.le_trans (Nat.le_of_eq (Memory.size_overlay ..)) h.grown.after.size_le }
      agree :=
        (Memory.AgreeBelow.overlay m.memory cs (by unfold codeStart at hpos; omega)).trans
          h.grown.agree
      holds := h.grown.holds.of_overlay m.memory (by rwa [Record.length_cells]) }
  here := by rw [hlength]; exact h.here
  code := hcode
  items := by rw [items_overlay_of_le (by rwa [h.dataBase_eq]), h.items]
  rest := congrArg (fun m : Machine => { m with memory := m.memory.overlay pos cs }) h.rest

/-- Adding cells to the dictionary adds them to the code. -/
theorem append {cs : List Cell} (hfits : code.length + cs.length ≤ (m₀.limits name).cells) :
    m₀.WithDefinition name header (code ++ cs) top (m.append cs) := by
  have hcells := h.codeStart_add_cells
  have hunused := h.unused_eq
  have hsize := h.grown.after.dataBase_le_size
  rw [h.dataBase_eq] at hsize
  have hroom : cs.length ≤ m.unused := by omega
  have hhere := h.grown.after.toNat_here_append hroom
  have hstart := h.here
  exact
    { grown := h.grown.append hroom
      here := by
        rw [hhere, hstart, List.length_append]
        omega
      code := by
        refine Memory.Holds.append_iff.mpr ⟨h.code.of_overlay m.memory (by omega), ?_⟩
        rw [← hstart]
        exact Memory.Holds.overlay m.memory (by omega)
      items := by
        refine Eq.trans (items_overlay_of_le ?_) h.items
        rw [h.dataBase_eq]
        omega
      rest := congrArg (Machine.append cs) h.rest }

/-- Replacing new items on the stack leaves the definition alone. -/
theorem replaceData {n : Nat} {vs : List Cell} (hn : n ≤ top.length)
    (hfits : m.dataStack.Fits n vs) :
    m₀.WithDefinition name header code (vs.reverse ++ top.drop n) (m.replaceData n vs) := by
  have hlow : Memory.AgreeBelow m₀.regs.dataBase.toNat (m.replaceData n vs).memory m.memory :=
    fun i hi => h.grown.after.cells_replaceData hfits (.inl (by rwa [h.dataBase_eq]))
  have hcells := h.codeStart_add_cells
  have hcode := h.length_code_le
  exact
    { grown :=
        { h.grown with
          after := h.grown.after.replaceData hfits
          agree := (hlow.mono h.grown.before.here_le_dataBase).trans h.grown.agree
          holds := hlow.holds h.grown.holds (by
            rw [Record.length_cells]
            unfold codeStart at hcells
            omega) }
      here := h.here
      code := hlow.holds h.code (by omega)
      items := by
        rw [dataStack_replaceData, h.grown.after.dataStack.items_replaced hfits, h.items,
          List.drop_append_of_le_length hn, List.append_assoc]
      rest := congrArg (Machine.replaceData n vs) h.rest }

theorem fits_nil {n : Nat} (hn : n ≤ top.length) : m.dataStack.Fits n [] := by
  refine ⟨?_, Nat.zero_le _⟩
  rw [← h.grown.after.dataStack.length_items, h.items, List.length_append]
  omega

/-- Changing the flags in the header leaves the rest as it is. -/
theorem setHeader {header' : Cell}
    (hlength : Record.nameLength ⟨m₀.regs.here.toNat, m₀.regs.latest, header'⟩ = name.length) :
    m₀.WithDefinition name header' code top
      { m with memory := m.memory.overlay (m₀.regs.here.toNat + 1) [header'] } := by
  have hcells := h.codeStart_add_cells
  simp only [codeStart, Record.cellsFor] at hcells
  exact
    { grown := h.grown.setHeader hlength
      here := h.here
      code := h.code.congr fun i hi _ => Memory.cells_overlay_of_le (by
        simp only [codeStart, Record.cellsFor] at hi
        rw [List.length_singleton]
        omega)
      items := by
        refine Eq.trans (items_overlay_of_le ?_) h.items
        rw [h.dataBase_eq, List.length_singleton]
        omega
      rest := congrArg
        (fun m : Machine =>
          { m with memory := m.memory.overlay (m₀.regs.here.toNat + 1) [header'] }) h.rest }

/-- The journal and the registers that say what is being compiled may change. -/
theorem settle (mode : Mode) (defining : Cell) (journal : Journal) :
    m₀.WithDefinition name header code top
      { m with
        journal := journal
        regs := { m.regs with mode := mode, defining := defining } } where
  grown := { h.grown with after := { h.grown.after with } }
  here := h.here
  code := h.code
  items := h.items
  rest := congrArg
    (fun m : Machine =>
      { m with
        journal := journal
        regs := { m.regs with mode := mode, defining := defining } }) h.rest

/-- What has been read last, what will be read next, and the register `w` do not matter. -/
theorem reread (token : List UInt8) (input : Source) (w₀ w : Cell) :
    ({ m₀ with token := token, input := input, regs := { m₀.regs with w := w₀ } } :
        Machine).WithDefinition name header code top
      { m with token := token, input := input, regs := { m.regs with w := w } } where
  grown := { h.grown with before := { h.grown.before with }, after := { h.grown.after with } }
  here := h.here
  code := h.code
  items := h.items
  rest := congrArg
    (fun m : Machine =>
      { m with token := token, input := input, regs := { m.regs with w := w } }) h.rest

end WithDefinition

/-- A record that has just been added is a definition without code. -/
theorem withDefinition_addRecord {m : Machine} (h : m.WithinRegions) {name : List UInt8}
    (flags : Cell) (journal : Journal) (hlen : name.length ≤ Record.maxNameLength)
    (hroom : Record.cellsFor name.length ≤ m.unused) :
    m.WithDefinition name (Record.makeHeader flags name.length) [] []
      (m.addRecord name Runtime.nest.opcode flags journal) := by
  have hlength := Record.length_cells m.regs.latest (Record.makeHeader flags name.length) name
    Runtime.nest.opcode
  have hunused := h.here_add_unused
  exact
    { grown := grown_addRecord h _ flags journal hlen hroom
      here := toNat_here_addRecord h _ flags journal hroom
      code := fun i hi => absurd hi (Nat.not_lt_zero i)
      items := items_overlay_of_le (by rw [hlength]; omega)
      rest := rfl }

/-- The machine `m` has grown out of `m₀` by opening the definition of `name` and compiling it up to
the draft `d`. The record is hidden, and on the stack there are the open structures and below them
the definition. -/
structure Drafting (m₀ : Machine) (name : List UInt8) (d : Draft) (m : Machine) : Prop extends
    m₀.WithDefinition name (Record.makeHeader Record.hiddenBit name.length) d.code
      (d.entries (m₀.codeStart name) ++ [ControlTag.definition.cell, m₀.regs.here]) m where
  /-- Words are compiled. -/
  mode_eq : m.regs.mode = .compile
  /-- The definition is the open one. -/
  defining_eq : m.regs.defining = m₀.regs.here
  /-- The open structures are where they can be. -/
  places : ∀ entry ∈ d.pending, (m₀.limits name).Allows entry.1 entry.2

end Machine

/-! ### Compiling operations as operations of a draft -/

theorem ControlTag.cell_inj {a b : ControlTag} : a.cell = b.cell ↔ a = b := by
  cases a <;> cases b <;> decide

/-- Closing a structure looks at the top two items only. -/
theorem Exec.popControl_eq {m : Machine} (h : m.WithinRegions) {tag address : Cell}
    {rest : List Cell} (hitems : m.dataStack.items = tag :: address :: rest) (wanted : ControlTag) :
    popControl wanted m =
      if tag = wanted.cell then .ok address (m.replaceData 2 [])
      else .error .controlMismatch m := by
  rw [popControl_eq_addressIn? h.ordered, hitems, ControlTag.addressIn?]
  split <;> simp_all

namespace Machine

variable (m₀ : Machine) (name : List UInt8)

/-- The operation of the machine does to the open definition of `name` what the operation of a
draft says. -/
abbrev Drafts {α β : Type} (V : α → β → Prop) (op : Exec α) (draft : EStateM Fault Draft β) :
    Prop :=
  Refines (fun m d => m₀.Drafting name d m) V op draft

/-- The address stands for a place at which a structure with the given tag can be open. -/
def IsPlace (tag : ControlTag) (address : Cell) (i : Nat) : Prop :=
  address = UInt16.ofNat (m₀.codeStart name + i) ∧ (m₀.limits name).Allows tag i

variable {m₀ name}

theorem drafts_compileCell (c : Cell) :
    m₀.Drafts name (fun _ _ => True) (Exec.compileCell c) (Draft.emit (m₀.limits name) c) := by
  intro m d h
  have hunused := h.unused_eq
  rw [Exec.compileCell_eq h.grown.after.ordered, Draft.emit]
  by_cases hlt : d.code.length < (m₀.limits name).cells
  · rw [if_pos (by omega), if_pos hlt]
    exact .ok trivial ⟨h.append hlt, h.mode_eq, h.defining_eq, h.places⟩
  · rw [if_neg (by omega), if_neg hlt]
    exact .error h

theorem drafts_pushControl {tag : ControlTag} {address : Cell} {i : Nat}
    (hplace : m₀.IsPlace name tag address i) :
    m₀.Drafts name (fun _ _ => True) (Exec.pushControl address tag)
      (Draft.openAt (m₀.limits name) i tag) := by
  intro m d h
  have hstack := h.grown.after.dataStack
  -- The machine counts free cells and the draft pending places, two cells each.
  have hiff : m.dataStack.Fits 0 [address, tag.cell] ↔
      2 * d.pending.length + 2 ≤ (m₀.limits name).items := by
    rw [h.fits_iff (Nat.zero_le _), List.length_append, Draft.length_entries]
    simp only [limits, List.length_cons, List.length_nil]
    omega
  unfold Exec.pushControl Draft.openAt
  by_cases hfits : m.dataStack.Fits 0 [address, tag.cell]
  · have hpush : Exec.onData (Stack.pushTwo address tag.cell) m =
        .ok () (m.replaceData 0 [address, tag.cell]) :=
      Exec.onData_of_ok (hstack.pushTwo_of_fits hfits)
    rw [hpush, if_pos (hiff.mp hfits)]
    have hnew := h.replaceData (Nat.zero_le _) hfits
    rw [hplace.1] at hnew ⊢
    refine .ok trivial ⟨hnew, h.mode_eq, h.defining_eq, ?_⟩
    rw [List.forall_mem_cons]
    exact ⟨hplace.2, h.places⟩
  · have hpush : Exec.onData (Stack.pushTwo address tag.cell) m = .error .stackOverflow m :=
      Exec.onData_of_error (hstack.pushTwo_of_not_fits hfits)
    rw [hpush, if_neg (mt hiff.mpr hfits)]
    exact .error h

theorem drafts_popControl {tag : ControlTag} (htag : tag ≠ .definition) :
    m₀.Drafts name (m₀.IsPlace name tag) (Exec.popControl tag) (Draft.close tag) := by
  intro m d h
  obtain ⟨code, pending⟩ := d
  cases pending with
  | nil =>
    -- The entry of the definition shields the items below it.
    have hmatch : ControlTag.definition.cell ≠ tag.cell := fun heq =>
      htag (ControlTag.cell_inj.mp heq).symm
    rw [Exec.popControl_eq h.grown.after h.items, if_neg hmatch]
    exact .error h
  | cons entry rest =>
    obtain ⟨found, i⟩ := entry
    have hplaces := h.places
    rw [List.forall_mem_cons] at hplaces
    rw [Exec.popControl_eq h.grown.after h.items]
    simp only [Draft.close, ControlTag.cell_inj]
    split
    · rename_i hfound
      have htop : 2 ≤ (Draft.entries (m₀.codeStart name) ⟨code, (found, i) :: rest⟩ ++
          [ControlTag.definition.cell, m₀.regs.here]).length := by simp [Draft.entries]
      refine .ok ⟨rfl, hfound ▸ hplaces.1⟩ ?_
      exact ⟨h.replaceData htop (h.fits_nil htop), h.mode_eq, h.defining_eq, hplaces.2⟩
    · exact .error h

theorem drafts_here :
    m₀.Drafts name
      (fun address i =>
        address = UInt16.ofNat (m₀.codeStart name + i) ∧ i ≤ (m₀.limits name).cells)
      (Exec.reg (·.here)) Draft.place :=
  fun _ _ h => .ok ⟨h.here_eq, h.length_code_le⟩ h

theorem drafts_resolveForward {address : Cell} {i : Nat}
    (hplace : m₀.IsPlace name .origin address i) :
    m₀.Drafts name (fun _ _ => True) (Exec.resolveForward address) (Draft.resolveForward i) := by
  intro m d h
  have hlt := hplace.2.lt rfl
  have hcells := h.codeStart_add_cells
  have hsize := h.grown.after.dataBase_le_size
  rw [h.dataBase_eq] at hsize
  have haddress : address.toNat = m₀.codeStart name + i := by
    rw [hplace.1, h.toNat_place hplace.2.le]
  have hoffset : m.regs.here - address = Draft.offset i d.code.length := by
    rw [h.here_eq, hplace.1, Draft.offset_eq]
  have hput : Exec.resolveForward address m = .ok ()
      { m with
        memory := m.memory.overlay (m₀.codeStart name + i) [Draft.offset i d.code.length] } := by
    unfold Exec.resolveForward
    rw [Exec.bind_reg, hoffset, haddress]
    exact Exec.put_of_lt _ (by omega)
  rw [hput]
  refine .ok trivial
    ⟨h.overlay (Nat.le_add_right _ _) ?_ (List.length_set ..) ?_, h.mode_eq, h.defining_eq,
      h.places⟩
  · rw [List.length_singleton]
    omega
  · intro j hj
    rw [List.length_set] at hj
    -- The offset is the one cell of the code that differs, on both sides.
    rw [Memory.cells_overlay, List.getElem?_set]
    by_cases hij : i = j
    · subst hij
      rw [if_pos (by rw [List.length_singleton]; omega), if_pos rfl, if_pos hj, Nat.sub_self]
      rfl
    · rw [if_neg (by rw [List.length_singleton]; omega), if_neg hij]
      exact h.code j hj

theorem drafts_markForward :
    m₀.Drafts name (fun _ _ => True) Exec.markForward (Draft.markForward (m₀.limits name)) := by
  intro m d h
  -- The offset has been added by the time its structure is opened, so its place is not the end.
  by_cases hlt : d.code.length < (m₀.limits name).cells
  · have hplace : m₀.IsPlace name .origin m.regs.here d.code.length :=
      ⟨h.here_eq, by decide, h.length_code_le, fun _ => hlt⟩
    exact Refines.bind (drafts_compileCell 0) (fun _ _ _ => drafts_pushControl hplace) m d h
  · have hemit : Draft.emit (m₀.limits name) 0 d = .error .dictionaryOverflow d := if_neg hlt
    have hdraft : Draft.markForward (m₀.limits name) d = .error .dictionaryOverflow d :=
      Eq.trans (bind_of_ok (a := d.code.length) rfl) (bind_of_error hemit)
    have hcell : Exec.compileCell 0 m = .error .dictionaryOverflow m := by
      rw [Exec.compileCell_eq h.grown.after.ordered, if_neg (by rw [h.unused_eq]; omega)]
    have hmark : Exec.markForward m = .error .dictionaryOverflow m := by
      unfold Exec.markForward
      rw [Exec.bind_reg, bind_of_error hcell]
    rw [hmark, hdraft]
    exact .error h

theorem drafts_compileBackward {tag : ControlTag} {address : Cell} {i : Nat}
    (hplace : m₀.IsPlace name tag address i) :
    m₀.Drafts name (fun _ _ => True) (Exec.compileBackward address)
      (Draft.emitBackward (m₀.limits name) i) :=
  .bind drafts_here fun here j hhere => by
    rw [hhere.1, hplace.1, Draft.offset_eq]
    exact drafts_compileCell _

theorem drafts_markHere {tag : ControlTag} (hdefinition : tag ≠ .definition)
    (horigin : tag ≠ .origin) :
    m₀.Drafts name (fun _ _ => True) (Exec.markHere tag) (Draft.markHere (m₀.limits name) tag) :=
  .bind drafts_here fun _ _ hhere =>
    drafts_pushControl ⟨hhere.1, hdefinition, hhere.2, fun htag => absurd htag horigin⟩

/-- A word that closes a loop compiles an action and an offset back to the start of the loop. -/
theorem drafts_closeBackward {tag : ControlTag} (htag : tag ≠ .definition) (r : Runtime) :
    m₀.Drafts name (fun _ _ => True)
      (do
        let destination ← Exec.popControl tag
        Exec.compileRuntime r
        Exec.compileBackward destination)
      (do
        let destination ← Draft.close tag
        Draft.emit (m₀.limits name) r.opcode
        Draft.emitBackward (m₀.limits name) destination) :=
  .bind (drafts_popControl htag) fun _ _ hplace =>
    .bind (drafts_compileCell _) fun _ _ _ => drafts_compileBackward hplace

/-- Control words do to the open definition what they do to a draft of it. -/
theorem drafts_build (word : ControlWord) :
    m₀.Drafts name (fun _ _ => True) word.build (word.draft (m₀.limits name)) := by
  cases word with
  | openIf => exact .bind (drafts_compileCell _) fun _ _ _ => drafts_markForward
  | turnElse =>
    exact .bind (drafts_popControl (by decide)) fun _ _ hplace =>
      .bind (drafts_compileCell _) fun _ _ _ =>
        .bind drafts_markForward fun _ _ _ => drafts_resolveForward hplace
  | closeThen =>
    exact .bind (drafts_popControl (by decide)) fun _ _ hplace => drafts_resolveForward hplace
  | openBegin => exact drafts_markHere (by decide) (by decide)
  | closeUntil => exact drafts_closeBackward (by decide) _
  | closeAgain => exact drafts_closeBackward (by decide) _
  | turnWhile =>
    exact .bind (drafts_popControl (by decide)) fun _ _ hplace =>
      .bind (drafts_compileCell _) fun _ _ _ =>
        .bind drafts_markForward fun _ _ _ => drafts_pushControl hplace
  | closeRepeat =>
    exact .bind (drafts_popControl (by decide)) fun _ _ hplace =>
      .bind (drafts_compileCell _) fun _ _ _ =>
        .bind (drafts_compileBackward hplace) fun _ _ _ =>
          .bind (drafts_popControl (by decide)) fun _ _ horigin => drafts_resolveForward horigin
  | openDo =>
    exact .bind (drafts_compileCell _) fun _ _ _ => drafts_markHere (by decide) (by decide)
  | closeLoop => exact drafts_closeBackward (by decide) _
  | closePlusLoop => exact drafts_closeBackward (by decide) _

end Machine

end CellForth
