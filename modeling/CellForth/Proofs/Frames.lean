import CellForth.Proofs.Actions
import Mathlib.Tactic.ByContra

/-!
# What a word may write

Code, data and both stacks share one memory, so a word that wrote one cell too far would corrupt
something that shows only much later. This module says which cells a word can have changed when it
has ended, be it with success or with a fault: slots of the two stacks that are live before or
after it, what it has added to the dictionary, and, for some words, one cell that they name.

Slots below the higher of two positions of a pointer do not compose, for a pointer may rise in the
first of two steps and fall in the second. Words do not do this. An operation is *falling* if both
pointers end no higher than they began; falling operations compose (`Machine.Falls` is kept by each
of them), and a word is a row of falling operations with at most one behind them that lets a stack
rise. `Machine.Frames` is the statement about the whole word, and `Machine.Falls.frames` puts a
falling operation in front of it.
-/

namespace CellForth

/-- Is it the fault of a stack that has no room or not enough items? -/
def Fault.isStackFault (e : Fault) : Bool :=
  [StackKind.data, StackKind.returns].any fun kind => e = kind.overflow || e = kind.underflow

namespace Machine

/-! ### Changed cells -/

/-- The cell at the offset is not what it was. -/
def Changed (m m' : Machine) (pos : Nat) : Prop :=
  m'.memory.cells[pos]? ≠ m.memory.cells[pos]?

/-- The offset lies in a slot of the data stack below `top`, in a slot of the return stack below
`returnTop`, or in what has been added to the dictionary. -/
def InSlots (m m' : Machine) (top returnTop pos : Nat) : Prop :=
  (m.regs.dataBase.toNat ≤ pos ∧ pos < top) ∨
    (m.regs.returnBase.toNat ≤ pos ∧ pos < returnTop) ∨
    (m.regs.here.toNat ≤ pos ∧ pos < m'.regs.here.toNat)

/-- A cell that has changed in two steps has changed in one of them. -/
theorem Changed.or {m m'' : Machine} {pos : Nat} (h : m.Changed m'' pos) (m' : Machine) :
    m.Changed m' pos ∨ m'.Changed m'' pos := by
  by_cases hfirst : m.Changed m' pos
  · exact .inl hfirst
  · exact .inr fun heq => h (heq.trans (not_not.mp hfirst))

/-- Both stacks end no higher than they began, and what has changed is in their slots or has been
added to the dictionary. -/
structure Falls (m m' : Machine) : Prop where
  /-- The regions are in order afterwards. -/
  ordered : m'.Ordered
  /-- They have the same boundaries. -/
  regions_eq : m'.regions = m.regions
  /-- The data stack has not risen. -/
  sp_le : m'.regs.sp.toNat ≤ m.regs.sp.toNat
  /-- The return stack has not risen. -/
  rp_le : m'.regs.rp.toNat ≤ m.regs.rp.toNat
  /-- The dictionary has not shrunk. -/
  here_le : m.regs.here.toNat ≤ m'.regs.here.toNat
  /-- The other cells are as they were. -/
  cells {pos : Nat} : m.Changed m' pos → m.InSlots m' m.regs.sp.toNat m.regs.rp.toNat pos

/-- What an operation on the machine may have changed: slots of the stacks that are live before or
after it, what it has added to the dictionary, and the cells that are named. With the fault of a
stack it has changed none of the latter, and only slots that were live before. -/
structure Frames {α : Type} (named : Nat → Prop) (m : Machine)
    (r : EStateM.Result Fault Machine α) : Prop where
  /-- The dictionary has not shrunk. -/
  here_le : m.regs.here.toNat ≤ (endState r).regs.here.toNat
  /-- The other cells are as they were. -/
  cells {pos : Nat} : m.Changed (endState r) pos →
    m.InSlots (endState r) (max m.regs.sp.toNat (endState r).regs.sp.toNat)
      (max m.regs.rp.toNat (endState r).regs.rp.toNat) pos ∨ named pos
  /-- Behind the fault of a stack, even more are as they were. -/
  stackFault {e : Fault} {m' : Machine} {pos : Nat} : r = .error e m' → e.isStackFault = true →
    m.Changed m' pos → m.InSlots m' m.regs.sp.toNat m.regs.rp.toNat pos

variable {m m' m'' : Machine}

theorem regions_eq_iff : m'.regions = m.regions ↔
    m'.regs.dataBase = m.regs.dataBase ∧ m'.regs.dataLimit = m.regs.dataLimit ∧
      m'.regs.returnBase = m.regs.returnBase ∧ m'.regs.returnLimit = m.regs.returnLimit ∧
      m'.memory.size = m.memory.size := by
  simp only [regions, Regions.mk.injEq]

namespace Falls

theorem refl (hm : m.Ordered) : m.Falls m where
  ordered := hm
  regions_eq := rfl
  sp_le := Nat.le_refl _
  rp_le := Nat.le_refl _
  here_le := Nat.le_refl _
  cells h := absurd rfl h

theorem dataBase_eq (h : m.Falls m') : m'.regs.dataBase = m.regs.dataBase :=
  (regions_eq_iff.mp h.regions_eq).1

theorem returnBase_eq (h : m.Falls m') : m'.regs.returnBase = m.regs.returnBase :=
  (regions_eq_iff.mp h.regions_eq).2.2.1

theorem trans (h : m.Falls m') (h' : m'.Falls m'') : m.Falls m'' where
  ordered := h'.ordered
  regions_eq := h'.regions_eq.trans h.regions_eq
  sp_le := Nat.le_trans h'.sp_le h.sp_le
  rp_le := Nat.le_trans h'.rp_le h.rp_le
  here_le := Nat.le_trans h.here_le h'.here_le
  cells {pos} hpos := by
    have hsp := h.sp_le
    have hrp := h.rp_le
    have hhere := h.here_le
    have hhere' := h'.here_le
    rcases hpos.or m' with hfirst | hsecond
    · have hslots := h.cells hfirst
      unfold InSlots at hslots ⊢
      omega
    · have hslots := h'.cells hsecond
      unfold InSlots at hslots ⊢
      rw [h.dataBase_eq, h.returnBase_eq] at hslots
      omega

/-- A falling operation may stand in front. -/
theorem frames {α : Type} {named : Nat → Prop} {r : EStateM.Result Fault Machine α}
    (h : m.Falls m') (hr : Frames named m' r) : Frames named m r where
  here_le := Nat.le_trans h.here_le hr.here_le
  cells {pos} hpos := by
    have hsp := h.sp_le
    have hrp := h.rp_le
    have hhere := h.here_le
    have hhere' := hr.here_le
    -- A cell that has changed in the end did so in the first part or in the second.
    rcases hpos.or m' with hfirst | hsecond
    · have hslots := h.cells hfirst
      left
      unfold InSlots at hslots ⊢
      omega
    · rcases hr.cells hsecond with hslots | hnamed
      · left
        unfold InSlots at hslots ⊢
        rw [h.dataBase_eq, h.returnBase_eq] at hslots
        omega
      · exact .inr hnamed
  stackFault {e m₁ pos} he hfault hpos := by
    have hsp := h.sp_le
    have hrp := h.rp_le
    have hhere := h.here_le
    have hhere' := hr.here_le
    rw [he, endState_error] at hhere'
    rcases hpos.or m' with hfirst | hsecond
    · have hslots := h.cells hfirst
      unfold InSlots at hslots ⊢
      omega
    · have hslots := hr.stackFault he hfault hsecond
      unfold InSlots at hslots ⊢
      rw [h.dataBase_eq, h.returnBase_eq] at hslots
      omega

/-- A falling operation has changed nothing that a word may not change. -/
theorem toFrames {α : Type} {named : Nat → Prop} {r : EStateM.Result Fault Machine α}
    (h : m.Falls (endState r)) : Frames named m r where
  here_le := h.here_le
  cells hpos := by
    have hslots := h.cells hpos
    left
    unfold InSlots at hslots ⊢
    omega
  stackFault he _ hpos := by
    rw [he, endState_error] at h
    exact h.cells hpos

/-- Input and output have nothing to do with it. -/
theorem deviceFree (m : Machine) : DeviceFree m.Falls :=
  fun _ _ _ _ _ h => { h with ordered := { h.ordered with } }

end Falls

theorem Frames.mono {α : Type} {named named' : Nat → Prop} {r : EStateM.Result Fault Machine α}
    (h : Frames named m r) (himp : ∀ pos, named pos → named' pos) : Frames named' m r where
  here_le := h.here_le
  cells hpos := (h.cells hpos).imp_right (himp _)
  stackFault := h.stackFault

/-- What may still be done at the machine `m'` when the word has begun at `m`: of the cells, only
those that are named change, no pointer leaves the place where it was highest, and no stack is at
fault. -/
structure Closing {α : Type} (named : Nat → Prop) (m m' : Machine)
    (r : EStateM.Result Fault Machine α) : Prop where
  /-- Only cells that are named change. -/
  cells {pos : Nat} : m'.Changed (endState r) pos → named pos
  /-- The dictionary stays as it is. -/
  here_eq : (endState r).regs.here = m'.regs.here
  /-- The data stack was or is as high as it has been in between. -/
  sp_le : m'.regs.sp.toNat ≤ max m.regs.sp.toNat (endState r).regs.sp.toNat
  /-- The return stack was or is as high as it has been in between. -/
  rp_le : m'.regs.rp.toNat ≤ max m.regs.rp.toNat (endState r).regs.rp.toNat
  /-- A fault is not that of a stack. -/
  fault {e : Fault} {m'' : Machine} : r = .error e m'' → e.isStackFault = false

theorem Frames.of_error {α β : Type} {named : Nat → Prop} {e : Fault}
    (h : Frames named m (.error e m' : EStateM.Result Fault Machine α)) :
    Frames named m (.error e m' : EStateM.Result Fault Machine β) where
  here_le := h.here_le
  cells := h.cells
  stackFault he hstack hpos := by
    cases he
    exact h.stackFault rfl hstack hpos

/-- A closing operation may stand behind. -/
theorem Frames.bind {α β : Type} {named : Nat → Prop} {x : Exec α} {f : α → Exec β}
    (h : Frames named m (x m)) (hf : ∀ a m', x m = .ok a m' → Closing named m m' (f a m')) :
    Frames named m ((x >>= f) m) := by
  cases hx : x m with
  | error e m' =>
    rw [hx] at h
    rw [bind_of_error hx]
    exact h.of_error
  | ok a m' =>
    have hclosing := hf a m' hx
    have hhere := hclosing.here_eq
    have hsp := hclosing.sp_le
    have hrp := hclosing.rp_le
    rw [hx] at h
    rw [bind_of_ok hx]
    exact
      { here_le := by
          rw [hhere]
          exact h.here_le
        cells := fun hpos => by
          rcases hpos.or m' with hfirst | hsecond
          · refine (h.cells hfirst).imp_left fun hslots => ?_
            unfold InSlots at hslots ⊢
            rw [hhere]
            simp only [endState_ok] at hslots
            omega
          · exact .inr (hclosing.cells hsecond)
        -- What closes does not fault for a stack, so such a fault was the first part's.
        stackFault := fun he hstack => by
          rw [hclosing.fault he] at hstack
          cases hstack }

end Machine

/-- An operation that replaces items of the data stack keeps what every replacement keeps. -/
theorem Exec.keeps_onData {P : Machine → Prop} (hbounds : ∀ m, P m → m.dataStack.WithinBounds)
    (hreplace : ∀ m n vs, P m → m.dataStack.Fits n vs → P (m.replaceData n vs)) {α : Type}
    {op : StackM α} (hop : Stack.Replaces op) : Keeps P (onData op) := by
  intro m h
  obtain ⟨e, he⟩ | ⟨a, n, vs, hfits, hok⟩ := hop m.dataStack (hbounds m h)
  · rw [onData_of_error he]
    exact h
  · rw [onData_of_ok hok]
    exact hreplace m n vs h hfits

/-! ### Falling operations -/

namespace Machine

variable {m : Machine} {n : Nat} {vs : List Cell}

/-- The slots that a replacement on the data stack can have changed. -/
theorem Ordered.changed_replaceData (hm : m.Ordered) (hfits : m.dataStack.Fits n vs) {pos : Nat}
    (hpos : m.Changed (m.replaceData n vs) pos) :
    m.regs.dataBase.toNat ≤ pos ∧ pos < (m.replaceData n vs).regs.sp.toNat := by
  have hpointer : (m.replaceData n vs).regs.sp.toNat = m.regs.sp.toNat - n + vs.length :=
    hm.dataStack.toNat_pointer_replaced hfits
  have hsize : m.regs.dataBase.toNat + m.dataStack.size = m.regs.sp.toNat := hm.dataStack.size_eq
  have hn := hfits.1
  by_contra hout
  refine hpos (Stack.cells_replaced ?_)
  show pos < m.regs.sp.toNat - n ∨ m.regs.sp.toNat - n + vs.length ≤ pos
  omega

/-- The slots that a replacement on the return stack can have changed. -/
theorem Ordered.changed_replaceReturn (hm : m.Ordered) (hfits : m.returnStack.Fits n vs) {pos : Nat}
    (hpos : m.Changed (m.replaceReturn n vs) pos) :
    m.regs.returnBase.toNat ≤ pos ∧ pos < (m.replaceReturn n vs).regs.rp.toNat := by
  have hpointer : (m.replaceReturn n vs).regs.rp.toNat = m.regs.rp.toNat - n + vs.length :=
    hm.returnStack.toNat_pointer_replaced hfits
  have hsize : m.regs.returnBase.toNat + m.returnStack.size = m.regs.rp.toNat :=
    hm.returnStack.size_eq
  have hn := hfits.1
  by_contra hout
  refine hpos (Stack.cells_replaced ?_)
  show pos < m.regs.rp.toNat - n ∨ m.regs.rp.toNat - n + vs.length ≤ pos
  omega

/-- A replacement on the data stack by no more items lets it fall. -/
theorem Ordered.falls_replaceData (hm : m.Ordered) (hfits : m.dataStack.Fits n vs)
    (hle : vs.length ≤ n) : m.Falls (m.replaceData n vs) := by
  have hpointer : (m.replaceData n vs).regs.sp.toNat = m.regs.sp.toNat - n + vs.length :=
    hm.dataStack.toNat_pointer_replaced hfits
  have hsize : m.regs.dataBase.toNat + m.dataStack.size = m.regs.sp.toNat := hm.dataStack.size_eq
  have hn := hfits.1
  exact
    { ordered := hm.replaceData hfits
      regions_eq := regions_replaceData ..
      sp_le := by omega
      rp_le := Nat.le_refl _
      here_le := Nat.le_refl _
      cells := fun hpos => by
        have hslot := hm.changed_replaceData hfits hpos
        exact .inl ⟨hslot.1, by omega⟩ }

/-- A replacement on the return stack by no more items lets it fall. -/
theorem Ordered.falls_replaceReturn (hm : m.Ordered) (hfits : m.returnStack.Fits n vs)
    (hle : vs.length ≤ n) : m.Falls (m.replaceReturn n vs) := by
  have hpointer : (m.replaceReturn n vs).regs.rp.toNat = m.regs.rp.toNat - n + vs.length :=
    hm.returnStack.toNat_pointer_replaced hfits
  have hsize : m.regs.returnBase.toNat + m.returnStack.size = m.regs.rp.toNat :=
    hm.returnStack.size_eq
  have hn := hfits.1
  exact
    { ordered := hm.replaceReturn hfits
      regions_eq := regions_replaceReturn ..
      sp_le := Nat.le_refl _
      rp_le := by omega
      here_le := Nat.le_refl _
      cells := fun hpos => by
        have hslot := hm.changed_replaceReturn hfits hpos
        exact .inr (.inl ⟨hslot.1, by omega⟩) }

/-- Adding to the dictionary leaves both stacks alone. -/
theorem Ordered.falls_append (hm : m.Ordered) {cs : List Cell} (hroom : cs.length ≤ m.unused) :
    m.Falls (m.append cs) where
  ordered := hm.append hroom
  regions_eq := regions_append ..
  sp_le := Nat.le_refl _
  rp_le := Nat.le_refl _
  here_le := by
    rw [hm.toNat_here_append hroom]
    omega
  cells {pos} hpos := by
    right; right
    rw [hm.toNat_here_append hroom]
    by_contra hout
    refine hpos ?_
    show (m.memory.overlay m.regs.here.toNat cs).cells[pos]? = _
    rw [Memory.cells_overlay, if_neg (by omega)]

end Machine

namespace Exec

open Machine

/-- The operation lets no stack rise, however it ends. -/
def Falling {α : Type} (op : Exec α) : Prop :=
  ∀ m₀ : Machine, Keeps m₀.Falls op

namespace Falling

variable {α β : Type}

/-- It is enough to look at the operation from one machine. -/
theorem of_falls {op : Exec α} (h : ∀ m : Machine, m.Ordered → m.Falls (endState (op m))) :
    Falling op :=
  fun _ m hm => hm.trans (h m hm.ordered)

theorem falls {op : Exec α} (h : Falling op) {m : Machine} (hm : m.Ordered) :
    m.Falls (endState (op m)) :=
  h m m (.refl hm)

theorem observe (f : Machine → Except Fault α) : Falling (observe f) := fun _ => .observe f

theorem settle (r : Except Fault α) : Falling (settle r) := fun _ => .settle r

theorem pure (a : α) : Falling (Pure.pure a) := fun _ => .pure a

theorem reg (f : Registers → α) : Falling (reg f) := fun _ => .reg f

theorem bind {x : Exec α} {f : α → Exec β} (hx : Falling x) (hf : ∀ a, Falling (f a)) :
    Falling (x >>= f) :=
  fun m₀ => .bind (hx m₀) fun a => hf a m₀

theorem ite {c : Prop} [Decidable c] {x y : Exec α} (hx : Falling x) (hy : Falling y) :
    Falling (if c then x else y) :=
  fun m₀ => .ite (hx m₀) (hy m₀)

/-- Registers that are neither pointers nor boundaries may be set. -/
theorem setIp (f : Registers → Cell) : Falling (setRegs fun regs => { regs with ip := f regs }) :=
  fun _ _ h => { h with ordered := { h.ordered with } }

theorem setW (xt : Cell) : Falling (setRegs fun regs => { regs with w := xt }) :=
  fun _ _ h => { h with ordered := { h.ordered with } }

theorem setBase (base : Cell) : Falling (setRegs fun regs => { regs with base := base }) :=
  fun _ _ h => { h with ordered := { h.ordered with } }

theorem setMode (mode : Mode) : Falling (setMode mode) :=
  fun _ _ h => { h with ordered := { h.ordered with } }

theorem write (bs : List UInt8) : Falling (write bs) :=
  fun m₀ => (Falls.deviceFree m₀).write bs

theorem parse (delimiter : UInt8) : Falling (parse delimiter) :=
  fun m₀ => (Falls.deviceFree m₀).parse delimiter

theorem parseName : Falling parseName := fun m₀ => (Falls.deviceFree m₀).parseName

theorem parseToken : Falling parseToken := fun m₀ => (Falls.deviceFree m₀).parseToken

theorem parseChar : Falling parseChar := fun m₀ => (Falls.deviceFree m₀).parseChar

theorem readByte : Falling (onInput Source.read) := fun m₀ => (Falls.deviceFree m₀).readByte

theorem onData {op : StackM α} (hop : Stack.Drops op) : Falling (onData op) := by
  refine of_falls fun m hm => ?_
  obtain ⟨e, he⟩ | ⟨a, n, hn, hok⟩ := hop m.dataStack hm.dataStack
  · rw [onData_of_error he]
    exact .refl hm
  · rw [onData_of_ok hok]
    exact hm.falls_replaceData ⟨hn, Nat.zero_le _⟩ (Nat.zero_le _)

theorem onReturn {op : StackM α} (hop : Stack.Drops op) : Falling (onReturn op) := by
  refine of_falls fun m hm => ?_
  obtain ⟨e, he⟩ | ⟨a, n, hn, hok⟩ := hop m.returnStack hm.returnStack
  · rw [onReturn_of_error he]
    exact .refl hm
  · rw [onReturn_of_ok hok]
    exact hm.falls_replaceReturn ⟨hn, Nat.zero_le _⟩ (Nat.zero_le _)

theorem pop : Falling pop := onData Stack.drops_pop

theorem peek : Falling peek := onData (Stack.drops_pick 0)

theorem compileCell (c : Cell) : Falling (compileCell c) := by
  refine of_falls fun m hm => ?_
  rw [compileCell_eq hm]
  split
  · rename_i hroom
    exact hm.falls_append hroom
  · exact .refl hm

theorem compileString (bs : List UInt8) : Falling (compileString bs) := by
  refine of_falls fun m hm => ?_
  rw [compileString_eq hm]
  split
  · rename_i hroom
    refine hm.falls_append ?_
    rw [Memory.length_stringCells]
    exact hroom.2
  · exact .refl hm

theorem createRecord (name : List UInt8) (code flags : Cell) :
    Falling (createRecord name code flags) := by
  refine of_falls fun m hm => ?_
  by_cases hgood : name ≠ [] ∧ name.length ≤ Record.maxNameLength ∧
      Record.cellsFor name.length ≤ m.unused
  · obtain ⟨hne, hlen, hroom⟩ := hgood
    obtain ⟨journal, hok⟩ := createRecord_of_room hm code flags hne hlen hroom
    have hcells : m.Falls (m.append (Record.cells m.regs.latest
        (Record.makeHeader flags name.length) name code)) :=
      hm.falls_append (by rwa [Record.length_cells])
    rw [hok]
    exact { hcells with ordered := { hcells.ordered with } }
  · obtain ⟨e, herror⟩ := createRecord_refused code flags hgood
    rw [herror]
    exact .refl hm

theorem compileRuntime (r : Runtime) : Falling (compileRuntime r) := compileCell _

theorem compileInteger (c : Cell) : Falling (compileInteger c) :=
  bind (compileCell _) fun _ => compileCell c

theorem compileBackward (destination : Cell) : Falling (compileBackward destination) :=
  bind (reg _) fun _ => compileCell _

theorem popControl (tag : ControlTag) : Falling (popControl tag) :=
  bind (observe _) fun _ => bind peek fun _ => bind (settle _) fun _ => bind pop fun _ => pop

theorem closeBackward (tag : ControlTag) (r : Runtime) :
    Falling (do
      let destination ← Exec.popControl tag
      Exec.compileRuntime r
      Exec.compileBackward destination) :=
  bind (popControl tag) fun _ => bind (compileRuntime r) fun _ => compileBackward _

theorem create : Falling create :=
  bind parseName fun _ => bind (createRecord _ _ _) fun _ => pure _

theorem branch : Falling branch :=
  bind (observe _) fun _ => bind (reg _) fun _ => bind (observe _) fun _ => setIp fun _ => _

theorem skipOperand : Falling skipOperand := setIp fun regs => regs.ip + 1

theorem operand : Falling operand :=
  bind (observe _) fun _ => bind (reg _) fun _ => bind (observe _) fun _ =>
    bind (setIp fun _ => _) fun _ => pure _

/-- Overwriting an item of the return stack does not move its pointer. -/
theorem setReturn (n : Nat) (v : Cell) : Falling (Exec.onReturn (Stack.set n v)) := by
  refine of_falls fun m hm => ?_
  have hset := hm.returnStack.set_eq n v
  split at hset
  · rename_i hn
    have hsize : m.regs.returnBase.toNat + m.returnStack.size = m.regs.rp.toNat :=
      hm.returnStack.size_eq
    rw [onReturn_of_ok hset]
    exact
      { ordered :=
          { hm with returnLimit_eq := hm.returnLimit_eq.trans (Memory.size_overlay ..).symm }
        regions_eq := regions_eq_iff.mpr ⟨rfl, rfl, rfl, rfl, Memory.size_overlay ..⟩
        sp_le := Nat.le_refl _
        rp_le := Nat.le_refl _
        here_le := Nat.le_refl _
        cells := fun {pos} hpos => by
          right; left
          by_contra hout
          refine hpos ?_
          show (m.memory.overlay (m.regs.rp.toNat - 1 - n) [v]).cells[pos]? = _
          rw [Memory.cells_overlay, if_neg (by simp; omega)] }
  · rw [onReturn_of_error hset]
    exact .refl hm

theorem stepLoop (n : Cell) : Falling (stepLoop n) :=
  bind (observe _) fun _ => bind (onReturn (Stack.drops_require 2)) fun _ =>
    bind (onReturn (Stack.drops_pick 0)) fun _ => bind (onReturn (Stack.drops_pick 1)) fun _ =>
      ite
        (bind (onReturn Stack.drops_drop) fun _ => bind (onReturn Stack.drops_drop) fun _ =>
          skipOperand)
        (bind (setReturn 0 _) fun _ => branch)

theorem outputWord (word : OutputWord) : Falling word.perform := by
  cases word with
  | emit => exact bind pop fun _ => write _
  | dot => exact bind pop fun _ => bind (reg _) fun _ => bind (write _) fun _ => write _
  | unsignedDot => exact bind pop fun _ => bind (reg _) fun _ => bind (write _) fun _ => write _
  | newline => exact write _
  | space => exact write _
  | spaces => exact bind pop fun _ => ite (write _) (pure _)
  | dotQuote =>
    exact bind (parse _) fun _ => bind (reg _) fun _ =>
      ite (bind (compileCell _) fun _ => compileString _) (write _)
  | words => exact bind (observe _) fun _ => write _
  | showStack => exact bind (observe _) fun _ => write _

end Falling

end Exec

end CellForth
