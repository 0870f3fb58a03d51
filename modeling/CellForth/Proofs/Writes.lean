import CellForth.Proofs.Frames

/-!
# The cells that a word changes

Here the frame of `CellForth.Proofs.Frames` is checked for every action. Seven of them write a cell
that belongs to neither stack and has been in the dictionary before; `Action.named?` says which one,
and reads it off the machine that the action meets. It is the operand of a store, the header of a
record, or the place of a forward jump that waits for its target.

An `execute` hands over to the word whose token it takes off the stack, so the action that counts is
the last one of such a chain (`Exec.finalAction`). Main statement: whatever the token, running its
word changes live slots of the stacks, the cells that it adds to the dictionary, and the cell that
the final action names (`Exec.execute_changed`); and if a stack is at fault, only slots that were
live before and what was added.
-/

namespace CellForth

open Machine

/-! ### Operations in front and behind -/

namespace Exec

variable {α β : Type} {m m' : Machine} {named : Nat → Prop}

theorem Falling.frames_bind {x : Exec α} {f : α → Exec β} (hx : Falling x) (hm : m.Ordered)
    (hf : ∀ a m', x m = .ok a m' → m'.Ordered → Frames named m' (f a m')) :
    Frames named m ((x >>= f) m) := by
  have hfalls := hx.falls hm
  cases hr : x m with
  | ok a m' =>
    rw [hr, endState_ok] at hfalls
    rw [bind_of_ok hr]
    exact hfalls.frames (hf a m' hr hfalls.ordered)
  | error e m' =>
    rw [hr] at hfalls
    rw [bind_of_error hr]
    exact Falls.toFrames hfalls

/-- The operation changes no cells but those of the stacks and of the dictionary's end. -/
def Framed (op : Exec α) : Prop :=
  ∀ m : Machine, m.Ordered → Frames (fun _ => False) m (op m)

namespace Framed

theorem of_falling {op : Exec α} (h : Falling op) : Framed op :=
  fun _ hm => (h.falls hm).toFrames

theorem bind {x : Exec α} {f : α → Exec β} (hx : Falling x) (hf : ∀ a, Framed (f a)) :
    Framed (x >>= f) :=
  fun _ hm => hx.frames_bind hm fun a m' _ hm' => hf a m' hm'

theorem onData {op : StackM α} (hop : Stack.Replaces op) : Framed (onData op) := by
  intro m hm
  obtain ⟨e, he⟩ | ⟨a, n, vs, hfits, hok⟩ := hop m.dataStack hm.dataStack
  · rw [onData_of_error he]
    exact Falls.toFrames (.refl hm)
  · rw [onData_of_ok hok]
    exact
      { here_le := Nat.le_refl _
        cells := fun hpos => by
          have hslot := hm.changed_replaceData hfits hpos
          exact .inl (.inl ⟨hslot.1, Nat.lt_of_lt_of_le hslot.2 (Nat.le_max_right ..)⟩)
        stackFault := fun he => by cases he }

theorem onReturn {op : StackM α} (hop : Stack.Replaces op) : Framed (onReturn op) := by
  intro m hm
  obtain ⟨e, he⟩ | ⟨a, n, vs, hfits, hok⟩ := hop m.returnStack hm.returnStack
  · rw [onReturn_of_error he]
    exact Falls.toFrames (.refl hm)
  · rw [onReturn_of_ok hok]
    exact
      { here_le := Nat.le_refl _
        cells := fun hpos => by
          have hslot := hm.changed_replaceReturn hfits hpos
          exact .inl (.inr (.inl ⟨hslot.1, Nat.lt_of_lt_of_le hslot.2 (Nat.le_max_right ..)⟩))
        stackFault := fun he => by cases he }

theorem push (c : Cell) : Framed (push c) := onData (Stack.replaces_push c)

theorem pushControl (address : Cell) (tag : ControlTag) : Framed (pushControl address tag) :=
  onData (Stack.replaces_pushTwo _ _)

theorem markForward : Framed markForward :=
  bind (.reg _) fun _ => bind (.compileCell _) fun _ => pushControl _ _

theorem markHere (tag : ControlTag) : Framed (markHere tag) :=
  bind (.reg _) fun _ => pushControl _ _

/-- Behind it may stand what always succeeds and touches neither memory nor a pointer. -/
theorem bind_still {x : Exec α} {f : α → Exec β} (hx : Framed x)
    (hf : ∀ a m, ∃ b m', f a m = .ok b m' ∧ m'.memory = m.memory ∧ m'.regs.here = m.regs.here ∧
      m'.regs.sp = m.regs.sp ∧ m'.regs.rp = m.regs.rp) : Framed (x >>= f) := by
  intro m hm
  refine (hx m hm).bind fun a m₁ _ => ?_
  obtain ⟨b, m₂, hok, hmemory, hhere, hsp, hrp⟩ := hf a m₁
  rw [hok]
  exact
    { cells := fun hpos => hpos (by rw [endState_ok, hmemory])
      here_eq := hhere
      sp_le := by
        rw [endState_ok, hsp]
        exact Nat.le_max_right ..
      rp_le := by
        rw [endState_ok, hrp]
        exact Nat.le_max_right ..
      fault := fun he => by cases he }

end Framed

/-! ### Words that move items between the stacks -/

theorem framed_toReturn : Framed (ReturnWord.toReturn).perform := by
  intro m hm
  have hlength := hm.dataStack.length_items
  match hitems : m.dataStack.items with
  | [] =>
    have hpeek : peek m = .error .stackUnderflow m :=
      onData_of_error (hm.dataStack.peek_of_nil hitems)
    show Frames _ m ((peek >>= _) m)
    rw [bind_of_error hpeek]
    exact Falls.toFrames (.refl hm)
  | x :: rest =>
    have hpeek : peek m = .ok x m := onData_of_ok (hm.dataStack.peek_of_cons hitems)
    rw [hitems, List.length_cons] at hlength
    show Frames _ m ((peek >>= _) m)
    rw [bind_of_ok hpeek]
    refine (Framed.onReturn (Stack.replaces_push x) m hm).bind fun a m' hpush => ?_
    -- The item is still there to be taken off, so this cannot fail any more.
    obtain ⟨e, he⟩ | ⟨a', n, vs, hfits, hok⟩ :=
      Stack.replaces_push x m.returnStack hm.returnStack
    · rw [onReturn_of_error he] at hpush
      cases hpush
    · rw [onReturn_of_ok hok] at hpush
      cases hpush
      have hm' := hm.replaceReturn hfits
      have hdrop : onData Stack.drop (m.replaceReturn n vs) =
          .ok () ((m.replaceReturn n vs).replaceData 1 []) :=
        onData_of_ok (hm'.dataStack.drop_of_fits
          ⟨by show 1 ≤ m.dataStack.size; omega, Nat.zero_le _⟩)
      show Closing _ m (m.replaceReturn n vs) (onData Stack.drop (m.replaceReturn n vs))
      rw [hdrop]
      exact
        { cells := fun hpos => hpos rfl
          here_eq := rfl
          sp_le := Nat.le_max_left ..
          rp_le := Nat.le_max_right ..
          fault := fun he => by cases he }

theorem framed_fromReturn : Framed (ReturnWord.fromReturn).perform := by
  intro m hm
  have hlength := hm.returnStack.length_items
  match hitems : m.returnStack.items with
  | [] =>
    have hpeek : onReturn Stack.peek m = .error .returnStackUnderflow m :=
      onReturn_of_error (hm.returnStack.peek_of_nil hitems)
    show Frames _ m ((onReturn Stack.peek >>= _) m)
    rw [bind_of_error hpeek]
    exact Falls.toFrames (.refl hm)
  | x :: rest =>
    have hpeek : onReturn Stack.peek m = .ok x m :=
      onReturn_of_ok (hm.returnStack.peek_of_cons hitems)
    rw [hitems, List.length_cons] at hlength
    show Frames _ m ((onReturn Stack.peek >>= _) m)
    rw [bind_of_ok hpeek]
    -- The push frames what is written; the drop that follows it writes nothing.
    refine (Framed.push x m hm).bind fun a m' hpush => ?_
    obtain ⟨e, he⟩ | ⟨a', n, vs, hfits, hok⟩ := Stack.replaces_push x m.dataStack hm.dataStack
    · rw [Exec.push, onData_of_error he] at hpush
      cases hpush
    · rw [Exec.push, onData_of_ok hok] at hpush
      cases hpush
      have hm' := hm.replaceData hfits
      have hdrop : onReturn Stack.drop (m.replaceData n vs) =
          .ok () ((m.replaceData n vs).replaceReturn 1 []) :=
        onReturn_of_ok (hm'.returnStack.drop_of_fits
          ⟨by show 1 ≤ m.returnStack.size; omega, Nat.zero_le _⟩)
      show Closing _ m (m.replaceData n vs) (onReturn Stack.drop (m.replaceData n vs))
      rw [hdrop]
      exact
        { cells := fun hpos => hpos rfl
          here_eq := rfl
          sp_le := Nat.le_max_right ..
          rp_le := Nat.le_max_left ..
          fault := fun he => by cases he }

/-! ### Words that write a cell they name -/

section Put

variable (pos : Nat) (c : Cell)

/-- Storing a cell changes that cell, or it is refused and changes nothing. -/
theorem put_cases (m : Machine) :
    onMemory (Memory.put pos c) m = .ok () { m with memory := m.memory.overlay pos [c] } ∨
      onMemory (Memory.put pos c) m = .error .invalidMemoryAddress m := by
  rcases Nat.lt_or_ge pos m.memory.size with hlt | hge
  · exact .inl (put_of_lt c hlt)
  · right
    rw [onMemory_eq, Memory.put_of_le c hge]

theorem eq_of_changed_overlay {i : Nat}
    (hi : m.Changed { m with memory := m.memory.overlay pos [c] } i) : i = pos := by
  by_contra hne
  refine hi ?_
  show (m.memory.overlay pos [c]).cells[i]? = _
  rw [Memory.cells_overlay, if_neg (by simp; omega)]

variable {pos}

theorem frames_put (hm : m.Ordered) (hnamed : named pos) :
    Frames named m (onMemory (Memory.put pos c) m) := by
  rcases put_cases pos c m with hok | herror
  · rw [hok]
    exact
      { here_le := Nat.le_refl _
        cells := fun hi => .inr (eq_of_changed_overlay pos c hi ▸ hnamed)
        stackFault := fun he => by cases he }
  · rw [herror]
    exact Falls.toFrames (.refl hm)

theorem closing_put (hnamed : named pos) :
    Closing named m m' (onMemory (Memory.put pos c) m') := by
  rcases put_cases pos c m' with hok | herror
  · rw [hok]
    exact
      { cells := fun hi => eq_of_changed_overlay pos c hi ▸ hnamed
        here_eq := rfl
        sp_le := Nat.le_max_right ..
        rp_le := Nat.le_max_right ..
        fault := fun he => by cases he }
  · rw [herror]
    exact
      { cells := fun hi => absurd rfl hi
        here_eq := rfl
        sp_le := Nat.le_max_right ..
        rp_le := Nat.le_max_right ..
        fault := fun he => by
          cases he
          rfl }

end Put

theorem frames_updateHeader (hm : m.Ordered) {address : Nat} (f : Cell → Cell)
    (hnamed : named (headerAddress address)) : Frames named m (updateHeader address f m) :=
  (Falling.settle _).frames_bind hm fun _ _ _ hm₁ =>
    (Falling.observe _).frames_bind hm₁ fun _ _ _ hm₂ => frames_put _ hm₂ hnamed

/-- The two words that store have looked at both operands before, so that taking them off cannot
fail any more. -/
theorem frames_store (hm : m.Ordered) {address x : Cell} {rest : List Cell} (c : Cell)
    (hitems : m.dataStack.items = address :: x :: rest) (hnamed : named address.toNat) :
    Frames named m ((do
      onMemory (Memory.put address.toNat c)
      onData Stack.dropTwo) m) := by
  refine (frames_put c hm hnamed).bind fun _ m' hput => ?_
  obtain hok | herror := put_cases address.toNat c m
  · rw [hok] at hput
    cases hput
    have hm' : ({ m with memory := m.memory.overlay address.toNat [c] } : Machine).Ordered :=
      { hm with returnLimit_eq := hm.returnLimit_eq.trans (Memory.size_overlay ..).symm }
    have hlength := hm.dataStack.length_items
    rw [hitems, List.length_cons, List.length_cons] at hlength
    have hfits : ({ m with memory := m.memory.overlay address.toNat [c] } : Machine).dataStack.Fits
        2 [] := ⟨by show 2 ≤ m.dataStack.size; omega, Nat.zero_le _⟩
    rw [onData_of_ok (hm'.dataStack.dropTwo_of_fits hfits)]
    exact
      { cells := fun hi => absurd rfl hi
        here_eq := rfl
        sp_le := Nat.le_max_left ..
        rp_le := Nat.le_max_left ..
        fault := fun he => by cases he }
  · rw [herror] at hput
    cases hput

/-- Looking at two operands is refused if there are fewer, and else gives them. -/
theorem frames_twoOperands (hm : m.Ordered) {f : Cell → Cell → Exec Unit}
    (hf : ∀ address x rest, m.dataStack.items = address :: x :: rest →
      Frames named m (f address x m)) :
    Frames named m ((do
      onData (Stack.require 2)
      let address ← onData (Stack.pick 0)
      let x ← onData (Stack.pick 1)
      f address x) m) := by
  match hitems : m.dataStack.items with
  | [] | [_] =>
    rw [bind_of_error (onData_of_error (hm.dataStack.require_of_lt (by simp [hitems])))]
    exact Falls.toFrames (.refl hm)
  | address :: x :: rest =>
    have hrequire : onData (Stack.require 2) m = .ok () m :=
      onData_of_ok (hm.dataStack.require_of_le (by simp [hitems]))
    have haddress : onData (Stack.pick 0) m = .ok address m :=
      onData_of_ok (hm.dataStack.pick_of_some (by simp [hitems]))
    have hx : onData (Stack.pick 1) m = .ok x m :=
      onData_of_ok (hm.dataStack.pick_of_some (by simp [hitems]))
    rw [bind_of_ok hrequire, bind_of_ok haddress, bind_of_ok hx]
    exact hf address x rest hitems

/-- Reading a record is refused only where memory ends. -/
theorem readRecord_error {memory : Memory} {address : Nat} {e : Fault}
    (h : (do
      let r ← memory.recordAt address
      memory.recordName r) = .error e) : e = .invalidMemoryAddress := by
  cases hlink : memory.get address with
  | error e' =>
    simp only [Memory.recordAt, hlink] at h
    cases h
    exact (Memory.get_eq_error_iff.mp hlink).2
  | ok link =>
    cases hheader : memory.get (address + 1) with
    | error e' =>
      simp only [Memory.recordAt, hlink, hheader] at h
      cases h
      exact (Memory.get_eq_error_iff.mp hheader).2
    | ok header =>
      simp only [Memory.recordAt, hlink, hheader] at h
      exact Memory.fault_of_getBytes h

/-- Noting that a definition is complete changes the journal at most, or finds no record. -/
theorem noteDefinition_cases (address : Cell) (m : Machine) :
    (∃ journal, noteDefinition address m = .ok () { m with journal := journal }) ∨
      noteDefinition address m = .error .invalidMemoryAddress m := by
  have hlook : (observe fun m => .ok (m.journal.admits .debug) : Exec Bool) m =
      .ok (m.journal.admits .debug) m := rfl
  unfold noteDefinition
  rw [bind_of_ok hlook]
  split
  · cases hname : (do
        let r ← m.memory.recordAt address.toNat
        m.memory.recordName r) with
    | error e =>
      right
      rw [← readRecord_error hname]
      exact bind_of_error (observe_of_error hname)
    | ok name =>
      refine .inl ⟨m.journal.record (.defined name (m.regs.here - address)), ?_⟩
      exact bind_of_ok (observe_of_ok hname)
  · exact .inl ⟨m.journal, rfl⟩

/-- Once a definition is revealed, the word that has done it changes no more cells. -/
theorem closing_noteDefinition (address : Cell) :
    Closing named m m' ((do
      setRegs fun regs => { regs with defining := 0, mode := .interpret }
      noteDefinition address) m') := by
  rw [bind_setRegs]
  obtain ⟨journal, hok⟩ | herror := noteDefinition_cases address
    { m' with regs := { m'.regs with defining := 0, mode := .interpret } }
  · rw [hok]
    exact
      { cells := fun hi => absurd rfl hi
        here_eq := rfl
        sp_le := Nat.le_max_right ..
        rp_le := Nat.le_max_right ..
        fault := fun he => by cases he }
  · rw [herror]
    exact
      { cells := fun hi => absurd rfl hi
        here_eq := rfl
        sp_le := Nat.le_max_right ..
        rp_le := Nat.le_max_right ..
        fault := fun he => by
          cases he
          rfl }

theorem frames_endDefinition (hm : m.Ordered) :
    Frames (fun pos => pos = headerAddress m.regs.defining.toNat) m (endDefinition m) := by
  refine (Falling.observe _).frames_bind hm fun _ m₁ hnesting hm₁ => ?_
  obtain rfl : m₁ = m := (observe_eq_ok_iff.mp hnesting).2
  refine (Falling.popControl _).frames_bind hm fun address m₂ hpop hm₂ => ?_
  have hdefining : m₂.regs.defining = m₁.regs.defining := by
    rw [popControl_eq_addressIn? hm] at hpop
    split at hpop
    · cases hpop
      rfl
    · cases hpop
  rw [← hdefining]
  refine (Falling.observe _).frames_bind hm₂ fun _ m₃ hdemand hm₃ => ?_
  -- The address that was taken off is that of the open definition.
  obtain ⟨hmet, rfl⟩ := observe_eq_ok_iff.mp hdemand
  obtain rfl : address = m₃.regs.defining := demand_eq_ok_iff.mp hmet
  refine (Falling.compileRuntime _).frames_bind hm₃ fun _ m₄ hcompile hm₄ => ?_
  refine Frames.bind (frames_updateHeader hm₄ _ rfl) fun _ _ _ => ?_
  exact closing_noteDefinition _

/-! ### Control structures -/

theorem popControl_ok (hm : m.Ordered) {tag : ControlTag} {address : Cell}
    (h : popControl tag m = .ok address m') :
    tag.addressIn? m.dataStack.items = some address ∧ m' = m.replaceData 2 [] ∧
      m.dataStack.Fits 2 [] := by
  have hlength := hm.dataStack.length_items
  rw [popControl_eq_addressIn? hm] at h
  split at h
  · rename_i found hfound
    cases h
    refine ⟨hfound, rfl, ?_, Nat.zero_le _⟩
    unfold ControlTag.addressIn? at hfound
    split at hfound
    · rename_i hitems
      rw [hitems, List.length_cons, List.length_cons] at hlength
      omega
    · cases hfound
  · cases h

theorem compileCell_ok (hm : m.Ordered) {c : Cell} {u : Unit} (h : compileCell c m = .ok u m') :
    m' = m.append [c] ∧ 0 < m.unused := by
  rw [compileCell_eq hm] at h
  split at h
  · rename_i hroom
    cases h
    exact ⟨rfl, hroom⟩
  · cases h

/-- Adding a cell to the dictionary leaves the items of the data stack alone. -/
theorem items_of_compileCell (hm : m.Ordered) {c : Cell} {u : Unit}
    (h : compileCell c m = .ok u m') : m'.dataStack.items = m.dataStack.items := by
  obtain ⟨rfl, hroom⟩ := compileCell_ok hm h
  have hunused := hm.here_add_unused
  exact items_overlay_of_le (m := m) (by rw [List.length_singleton]; omega)

theorem frames_resolveForward (hm : m.Ordered) {origin : Cell} (hnamed : named origin.toNat) :
    Frames named m (resolveForward origin m) := by
  show Frames named m ((reg (·.here) >>= _) m)
  rw [bind_reg]
  exact frames_put _ hm hnamed

theorem frames_closeThen (hm : m.Ordered)
    (hnamed : ∀ origin, ControlTag.origin.addressIn? m.dataStack.items = some origin →
      named origin.toNat) : Frames named m (ControlWord.closeThen.build m) :=
  (Falling.popControl _).frames_bind hm fun origin _ hpop hm₁ =>
    frames_resolveForward hm₁ (hnamed origin (popControl_ok hm hpop).1)

theorem frames_turnElse (hm : m.Ordered)
    (hnamed : ∀ origin, ControlTag.origin.addressIn? m.dataStack.items = some origin →
      named origin.toNat) : Frames named m (ControlWord.turnElse.build m) := by
  refine (Falling.popControl _).frames_bind hm fun origin m₁ hpop hm₁ => ?_
  refine (Falling.compileRuntime _).frames_bind hm₁ fun _ m₂ _ hm₂ => ?_
  refine Frames.bind ((Framed.markForward m₂ hm₂).mono fun _ h => h.elim) fun _ m₃ _ => ?_
  show Closing named m₂ m₃ ((reg (·.here) >>= _) m₃)
  rw [bind_reg]
  exact closing_put _ (hnamed origin (popControl_ok hm hpop).1)

theorem frames_closeRepeat (hm : m.Ordered)
    (hnamed : ∀ origin, ControlTag.origin.addressIn? (m.dataStack.items.drop 2) = some origin →
      named origin.toNat) : Frames named m (ControlWord.closeRepeat.build m) := by
  refine (Falling.popControl _).frames_bind hm fun destination m₁ hpop hm₁ => ?_
  obtain ⟨-, rfl, hfits⟩ := popControl_ok hm hpop
  have hitems : (m.replaceData 2 []).dataStack.items = m.dataStack.items.drop 2 :=
    hm.dataStack.items_replaced hfits
  refine (Falling.compileRuntime _).frames_bind hm₁ fun _ m₂ hcompile hm₂ => ?_
  refine (Falling.compileBackward _).frames_bind hm₂ fun _ m₃ hback hm₃ => ?_
  rw [← hitems, ← items_of_compileCell hm₁ hcompile,
    ← items_of_compileCell hm₂ (c := destination - m₂.regs.here) hback] at hnamed
  exact (Falling.popControl _).frames_bind hm₃ fun origin _ hpop' hm₄ =>
    frames_resolveForward hm₄ (hnamed origin (popControl_ok hm₃ hpop').1)

theorem Falling.falls_bind {m₀ : Machine} {x : Exec α} {f : α → Exec β} (hx : Falling x)
    (hm : m₀.Falls m)
    (hf : ∀ a m', x m = .ok a m' → m₀.Falls m' → m₀.Falls (endState (f a m'))) :
    m₀.Falls (endState ((x >>= f) m)) := by
  have hfalls := hx m₀ m hm
  obtain ⟨a, m', hok, hend⟩ | hend := endState_bind x f m
  · rw [hok] at hfalls
    rw [hend]
    exact hf a m' hok hfalls
  · rwa [hend]

/-- Two items may be put on a stack that has fallen by two. -/
theorem falls_pushControl {m₀ : Machine} (hm : m₀.Falls m)
    (hsp : m.regs.sp.toNat + 2 ≤ m₀.regs.sp.toNat) (address : Cell) (tag : ControlTag) :
    m₀.Falls (endState (pushControl address tag m)) := by
  have hordered := hm.ordered
  unfold pushControl
  by_cases hfits : m.dataStack.Fits 0 [address, tag.cell]
  · rw [onData_of_ok (hordered.dataStack.pushTwo_of_fits hfits)]
    have hpointer : (m.replaceData 0 [address, tag.cell]).regs.sp.toNat = m.regs.sp.toNat + 2 :=
      hordered.dataStack.toNat_pointer_replaced hfits
    have hle := hm.sp_le
    exact
      { ordered := hordered.replaceData hfits
        regions_eq := (regions_replaceData ..).trans hm.regions_eq
        sp_le := by
          show (m.replaceData 0 [address, tag.cell]).regs.sp.toNat ≤ _
          omega
        rp_le := hm.rp_le
        here_le := hm.here_le
        cells := fun {pos} hpos => by
          rcases hpos.or m with hfirst | hsecond
          · exact hm.cells hfirst
          · have hslot := hordered.changed_replaceData hfits hsecond
            rw [hm.dataBase_eq] at hslot
            exact .inl ⟨hslot.1, by omega⟩ }
  · rw [onData_of_error (hordered.dataStack.pushTwo_of_not_fits hfits)]
    exact hm

/-- The entry that `while` puts on top takes the room of the one that it has taken off, so the stack
is no higher than before when that one is put back. -/
theorem framed_turnWhile : Framed ControlWord.turnWhile.build := by
  intro m hm
  have hbuild : ControlWord.turnWhile.build =
      (popControl .destination >>= fun destination =>
        compileRuntime .zeroBranch >>= fun _ => markForward >>= fun _ => pure destination) >>=
      fun destination => pushControl destination .destination := by
    simp only [ControlWord.build, bind_assoc, pure_bind]
  rw [hbuild]
  refine Falling.frames_bind (.of_falls fun m hm => ?_) hm fun d m' _ hm' =>
    Framed.pushControl d _ m' hm'
  refine (Falling.popControl _).falls_bind (.refl hm) fun d m₁ hpop hfalls₁ => ?_
  obtain ⟨-, rfl, hfits⟩ := popControl_ok hm hpop
  have hsp : (m.replaceData 2 []).regs.sp.toNat + 2 ≤ m.regs.sp.toNat := by
    have hpointer : (m.replaceData 2 []).regs.sp.toNat = m.regs.sp.toNat - 2 :=
      hm.dataStack.toNat_pointer_replaced hfits
    have hsize : m.regs.dataBase.toNat + m.dataStack.size = m.regs.sp.toNat := hm.dataStack.size_eq
    have htwo := hfits.1
    omega
  refine (Falling.compileRuntime _).falls_bind hfalls₁ fun _ m₂ hcompile hfalls₂ => ?_
  obtain ⟨rfl, -⟩ := compileCell_ok hfalls₁.ordered hcompile
  rw [endState_bind_pure, markForward, bind_reg]
  refine (Falling.compileCell _).falls_bind hfalls₂ fun _ m₃ hcompile' hfalls₃ => ?_
  obtain ⟨rfl, -⟩ := compileCell_ok hfalls₂.ordered hcompile'
  exact falls_pushControl hfalls₃ hsp _ _

/-! ### Registering words -/

/-- What has been added to the dictionary may be changed once more. -/
theorem falls_put {m₀ : Machine} (hm : m₀.Falls m) {pos : Nat} (c : Cell)
    (hle : m₀.regs.here.toNat ≤ pos) (hlt : pos < m.regs.here.toNat) :
    m₀.Falls (endState (onMemory (Memory.put pos c) m)) := by
  have hordered := hm.ordered
  obtain hok | herror := put_cases pos c m
  · have hsize : (m.memory.overlay pos [c]).size = m.memory.size := Memory.size_overlay ..
    have hregions : ({ m with memory := m.memory.overlay pos [c] } : Machine).regions = m.regions :=
      regions_eq_iff.mpr ⟨rfl, rfl, rfl, rfl, hsize⟩
    rw [hok]
    exact
      { hm with
        ordered := { hordered with returnLimit_eq := hordered.returnLimit_eq.trans hsize.symm }
        regions_eq := hregions.trans hm.regions_eq
        cells := fun {i} hi => by
          rcases hi.or m with hfirst | hsecond
          · exact hm.cells hfirst
          · rw [eq_of_changed_overlay pos c hsecond]
            exact .inr (.inr ⟨hle, hlt⟩) }
  · rw [herror]
    exact hm

namespace Falling

theorem parseWord : Falling parseWord := fun m₀ => (Falls.deviceFree m₀).parseWord

theorem addRuntime (name : String) (action : Action) : Falling (addRuntime name action) :=
  fun _ => keeps_addRuntime (fun _ _ _ h => { h with ordered := { h.ordered with } }) name action

/-- The header that becomes immediate is that of the record that was added before. -/
theorem addImmediate (name : String) (action : Action) : Falling (addImmediate name action) := by
  refine of_falls fun m hm => ?_
  rw [Exec.addImmediate, Exec.addPrimitive, bind_assoc]
  refine (addRuntime name action).falls_bind (.refl hm) fun op m₁ _ hfalls₁ => ?_
  rw [bind_assoc]
  refine (createRecord _ op 0).falls_bind hfalls₁ fun r m₂ hcreate hfalls₂ => ?_
  obtain ⟨-, hroom, -, journal, rfl⟩ := createRecord_ok hfalls₁.ordered hcreate
  rw [pure_bind, endState_bind_pure, setImmediate, bind_reg]
  refine (settle _).falls_bind hfalls₂ fun _ m₃ hdemand hfalls₃ => ?_
  refine (observe _).falls_bind hfalls₃ fun header m₄ hfetch hfalls₄ => ?_
  obtain ⟨-, rfl⟩ := observe_eq_ok_iff.mp hdemand
  obtain ⟨-, rfl⟩ := observe_eq_ok_iff.mp hfetch
  have hhere : (m₁.addRecord (Text.bytes name) op 0 journal).regs.here.toNat =
      m₁.regs.here.toNat + Record.cellsFor (Text.bytes name).length :=
    (hfalls₁.ordered.toNat_here_append (by rwa [Record.length_cells])).trans
      (by rw [Record.length_cells])
  have hle := hfalls₁.here_le
  refine falls_put hfalls₄ _ ?_ ?_
  · show m.regs.here.toNat ≤ m₁.regs.here.toNat + 1
    omega
  · show m₁.regs.here.toNat + 1 < _
    rw [hhere, Record.cellsFor]
    omega

theorem addBuiltin (word : Builtin) : Falling (addBuiltin word) :=
  ite (bind (addImmediate _ _) fun _ => pure _)
    (bind (bind (addRuntime _ _) fun _ => bind (createRecord _ _ _) fun _ => pure _)
      fun _ => pure _)

theorem install (set : WordSet) : Falling (install set) := fun m₀ =>
  .forM fun word _ => addBuiltin word m₀

end Falling

theorem latest_of_addPrimitive (hm : m.Ordered) {name : String} {action : Action} {op : Cell}
    (h : addPrimitive name action m = .ok op m') : m'.regs.latest = m.regs.here := by
  obtain ⟨op', m₁, hadd, hrest⟩ := exists_of_bind_ok h
  obtain ⟨r, m₂, hcreate, hdone⟩ := exists_of_bind_ok hrest
  cases hdone
  have hfalls := (Falling.addRuntime name action).falls hm
  have hregs : m₁.regs = m.regs :=
    (keeps_addRuntime (P := fun m₁ => m₁.regs = m.regs) (fun _ _ _ => id) name action).of_ok
      hadd rfl
  rw [hadd] at hfalls
  obtain ⟨-, -, -, journal, rfl⟩ := createRecord_ok hfalls.ordered hcreate
  exact congrArg (·.here) hregs

/-- The newest record is that of the word that was registered last. -/
theorem latest_of_addBuiltin (hm : m.Ordered) {word : Builtin} {u : Unit}
    (h : addBuiltin word m = .ok u m') : m'.regs.latest = m.regs.here := by
  unfold addBuiltin at h
  split at h
  · obtain ⟨op, m₁, hadd, hdone⟩ := exists_of_bind_ok h
    obtain ⟨op', m₂, hprimitive, hrest⟩ := exists_of_bind_ok hadd
    obtain ⟨_, m₃, himmediate, hdone'⟩ := exists_of_bind_ok hrest
    cases hdone
    cases hdone'
    have hkeeps : Keeps (fun m₃ : Machine => m₃.regs = m₂.regs) setImmediate := by
      refine .bind (.reg _) fun _ => .bind (.settle _) fun _ =>
        .bind (.observe _) fun _ m₃ hm₃ => ?_
      rw [onMemory_eq]
      split <;> exact hm₃
    rw [hkeeps.of_ok himmediate rfl]
    exact latest_of_addPrimitive hm hprimitive
  · obtain ⟨op, m₁, hadd, hdone⟩ := exists_of_bind_ok h
    cases hdone
    exact latest_of_addPrimitive hm hadd

/-- When words have been registered, the newest record is behind the dictionary as it was. -/
theorem here_le_latest_of_install {set : WordSet} (hm : m.Ordered) {u : Unit}
    (h : install set m = .ok u m') : m.regs.here.toNat ≤ m'.regs.latest.toNat := by
  have hrun (words : List Builtin) (m₁ : Machine) (hfalls : m.Falls m₁)
      (hwords : words = [] → m.regs.here.toNat ≤ m₁.regs.latest.toNat)
      (hok : words.forM addBuiltin m₁ = .ok () m') : m.regs.here.toNat ≤ m'.regs.latest.toNat := by
    induction words generalizing m₁ with
    | nil =>
      cases hok
      exact hwords rfl
    | cons word words ih =>
      obtain ⟨_, m₂, hadd, hrest⟩ := exists_of_bind_ok hok
      have hfalls₂ := (Falling.addBuiltin word) m m₁ hfalls
      rw [hadd] at hfalls₂
      refine ih m₂ hfalls₂ (fun _ => ?_) hrest
      rw [latest_of_addBuiltin hfalls.ordered hadd]
      exact hfalls.here_le
  exact hrun set.words m (.refl hm) (fun hnil => by cases set <;> cases hnil) h

/-! ### Every action -/

end Exec

/-- The cell that an action names, apart from slots of a stack and what it adds to the dictionary:
the operand of a store, the header of a record, or a forward jump that waits for its target. -/
def Action.named? (action : Action) (m : Machine) : Option Nat :=
  match action with
  | .storage .store | .storage .addStore => m.dataStack.items.head?.map UInt16.toNat
  | .define .immediate => some (headerAddress m.regs.latest.toNat)
  | .define .semicolon => some (headerAddress m.regs.defining.toNat)
  | .control .closeThen | .control .turnElse =>
    (ControlTag.origin.addressIn? m.dataStack.items).map UInt16.toNat
  | .control .closeRepeat =>
    (ControlTag.origin.addressIn? (m.dataStack.items.drop 2)).map UInt16.toNat
  | _ => none

namespace Exec

variable {m : Machine}

/-- The word keeps to its frame, in which the given action may name a cell. -/
def Kept (action : Action) (op : Exec Unit) : Prop :=
  ∀ m : Machine, m.Ordered → Frames (fun pos => action.named? m = some pos) m (op m)

theorem Framed.kept {op : Exec Unit} (h : Framed op) (action : Action) : Kept action op :=
  fun m hm => (h m hm).mono fun _ hfalse => hfalse.elim

theorem kept_returns (word : ReturnWord) : Framed word.perform := by
  cases word with
  | toReturn => exact framed_toReturn
  | fromReturn => exact framed_fromReturn
  | fetchReturn => exact .bind (.onReturn (Stack.drops_pick 0)) fun _ => .push _
  | outerIndex => exact .bind (.onReturn (Stack.drops_pick 2)) fun _ => .push _
  | unloop => exact .of_falling (.onReturn Stack.drops_dropTwo)

theorem kept_storage (word : StorageWord) (hword : word ≠ .allot) :
    Kept (.storage word) word.perform := by
  intro m hm
  cases word with
  | fetch =>
    exact Framed.kept (.bind .peek fun _ => .bind (.observe _) fun _ =>
      .onData (Stack.replaces_set_zero _)) _ m hm
  | store =>
    refine frames_twoOperands hm fun address x rest hitems => frames_store hm x hitems ?_
    simp [Action.named?, hitems]
  | addStore =>
    refine frames_twoOperands hm fun address x rest hitems => ?_
    refine (Falling.observe _).frames_bind hm fun v m₁ hfetch hm₁ => ?_
    obtain rfl : m₁ = m := (observe_eq_ok_iff.mp hfetch).2
    refine frames_store hm _ hitems ?_
    simp [Action.named?, hitems]
  | comma =>
    exact Framed.kept (.of_falling (.bind .peek fun _ => .bind (.compileCell _) fun _ =>
      .onData Stack.drops_drop)) _ m hm
  | here => exact Framed.kept (.bind (.reg _) fun _ => .push _) _ m hm
  | allot => exact absurd rfl hword

theorem framed_radix (word : RadixWord) : Framed word.perform := by
  cases word with
  | decimal => exact .of_falling (.setBase 10)
  | hex => exact .of_falling (.setBase 16)
  | setBase =>
    exact .of_falling (.bind .peek fun _ => .bind (.settle _) fun _ => .bind (.setBase _) fun _ =>
      .onData Stack.drops_drop)
  | getBase => exact .bind (.reg _) fun _ => .push _

theorem framed_beginDefinition : Framed beginDefinition :=
  .bind (.observe _) fun _ => .bind .parseName fun _ => .bind (.createRecord _ _ _) fun _ =>
    .bind_still (.pushControl _ _) fun _ _ => ⟨(), _, rfl, rfl, rfl, rfl, rfl⟩

theorem kept_define (word : DefiningWord) : Kept (.define word) word.perform := by
  intro m hm
  have hfalling {op : Exec Unit} (hop : Falling op) :
      Frames (fun pos => (Action.define word).named? m = some pos) m (op m) :=
    (Framed.of_falling hop).kept _ m hm
  cases word with
  | colon => exact framed_beginDefinition.kept _ m hm
  | semicolon => exact (frames_endDefinition hm).mono fun _ hpos => congrArg some hpos.symm
  | immediate =>
    show Frames _ m ((reg (·.latest) >>= _) m)
    rw [bind_reg]
    exact frames_updateHeader hm _ rfl
  | create => exact hfalling .create
  | cellVariable => exact hfalling (.bind .create fun _ => .compileCell _)
  | constant =>
    exact hfalling (.bind .pop fun _ => .bind .parseName fun _ =>
      .bind (.createRecord _ _ _) fun _ => .compileCell _)
  | tick => exact Framed.kept (.bind .parseToken fun _ => .push _) _ m hm
  | bracketTick =>
    exact hfalling (.bind (.observe _) fun _ => .bind .parseToken fun _ => .compileInteger _)
  | leftBracket => exact hfalling (.bind (.observe _) fun _ => .setMode _)
  | rightBracket => exact hfalling (.bind (.observe _) fun _ => .setMode _)
  | literal => exact hfalling (.bind (.observe _) fun _ => .bind .pop fun _ => .compileInteger _)
  | recurse =>
    exact hfalling (.bind (.observe _) fun _ => .bind (.observe _) fun _ =>
      .bind (.observe _) fun _ => .compileCell _)
  | char => exact Framed.kept (.bind .parseChar fun _ => .push _) _ m hm
  | bracketChar =>
    exact hfalling (.bind (.observe _) fun _ => .bind .parseChar fun _ => .compileInteger _)
  | paren => exact hfalling (.bind (.parse _) fun _ => .pure _)
  | backslash => exact hfalling (.bind (.parse _) fun _ => .pure _)

theorem kept_build (word : ControlWord) : Kept (.control word) word.build := by
  intro m hm
  cases word with
  | openIf => exact Framed.kept (.bind (.compileRuntime _) fun _ => .markForward) _ m hm
  | turnElse => exact frames_turnElse hm fun origin horigin => by simp [Action.named?, horigin]
  | closeThen => exact frames_closeThen hm fun origin horigin => by simp [Action.named?, horigin]
  | openBegin => exact Framed.kept (.markHere _) _ m hm
  | closeUntil => exact Framed.kept (.of_falling (.closeBackward _ _)) _ m hm
  | closeAgain => exact Framed.kept (.of_falling (.closeBackward _ _)) _ m hm
  | turnWhile => exact framed_turnWhile.kept _ m hm
  | closeRepeat =>
    exact frames_closeRepeat hm fun origin horigin => by simp [Action.named?, horigin]
  | openDo => exact Framed.kept (.bind (.compileRuntime _) fun _ => .markHere _) _ m hm
  | closeLoop => exact Framed.kept (.of_falling (.closeBackward _ _)) _ m hm
  | closePlusLoop => exact Framed.kept (.of_falling (.closeBackward _ _)) _ m hm

theorem kept_control (word : ControlWord) : Kept (.control word) word.perform := fun m hm =>
  (Falling.observe _).frames_bind hm fun _ m₁ hlook hm₁ => by
    obtain rfl : m₁ = m := (observe_eq_ok_iff.mp hlook).2
    exact kept_build word m₁ hm₁

theorem framed_runtime (r : Runtime) : Framed r.perform := by
  cases r with
  | nest =>
    exact .bind (.reg _) fun _ => .bind_still (.onReturn (Stack.replaces_push _))
      fun _ _ => ⟨(), _, rfl, rfl, rfl, rfl, rfl⟩
  | address => exact .bind (.reg _) fun _ => .push _
  | constant => exact .bind (.reg _) fun _ => .bind (.observe _) fun _ => .push _
  | literal => exact .bind .operand fun _ => .push _
  | branch => exact .of_falling .branch
  | zeroBranch =>
    exact .of_falling (.bind (.observe _) fun _ => .bind .pop fun _ => .ite .branch .skipOperand)
  | enterLoop =>
    exact .bind (.observe _) fun _ => .bind (.onData (Stack.drops_require 2)) fun _ =>
      .bind .pop fun _ => .bind .pop fun _ => .onReturn (Stack.replaces_pushTwo _ _)
  | stepLoop => exact .of_falling (.stepLoop 1)
  | stepLoopBy =>
    exact .of_falling (.bind (.observe _) fun _ => .bind .pop fun _ => .stepLoop _)
  | print =>
    exact .of_falling (.bind .operand fun _ => .bind (.reg _) fun _ => .bind (.observe _) fun _ =>
      .bind (.setIp fun _ => _) fun _ => .write _)
  | exit => exact .of_falling (.bind (.onReturn Stack.drops_pop) fun _ => .setIp fun _ => _)

/-- Every action but `allot` keeps to its frame. -/
theorem kept_step (action : Action) (hallot : action ≠ .storage .allot) :
    Kept action action.step := by
  cases action with
  | stack word => exact Framed.kept (.onData (Stack.replaces_effect word)) _
  | returns word => exact (kept_returns word).kept _
  | unary word => exact Framed.kept (.onData (Stack.replaces_unary _)) _
  | binary word => exact Framed.kept (.onData (Stack.replaces_binary _)) _
  | divMod => exact Framed.kept (.onData Stack.replaces_divMod) _
  | storage word => exact kept_storage word fun h => hallot (congrArg _ h)
  | radix word => exact (framed_radix word).kept _
  | define word => exact kept_define word
  | control word => exact kept_control word
  | output word => exact Framed.kept (.of_falling (.outputWord word)) _
  | runtime r => exact (framed_runtime r).kept _
  | key => exact Framed.kept (.bind .readByte fun _ => .push _) _
  | parseWord => exact Framed.kept (.of_falling .parseWord) _
  | install set => exact Framed.kept (.of_falling (.install set)) _
  | value c => exact Framed.kept (.push c) _
  | noop => exact Framed.kept (.of_falling (.pure _)) _
  | execute => exact Framed.kept (.of_falling (.pure _)) _
  | resume => exact Framed.kept (.of_falling (.pure _)) _

/-- Taking items off the data stack writes nothing. -/
theorem exists_replaceData {op : StackM α} (hop : Stack.Drops op) (hm : m.dataStack.WithinBounds) :
    ∃ n, n ≤ m.dataStack.size ∧ endState (onData op m) = m.replaceData n [] := by
  obtain ⟨e, he⟩ | ⟨a, n, hn, hok⟩ := hop m.dataStack hm
  · refine ⟨0, Nat.zero_le _, ?_⟩
    rw [onData_of_error he, endState_error, replaceData, Stack.replaced_nil]
  · exact ⟨n, hn, by rw [onData_of_ok hok]; rfl⟩

/-- Moving the end of the dictionary writes nothing, though the end may come down. -/
theorem memory_step_allot (hm : m.Ordered) :
    (endState ((Action.storage .allot).step m)).memory = m.memory := by
  have hdata {α : Type} {op : StackM α} (hop : Stack.Drops op) :
      Keeps (fun m' => m'.memory = m.memory ∧ m'.dataStack.WithinBounds) (onData op) := by
    rintro m' ⟨hmemory, hbounds⟩
    obtain ⟨n, hn, hend⟩ := exists_replaceData hop hbounds
    rw [hend]
    exact ⟨hmemory, hbounds.replaced ⟨hn, Nat.zero_le _⟩⟩
  have hallot (n : Int) :
      Keeps (fun m' => m'.memory = m.memory ∧ m'.dataStack.WithinBounds) (allot n) := by
    rintro m' ⟨hmemory, hbounds⟩
    rw [allot_eq]
    split
    · split
      · exact ⟨hmemory, { hbounds with }⟩
      · exact ⟨hmemory, hbounds⟩
    · exact ⟨hmemory, hbounds⟩
  have hkeeps := Keeps.bind (hdata (Stack.drops_pick 0)) fun n =>
    Keeps.bind (hallot (Cell.signed n)) fun _ => hdata Stack.drops_drop
  exact (hkeeps m ⟨rfl, hm.dataStack⟩).1

/-! ### Words -/

/-- On the way to the final action only tokens are taken off the data stack. -/
theorem finalAction_falls (m : Machine) (xt : Cell) :
    Keeps (fun m' => m.Falls m' ∧ m'.memory = m.memory ∧ m'.regs.here = m.regs.here)
      (finalAction xt) := by
  refine finalAction_keeps ?_ (fun xt m' ⟨hfalls, hmemory, hhere⟩ =>
    ⟨Falling.setW xt m m' hfalls, hmemory, hhere⟩) xt
  rintro m' ⟨hfalls, hmemory, hhere⟩
  obtain ⟨n, hn, hend⟩ := exists_replaceData Stack.drops_pop hfalls.ordered.dataStack
  have hfalls' := Falling.pop m m' hfalls
  rw [pop, hend] at hfalls' ⊢
  exact ⟨hfalls', hmemory, hhere⟩

/-- What an action that does not hand over may change. -/
theorem conclude_changed (hm : m.Ordered) (action : Action) :
    (∀ pos, m.Changed (endState (conclude action m)) pos →
      m.InSlots (endState (conclude action m))
          (max m.regs.sp.toNat (endState (conclude action m)).regs.sp.toNat)
          (max m.regs.rp.toNat (endState (conclude action m)).regs.rp.toNat) pos ∨
        action.named? m = some pos) ∧
    ∀ e m', conclude action m = .error e m' → e.isStackFault = true →
      ∀ pos, m.Changed m' pos → m.InSlots m' m.regs.sp.toNat m.regs.rp.toNat pos := by
  by_cases hresume : action = .resume
  · subst hresume
    exact ⟨fun pos hpos => absurd rfl hpos, fun e m' he => by cases he⟩
  · rw [conclude.eq_2 _ hresume, endState_bind_pure]
    have herror {e : Fault} {m' : Machine}
        (he : (action.step >>= fun _ => pure Continuation.done) m = .error e m') :
        action.step m = .error e m' := by
      cases hstep : action.step m with
      | ok u m₁ =>
        rw [bind_of_ok hstep] at he
        cases he
      | error e₁ m₁ =>
        rw [bind_of_error hstep] at he
        cases he
        rfl
    by_cases hallot : action = .storage .allot
    · subst hallot
      have hmemory := memory_step_allot hm
      refine ⟨fun pos hpos => absurd (by rw [hmemory]) hpos, fun e m' he _ pos hpos => ?_⟩
      rw [herror he, endState_error] at hmemory
      exact absurd (by rw [hmemory]) hpos
    · have hframes := kept_step action hallot m hm
      exact ⟨fun pos hpos => hframes.cells hpos,
        fun e m' he hstack pos hpos => hframes.stackFault (herror he) hstack hpos⟩

/-- **What one word may write.** Let the word of any token run at a machine whose regions are in
order, and end in the machine `m'`, with success or with a fault. A cell that has changed lies in a
slot of the data stack or of the return stack below the higher of the two positions of its pointer,
or in what has been added to the dictionary, or it is the one cell that the action finally executed
names. If the fault is that of a stack, no cell that an action names has changed, and no slot that
was not live before. -/
theorem execute_changed {m : Machine} (hm : m.Ordered) (xt : Cell) :
    ∃ m', endState (execute xt m) = m' ∧
      (∀ pos, m.Changed m' pos →
        m.InSlots m' (max m.regs.sp.toNat m'.regs.sp.toNat) (max m.regs.rp.toNat m'.regs.rp.toNat)
            pos ∨
          ∃ action m₁, finalAction xt m = .ok action m₁ ∧ action.named? m₁ = some pos) ∧
      ∀ e, execute xt m = .error e m' → e.isStackFault = true →
        ∀ pos, m.Changed m' pos → m.InSlots m' m.regs.sp.toNat m.regs.rp.toNat pos := by
  refine ⟨_, rfl, ?_⟩
  rw [execute_eq_finalAction]
  obtain ⟨hfalls, hmemory, hhere⟩ := finalAction_falls m xt m ⟨.refl hm, rfl, rfl⟩
  cases hfinal : finalAction xt m with
  | error e m₁ =>
    rw [hfinal, endState_error] at hmemory
    rw [bind_of_error hfinal, endState_error]
    exact ⟨fun pos hpos => absurd (by rw [hmemory]) hpos,
      fun _ _ _ pos hpos => absurd (by rw [hmemory]) hpos⟩
  | ok action m₁ =>
    rw [hfinal, endState_ok] at hfalls hmemory hhere
    rw [bind_of_ok hfinal]
    obtain ⟨hcells, hstack⟩ := conclude_changed hfalls.ordered action
    have hsp := hfalls.sp_le
    have hrp := hfalls.rp_le
    -- Nothing has been written before the final action, so it has changed what has changed.
    have hsame {m' : Machine} {pos : Nat} (hpos : m.Changed m' pos) : m₁.Changed m' pos := by
      unfold Changed at hpos ⊢
      rwa [hmemory]
    have hslots {m' : Machine} {top returnTop top' returnTop' pos : Nat} (htop : top ≤ top')
        (hreturn : returnTop ≤ returnTop') (h : m₁.InSlots m' top returnTop pos) :
        m.InSlots m' top' returnTop' pos := by
      unfold InSlots at h ⊢
      rw [hfalls.dataBase_eq, hfalls.returnBase_eq, hhere] at h
      omega
    refine ⟨fun pos hpos => ?_, fun e he hfault pos hpos => ?_⟩
    · rcases hcells pos (hsame hpos) with hin | hnamed
      · exact .inl (hslots (by omega) (by omega) hin)
      · exact .inr ⟨action, m₁, rfl, hnamed⟩
    · exact hslots hsp hrp (hstack e _ he hfault pos (hsame hpos))

/-- A store that is reached through `execute`: the token is taken off, and the cell that changes is
the one that the operand below it names. -/
theorem execute_changed_by_store :
    ∃ (m m' m₁ : Machine) (action : Action), m.Ordered ∧ endState (execute 3 m) = m' ∧
      m.Changed m' 300 ∧ finalAction 3 m = .ok action m₁ ∧ action.named? m₁ = some 300 := by
  let m₀ := Machine.bare 400 ⟨320, 340, 400⟩ Source.empty {} .off
  let m : Machine :=
    { m₀ with
      memory := m₀.memory.overlay 320 [7, 300, 4]
      table := #[.noop, .noop, .noop, .execute, .storage .store]
      regs := { m₀.regs with here := 310, sp := 323 } }
  have hm : m.Ordered := by constructor <;> decide +kernel
  have hchanged : m.Changed (endState (execute 3 m)) 300 := by
    unfold Changed
    decide +kernel
  obtain ⟨m', hend, hcells, -⟩ := execute_changed hm 3
  rw [hend] at hchanged
  obtain hin | ⟨action, m₁, hfinal, hnamed⟩ := hcells 300 hchanged
  · -- The offset is below the end of the dictionary, hence in no slot of a stack either.
    have hdata : m.regs.dataBase.toNat = 320 := rfl
    have hreturn : m.regs.returnBase.toNat = 340 := rfl
    have hhere : m.regs.here.toNat = 310 := rfl
    unfold InSlots at hin
    omega
  · exact ⟨m, m', m₁, action, hm, hend, hchanged, hfinal, hnamed⟩

end Exec

end CellForth
