import CellForth.Proofs.Checked
import CellForth.Proofs.Regions

/-!
# No operation leaves its domain

The guards of `Checked` forms hold wherever a machine can get. Some of them hold because a check in
front of them was met, such as that a byte is taken from a name that has one, or that a row of cells
fits the dictionary. The others rest on the bounds between the registers, which no operation breaks
(`Machine.WithinRegions`): that the regions of the stacks are not upside down and lie in memory, and
that the register `base` holds a radix.

A form that does not give up ends as the operation does (`Checked.eq_of_run_eq_some`), so all that
can go wrong is a guard. `Checked.Sound` says that none does: from states with a property a form
runs through, with the result of the operation that it is a form of, and the property is kept. Such
forms can be put in a row, so the forms of words follow from those of stacks and the dictionary,
and with them, by induction on the steps of the two interpreters, the calls of a host. So a machine
on which any requests have been made, with any texts and streams, answers every further request
without leaving the domain of a partial operation (`Request.checked_eq`).
-/

namespace CellForth

/-! ### Sound forms -/

namespace Checked

variable {ε σ α β : Type} {I : σ → Prop}

theorem run_guarded {op : EStateM ε σ α} {domain : σ → Prop} [DecidablePred domain]
    {form : Checked op} {s : σ} (hdomain : domain s) (hrun : form.run s = some (op s)) :
    (guarded domain form).run s = some (op s) := by
  rw [run, if_pos hdomain, hrun]

/-- The steps behind the first may use how it has ended. -/
theorem run_bind {x : EStateM ε σ α} {f : α → EStateM ε σ β} {first : Checked x}
    {rest : (a : α) → Checked (f a)} {s : σ} (hfirst : first.run s = some (x s))
    (hrest : ∀ a t, x s = .ok a t → (rest a).run t = some (f a t)) :
    (bind first rest).run s = some ((x >>= f) s) := by
  rw [run, hfirst]
  cases h : x s with
  | ok a t =>
    rw [bind_of_ok h]
    exact hrest a t h
  | error e t => rw [bind_of_error h]

/-- A form gives up, or it ends as the operation does. -/
theorem eq_of_run_eq_some {op : EStateM ε σ α} {form : Checked op} {s : σ}
    {r : EStateM.Result ε σ α} (h : form.run s = some r) : r = op s := by
  induction form generalizing s with
  | plain op => exact (Option.some.inj h).symm
  | guarded domain form ih =>
    rw [run] at h
    split at h
    · exact ih h
    · cases h
  | bind first rest ihfirst ihrest =>
    rw [run] at h
    cases hfirst : first.run s with
    | none =>
      rw [hfirst] at h
      cases h
    | some r' =>
      rw [hfirst] at h
      have hx := (ihfirst hfirst).symm
      cases r' with
      | ok a t =>
        rw [bind_of_ok hx]
        exact ihrest a h
      | error e t =>
        rw [bind_of_error hx]
        exact (Option.some.inj h).symm
  | @ite _ c _ _ _ yes no ihyes ihno =>
    rw [run] at h
    by_cases hc : c
    · rw [if_pos hc] at h ⊢
      exact ihyes h
    · rw [if_neg hc] at h ⊢
      exact ihno h
  | congr heq form ih => exact heq ▸ ih h

/-- The steps behind a demand may use that it was met. -/
theorem run_bind_demand {p : σ → Prop} [DecidablePred p] {e : σ → ε} {f : Unit → EStateM ε σ β}
    {rest : (a : Unit) → Checked (f a)} {s : σ} (hrest : p s → (rest ()).run s = some (f () s)) :
    (bind (plain (observe fun s => demand (p s) (e s))) rest).run s =
      some ((observe (fun s => demand (p s) (e s)) >>= f) s) := by
  refine run_bind rfl fun _ t hdemand => ?_
  obtain ⟨hmet, rfl⟩ := observe_eq_ok_iff.mp hdemand
  exact hrest (demand_eq_ok_iff.mp hmet)

/-- From states with the property the form runs through, ends as the operation does, and keeps the
property. -/
def Sound (I : σ → Prop) {op : EStateM ε σ α} (form : Checked op) : Prop :=
  ∀ s, I s → form.run s = some (op s) ∧ I (endState (op s))

namespace Sound

variable {op : EStateM ε σ α}

theorem run_eq {form : Checked op} (h : form.Sound I) {s : σ} (hs : I s) :
    form.run s = some (op s) :=
  (h s hs).1

theorem keeps {form : Checked op} (h : form.Sound I) : Keeps I op :=
  fun s hs => (h s hs).2

theorem of_run {form : Checked op} (hrun : ∀ s, I s → form.run s = some (op s))
    (hkeeps : Keeps I op) : form.Sound I :=
  fun s hs => ⟨hrun s hs, hkeeps s hs⟩

theorem plain (h : Keeps I op) : (plain op).Sound I :=
  of_run (fun _ _ => rfl) h

theorem guarded {domain : σ → Prop} [DecidablePred domain] {form : Checked op}
    (hdomain : ∀ s, I s → domain s) (h : form.Sound I) : (guarded domain form).Sound I :=
  of_run (fun s hs => run_guarded (hdomain s hs) (h.run_eq hs)) h.keeps

theorem bind {x : EStateM ε σ α} {f : α → EStateM ε σ β} {first : Checked x}
    {rest : (a : α) → Checked (f a)} (hfirst : first.Sound I) (hrest : ∀ a, (rest a).Sound I) :
    (bind first rest).Sound I := by
  refine of_run (fun s hs => run_bind (hfirst.run_eq hs) fun a t ht => ?_)
    (.bind hfirst.keeps fun a => (hrest a).keeps)
  have hkept := hfirst.keeps s hs
  rw [ht] at hkept
  exact (hrest a).run_eq hkept

theorem demand_bind {p : Prop} [Decidable p] {e : ε} {f : Unit → EStateM ε σ β}
    {rest : (a : Unit) → Checked (f a)} (hrest : p → (rest ()).Sound I) :
    (Checked.bind (.plain (settle (demand p e))) rest).Sound I :=
  of_run (fun _ hs => run_bind_demand fun hp => (hrest hp).run_eq hs)
    (.demand_bind fun hp => (hrest hp).keeps)

theorem ite {c : Prop} [Decidable c] {x y : EStateM ε σ α} {yes : Checked x} {no : Checked y}
    (hyes : yes.Sound I) (hno : no.Sound I) : (ite (c := c) yes no).Sound I := by
  intro s hs
  rw [run]
  by_cases h : c
  · rw [if_pos h, if_pos h]
    exact hyes s hs
  · rw [if_neg h, if_neg h]
    exact hno s hs

theorem congr {x y : EStateM ε σ α} {form : Checked x} (heq : x = y) (h : form.Sound I) :
    (congr heq form).Sound I := by
  subst heq
  exact h

end Sound

end Checked

/-! ### Numbers -/

namespace Numeral

theorem lt_of_mem_valuesFrom {base acc v : Nat} {digits : List UInt8} (hbase : base ≤ 36)
    (hacc : acc ≤ 65535) (hv : v ∈ valuesFrom base acc digits) : v < 2 ^ 32 := by
  induction digits generalizing acc with
  | nil => cases hv
  | cons c rest ih =>
    rw [valuesFrom] at hv
    split at hv
    · cases hv
    · rename_i d _
      split at hv
      · rename_i hd
        obtain rfl | hrest := List.mem_cons.mp hv
        · -- The value before fits a cell, so one more digit leaves plenty of room.
          have hmul : acc * base ≤ 65535 * 36 := Nat.mul_le_mul hacc hbase
          omega
        · split at hrest
          · rename_i hfits
            exact ih hfits hrest
          · cases hrest
      · cases hv

theorem lt_of_mem_values {token : List UInt8} {base : Cell} {v : Nat}
    (hv : v ∈ values token base) : v < 2 ^ 32 := by
  rw [values] at hv
  split at hv
  · rename_i hbase
    exact lt_of_mem_valuesFrom hbase.2 (Nat.zero_le _) hv
  · cases hv

end Numeral

namespace Cell

/-- A division that is not refused has a divisor and a quotient. -/
theorem divisionInDomain (n d : Cell) : DivisionInDomain n d := by
  intro h
  have hn := signed_bounds n
  have hsome : ¬(signed d = 0 ∨ divisionOverflows n d = true) := by
    intro hnone
    simp [checkedDiv, checkedRem, hnone] at h
  obtain ⟨hd, hrange⟩ := not_or.mp hsome
  rw [divisionOverflows, decide_eq_true_iff] at hrange
  refine ⟨hd, ?_⟩
  by_cases hminus : signed d = -1
  · rw [hminus, Int.tdiv_neg, Int.tdiv_one]
    omega
  · by_cases hone : signed d = 1
    · rw [hone, Int.tdiv_one]
      exact hn
    · -- Any other divisor at least halves the dividend.
      have habs : ((signed n).tdiv (signed d)).natAbs ≤ (signed n).natAbs / 2 := by
        rw [Int.natAbs_tdiv]
        exact Nat.div_le_div_left (by omega) (by omega)
      omega

end Cell

/-! ### Stacks -/

namespace Stack

/-- The stack is in its bounds and has the given frame. -/
abbrev InFrame (g : Frame) (s : Stack) : Prop :=
  s.WithinBounds ∧ s.frame = g

theorem run_checkedPush (v : Cell) (s : Stack) : (checkedPush v).run s = some (push v s) := by
  refine Checked.run_guarded (fun hroom => ?_) rfl
  have hlt := UInt16.lt_iff_toNat_lt.mp hroom
  have hlimit := s.limit.toNat_lt
  omega

theorem checkedPush_sound (v : Cell) (g : Frame) : (checkedPush v).Sound (InFrame g) :=
  .of_run (fun s _ => run_checkedPush v s) (Safe.push v g)

theorem checkedPop_sound (g : Frame) : checkedPop.Sound (InFrame g) := by
  refine .guarded (fun s _ hitem => ?_) (.plain (Safe.pop g))
  have hlt := UInt16.not_le.mp (of_decide_eq_false hitem)
  exact Nat.lt_of_le_of_lt (Nat.zero_le _) (UInt16.lt_iff_toNat_lt.mp hlt)

theorem lt_pointer_of_lt_size {n : Nat} {s : Stack} (h : n < s.size) : n < s.pointer.toNat :=
  Nat.lt_of_lt_of_le h (Nat.sub_le _ _)

theorem checkedPick_sound (n : Nat) (g : Frame) : (checkedPick n).Sound (InFrame g) :=
  .guarded (fun _ _ => lt_pointer_of_lt_size) (.plain (Safe.pick n g))

theorem checkedSet_sound (n : Nat) (v : Cell) (g : Frame) : (checkedSet n v).Sound (InFrame g) :=
  .guarded (fun _ _ => lt_pointer_of_lt_size) (.plain (Safe.set n v g))

/-- The room can be computed because the range is not upside down. -/
theorem checkedRequireRoom_sound (n : Nat) (g : Frame) :
    (checkedRequireRoom n).Sound (InFrame g) := by
  refine .guarded (fun s hs => ?_) (.plain (Safe.observe _ g))
  have hsize := hs.1.size_eq
  have hpointer := hs.1.pointer_le
  unfold capacity
  omega

theorem checkedDrop_sound (g : Frame) : checkedDrop.Sound (InFrame g) :=
  .bind (checkedPop_sound g) fun _ => .plain (Safe.pure _ g)

theorem checkedDropTwo_sound (g : Frame) : checkedDropTwo.Sound (InFrame g) :=
  .bind (.plain (Safe.require 2 g)) fun _ => .bind (checkedDrop_sound g) fun _ =>
    checkedDrop_sound g

theorem checkedPushTwo_sound (x y : Cell) (g : Frame) : (checkedPushTwo x y).Sound (InFrame g) :=
  .bind (checkedRequireRoom_sound 2 g) fun _ => .bind (checkedPush_sound x g) fun _ =>
    checkedPush_sound y g

theorem checkedUnary_sound (f : Cell → Cell) (g : Frame) : (checkedUnary f).Sound (InFrame g) :=
  .bind (checkedPick_sound 0 g) fun _ => checkedSet_sound _ _ g

theorem checkedBinary_sound {domain : Cell → Cell → Prop} [∀ x y, Decidable (domain x y)]
    (hdomain : ∀ x y, domain x y) (f : Cell → Cell → Except Fault Cell) (g : Frame) :
    (checkedBinary f domain).Sound (InFrame g) :=
  .bind (.plain (Safe.require 2 g)) fun _ => .bind (checkedPick_sound 0 g) fun y =>
    .bind (checkedPick_sound 1 g) fun x =>
      .bind (.guarded (fun _ _ => hdomain x y) (.plain (Safe.settle _ g))) fun _ =>
        .bind (checkedDrop_sound g) fun _ => checkedSet_sound _ _ g

theorem checkedDivMod_sound (g : Frame) : checkedDivMod.Sound (InFrame g) := by
  refine .bind (.plain (Safe.require 2 g)) fun _ => .bind (checkedPick_sound 0 g) fun d =>
    .bind (checkedPick_sound 1 g) fun n => .bind (.plain (Safe.settle _ g)) fun _ =>
      .guarded (fun _ _ => Cell.divisionInDomain n d) ?_
  generalize Cell.checkedRem n d = r, Cell.checkedDiv n d = q
  match r, q with
  | some r, some q => exact .bind (checkedSet_sound 1 r g) fun _ => checkedSet_sound 0 q g
  | some r, none => exact .plain (.throw _)
  | none, q => exact .plain (.throw _)

theorem WithinBounds.sliceInMemory {s : Stack} (h : s.WithinBounds) : s.SliceInMemory := by
  have hsize := h.size_eq
  have hpointer := h.pointer_le
  have hlimit := h.limit_le
  unfold SliceInMemory
  omega

end Stack

open Stack in
theorem StackWord.checkedEffect_sound (word : StackWord) (g : Stack.Frame) :
    word.checkedEffect.Sound (Stack.InFrame g) := by
  have hpick (n : Nat) := checkedPick_sound n g
  have hset (n : Nat) (v : Cell) := checkedSet_sound n v g
  have hpush (v : Cell) := checkedPush_sound v g
  have hrequire (n : Nat) : (Checked.plain (require n)).Sound (InFrame g) :=
    .plain (Safe.require n g)
  cases word with
  | dup => exact .bind (hpick 0) fun _ => hpush _
  | drop => exact checkedDrop_sound g
  | swap =>
    exact .bind (hrequire 2) fun _ => .bind (hpick 0) fun _ => .bind (hpick 1) fun _ =>
      .bind (hset _ _) fun _ => hset _ _
  | copySecond => exact .bind (hpick 1) fun _ => hpush _
  | rot | minusRot =>
    exact .bind (hrequire 3) fun _ => .bind (hpick 0) fun _ => .bind (hpick 1) fun _ =>
      .bind (hpick 2) fun _ => .bind (hset _ _) fun _ => .bind (hset _ _) fun _ => hset _ _
  | nip => exact .bind (hrequire 2) fun _ => .bind (checkedPop_sound g) fun _ => hset _ _
  | tuck =>
    exact .bind (hrequire 2) fun _ => .bind (hpick 0) fun _ => .bind (hpick 1) fun _ =>
      .bind (hpush _) fun _ => .bind (hset _ _) fun _ => hset _ _
  | pick => exact .bind (hpick 0) fun _ => .bind (hpick _) fun _ => hset _ _
  | questionDup => exact .bind (hpick 0) fun _ => .ite (hpush _) (.plain (Safe.pure _ g))
  | twoDup =>
    exact .bind (hrequire 2) fun _ => .bind (checkedRequireRoom_sound 2 g) fun _ =>
      .bind (hpick 0) fun _ => .bind (hpick 1) fun _ => .bind (hpush _) fun _ => hpush _
  | twoDrop => exact checkedDropTwo_sound g
  | twoSwap =>
    exact .bind (hrequire 4) fun _ => .bind (hpick 0) fun _ => .bind (hpick 1) fun _ =>
      .bind (hpick 2) fun _ => .bind (hpick 3) fun _ => .bind (hset _ _) fun _ =>
        .bind (hset _ _) fun _ => .bind (hset _ _) fun _ => hset _ _
  | twoOver =>
    exact .bind (hrequire 4) fun _ => .bind (checkedRequireRoom_sound 2 g) fun _ =>
      .bind (hpick 2) fun _ => .bind (hpick 3) fun _ => .bind (hpush _) fun _ => hpush _
  | depth => exact .bind (.plain (Safe.observe _ g)) fun _ => hpush _

theorem StackRequest.checked_sound (request : StackRequest) (g : Stack.Frame) :
    request.checked.Sound (Stack.InFrame g) := by
  have hpure (answer : Answer) : (Checked.plain (pure answer : StackM Answer)).Sound
      (Stack.InFrame g) := .plain (Stack.Safe.pure answer g)
  cases request with
  | push c => exact .bind (Stack.checkedPush_sound c g) fun _ => hpure _
  | pop => exact .bind (Stack.checkedPop_sound g) fun _ => hpure _
  | peek => exact .bind (Stack.checkedPick_sound 0 g) fun _ => hpure _
  | pick n => exact .bind (Stack.checkedPick_sound n g) fun _ => hpure _
  | set n c => exact .bind (Stack.checkedSet_sound n c g) fun _ => hpure _
  | require n => exact .plain (Stack.Safe.perform (.require n) g)
  | size => exact .plain (Stack.Safe.perform .size g)
  | isEmpty => exact .plain (Stack.Safe.perform .isEmpty g)
  | capacity =>
    exact .guarded (fun _ hs => Nat.le_trans hs.1.base_le hs.1.pointer_le)
      (.plain (Stack.Safe.perform .capacity g))
  | items =>
    exact .guarded (fun _ hs => hs.1.sliceInMemory) (.plain (Stack.Safe.perform .items g))

-- Out of its bounds, a stack has neither a capacity nor items.
example : (StackRequest.checked .capacity).run ⟨Memory.zeroed 4, 3, 3, 2, .data⟩ = none := rfl

example : (StackRequest.checked .items).run ⟨Memory.zeroed 4, 6, 3, 8, .data⟩ = none := rfl

/-! ### The dictionary -/

open Elementary (withinRegions)
open Machine (WithinRegions)

namespace Exec

variable {α : Type}

theorem checkedOnData_sound {op : StackM α} {form : Checked op}
    (h : ∀ g, form.Sound (Stack.InFrame g)) : (checkedOnData form).Sound WithinRegions := by
  refine .guarded (fun m hm => ?_) (.plain (withinRegions.onData fun g => (h g).keeps))
  rw [(h _).run_eq ⟨hm.dataStack, rfl⟩]
  rfl

theorem checkedOnReturn_sound {op : StackM α} {form : Checked op}
    (h : ∀ g, form.Sound (Stack.InFrame g)) : (checkedOnReturn form).Sound WithinRegions := by
  refine .guarded (fun m hm => ?_) (.plain (withinRegions.onReturn fun g => (h g).keeps))
  rw [(h _).run_eq ⟨hm.returnStack, rfl⟩]
  rfl

theorem checkedPush_sound (c : Cell) : (checkedPush c).Sound WithinRegions :=
  checkedOnData_sound (Stack.checkedPush_sound c)

theorem checkedPop_sound : checkedPop.Sound WithinRegions :=
  checkedOnData_sound Stack.checkedPop_sound

theorem checkedPeek_sound : checkedPeek.Sound WithinRegions :=
  checkedOnData_sound (Stack.checkedPick_sound 0)

theorem run_bind_reg {β : Type} {f : Registers → α} {k : α → Exec β}
    {rest : (a : α) → Checked (k a)} {m : Machine}
    (hrest : (rest (f m.regs)).run m = some (k (f m.regs) m)) :
    (Checked.bind (.plain (reg f)) rest).run m = some ((reg f >>= k) m) :=
  hrest

/-- A cell is added below the data stack, so the end of the dictionary can be incremented. -/
theorem run_checkedCompileCell (c : Cell) (m : Machine) :
    (checkedCompileCell c).run m = some (compileCell c m) := by
  refine Checked.run_bind_demand fun hroom => ?_
  refine run_bind_reg (Checked.run_bind rfl fun _ _ _ => Checked.run_guarded ?_ rfl)
  have hlt := m.regs.dataBase.toNat_lt
  unfold Machine.unused at hroom
  omega

theorem run_checkedPackBytes {bs : List UInt8} {m : Machine} (h : m.Ordered)
    (hroom : packedLength bs.length ≤ m.unused) :
    (checkedPackBytes bs).run m = some (packBytes bs m) := by
  refine run_bind_reg (Checked.run_bind rfl fun _ _ _ => Checked.run_guarded ?_ rfl)
  have hunused := h.here_add_unused
  have hlt := m.regs.dataBase.toNat_lt
  omega

theorem checkedCompileCell_sound (c : Cell) : (checkedCompileCell c).Sound WithinRegions :=
  .of_run (fun m _ => run_checkedCompileCell c m) (withinRegions.compileCell c)

theorem checkedCompileString_sound (bs : List UInt8) :
    (checkedCompileString bs).Sound WithinRegions := by
  refine .of_run (fun m hm => ?_) (withinRegions.compileString bs)
  refine Checked.run_bind_demand fun hroom => ?_
  have hone : [UInt16.ofNat bs.length].length ≤ m.unused := by
    rw [List.length_singleton]
    omega
  refine Checked.run_bind (run_checkedCompileCell _ _) fun _ t hcell => ?_
  rw [compileCell_of_room hm.ordered (by omega)] at hcell
  cases hcell
  refine run_checkedPackBytes (hm.ordered.append hone) ?_
  rw [hm.unused_append hone, List.length_singleton]
  omega

/-- The new end of the dictionary is not above the data stack. -/
theorem checkedAllot_sound (n : Int) : (checkedAllot n).Sound WithinRegions := by
  refine .of_run (fun m hm => run_bind_reg ?_) (withinRegions.allot n)
  refine Checked.run_bind_demand fun hbelow => Checked.run_bind_demand fun habove => ?_
  have hlt := m.regs.dataBase.toNat_lt
  exact Checked.run_guarded (by omega) rfl

/-- All cells of a record find the room that the check in front of them has made sure of. -/
theorem checkedCreateRecord_sound (name : List UInt8) (code flags : Cell) :
    (checkedCreateRecord name code flags).Sound WithinRegions := by
  refine .of_run (fun m hm => ?_) (withinRegions.createRecord name code flags)
  refine Checked.run_bind_demand fun _ => Checked.run_bind_demand fun _ =>
    Checked.run_bind_demand fun hroom => ?_
  -- A notice goes to the journal, which has no part in what follows.
  refine Checked.run_bind rfl fun _ m₀ hnote => ?_
  obtain ⟨journal, hok⟩ := noteRedefinition_eq name m
  rw [hok] at hnote
  cases hnote
  refine run_bind_reg (run_bind_reg ?_)
  have hordered : ({ m with journal := journal } : Machine).Ordered := { hm.ordered with }
  have hroom₀ : Record.cellsFor name.length ≤ ({ m with journal := journal } : Machine).unused :=
    hroom
  unfold Record.cellsFor at hroom₀
  -- A single cell is checked again when it is added; packed bytes are not, and need the room that
  -- is left behind link and header.
  refine Checked.run_bind (run_checkedCompileCell _ _) fun _ m₁ hlink => ?_
  rw [compileCell_of_room hordered (by omega)] at hlink
  cases hlink
  refine Checked.run_bind (run_checkedCompileCell _ _) fun _ m₂ hheader => ?_
  rw [compileCell_append hordered (by simp; omega)] at hheader
  cases hheader
  refine Checked.run_bind (run_checkedPackBytes (hordered.append (by simp; omega)) ?_) fun _ m₃ _ =>
    Checked.run_bind (run_checkedCompileCell code m₃) fun _ _ _ => rfl
  rw [hordered.unused_append (by simp; omega)]
  simp
  omega

/-! ### Words -/

theorem checkedCompileInteger_sound (c : Cell) : (checkedCompileInteger c).Sound WithinRegions :=
  .bind (checkedCompileCell_sound _) fun _ => checkedCompileCell_sound c

theorem checkedCompileReference_sound (r : Record) :
    (checkedCompileReference r).Sound WithinRegions :=
  .bind (.plain (.observe _)) fun _ =>
    .ite (checkedCompileCell_sound _) (checkedCompileCell_sound _)

theorem checkedPushControl_sound (address : Cell) (tag : ControlTag) :
    (checkedPushControl address tag).Sound WithinRegions :=
  checkedOnData_sound (Stack.checkedPushTwo_sound _ _)

theorem checkedPopControl_sound (tag : ControlTag) : (checkedPopControl tag).Sound WithinRegions :=
  .bind (.plain (.observe _)) fun _ => .bind checkedPeek_sound fun _ =>
    .bind (.plain (.settle _)) fun _ => .bind checkedPop_sound fun _ => checkedPop_sound

theorem checkedMarkForward_sound : checkedMarkForward.Sound WithinRegions :=
  .bind (.plain (.reg _)) fun _ => .bind (checkedCompileCell_sound _) fun _ =>
    checkedPushControl_sound _ _

theorem checkedCompileBackward_sound (destination : Cell) :
    (checkedCompileBackward destination).Sound WithinRegions :=
  .bind (.plain (.reg _)) fun _ => checkedCompileCell_sound _

theorem checkedMarkHere_sound (tag : ControlTag) : (checkedMarkHere tag).Sound WithinRegions :=
  .bind (.plain (.reg _)) fun _ => checkedPushControl_sound _ _

theorem ne_nil_of_parseName {name : List UInt8} {m m' : Machine}
    (h : parseName m = .ok name m') : name ≠ [] := by
  unfold parseName at h
  cases hword : parseWord m with
  | error e t =>
    rw [bind_of_error hword] at h
    cases h
  | ok a t =>
    rw [bind_of_ok hword] at h
    obtain ⟨hlook, -⟩ := observe_eq_ok_iff.mp h
    split at hlook
    · cases hlook
    · rename_i hne
      cases hlook
      exact fun hnil => hne (List.isEmpty_iff.mpr hnil)

/-- The end of input is a fault, so the first byte is taken from a name that has one. -/
theorem checkedParseChar_sound : checkedParseChar.Sound WithinRegions :=
  .of_run
    (fun _ _ => Checked.run_bind rfl fun _ _ hname =>
      Checked.run_guarded (ne_nil_of_parseName hname) rfl)
    withinRegions.hereditary.parseChar

theorem checkedBeginDefinition_sound : checkedBeginDefinition.Sound WithinRegions :=
  .bind (.plain (.observe _)) fun _ => .bind (.plain withinRegions.hereditary.parseName) fun _ =>
    .bind (checkedCreateRecord_sound _ _ _) fun _ => .bind (checkedPushControl_sound _ _) fun _ =>
      .plain (.bind (withinRegions.setDefinition _ _) fun _ => withinRegions.report _)

theorem checkedEndDefinition_sound : checkedEndDefinition.Sound WithinRegions :=
  .bind (.plain (.observe _)) fun _ => .bind (checkedPopControl_sound _) fun _ =>
    .bind (.plain (.observe _)) fun _ => .bind (checkedCompileCell_sound _) fun _ =>
      .plain (.bind (withinRegions.hereditary.reveal _) fun _ =>
        .bind (withinRegions.setDefinition _ _) fun _ => withinRegions.noteDefinition _)

theorem checkedCreate_sound : checkedCreate.Sound WithinRegions :=
  .bind (.plain withinRegions.hereditary.parseName) fun _ =>
    .bind (checkedCreateRecord_sound _ _ _) fun _ => .plain (.pure _)

theorem checkedMakeConstant_sound : checkedMakeConstant.Sound WithinRegions :=
  .bind checkedPop_sound fun _ => .bind (.plain withinRegions.hereditary.parseName) fun _ =>
    .bind (checkedCreateRecord_sound _ _ _) fun _ => checkedCompileCell_sound _

theorem checkedCompileSelf_sound : checkedCompileSelf.Sound WithinRegions :=
  .bind (.plain (.observe _)) fun _ => .bind (.plain (.observe _)) fun _ =>
    .bind (.plain (.observe _)) fun _ => checkedCompileCell_sound _

theorem checkedStepLoop_sound (n : Cell) : (checkedStepLoop n).Sound WithinRegions :=
  .bind (.plain (.observe _)) fun _ => .bind (.plain (withinRegions.onReturn (.require _))) fun _ =>
    .bind (checkedOnReturn_sound (Stack.checkedPick_sound 0)) fun _ =>
      .bind (checkedOnReturn_sound (Stack.checkedPick_sound 1)) fun _ =>
        .ite
          (.bind (checkedOnReturn_sound Stack.checkedDrop_sound) fun _ =>
            .bind (checkedOnReturn_sound Stack.checkedDrop_sound) fun _ =>
              .plain withinRegions.hereditary.skipOperand)
          (.bind (checkedOnReturn_sound (Stack.checkedSet_sound _ _)) fun _ =>
            .plain withinRegions.hereditary.branch)

/-- The register `base` holds a radix. -/
theorem checkedWriteNumber_sound (text : Nat → List UInt8) :
    (checkedWriteNumber text).Sound WithinRegions :=
  .of_run
    (fun _ hm => run_bind_reg (Checked.run_bind
      (Checked.run_guarded ⟨hm.two_le_base, hm.base_le⟩ rfl) fun _ _ _ => rfl))
    (.bind (.reg _) fun _ => .bind (withinRegions.write _) fun _ => withinRegions.write _)

end Exec

open Exec

theorem ReturnWord.checked_sound (word : ReturnWord) : word.checked.Sound WithinRegions := by
  have hpeek := checkedOnReturn_sound (Stack.checkedPick_sound 0)
  cases word with
  | toReturn =>
    exact .bind checkedPeek_sound fun _ => .bind (checkedOnReturn_sound (Stack.checkedPush_sound _))
      fun _ => checkedOnData_sound Stack.checkedDrop_sound
  | fromReturn =>
    exact .bind hpeek fun _ => .bind (checkedPush_sound _) fun _ =>
      checkedOnReturn_sound Stack.checkedDrop_sound
  | fetchReturn => exact .bind hpeek fun _ => checkedPush_sound _
  | outerIndex =>
    exact .bind (checkedOnReturn_sound (Stack.checkedPick_sound 2)) fun _ => checkedPush_sound _
  | unloop => exact checkedOnReturn_sound Stack.checkedDropTwo_sound

theorem BinaryWord.checked_sound (word : BinaryWord) : word.checked.Sound WithinRegions :=
  checkedOnData_sound (Stack.checkedBinary_sound (fun x y _ => Cell.divisionInDomain x y) _)

theorem StorageWord.checked_sound (word : StorageWord) : word.checked.Sound WithinRegions := by
  have hdrop := checkedOnData_sound Stack.checkedDrop_sound
  have hdropTwo := checkedOnData_sound Stack.checkedDropTwo_sound
  have hpick (n : Nat) : (checkedOnData (Stack.checkedPick n)).Sound WithinRegions :=
    checkedOnData_sound (Stack.checkedPick_sound n)
  have hrequire : Keeps WithinRegions (onData (Stack.require 2)) :=
    withinRegions.onData (.require _)
  cases word with
  | fetch =>
    exact .bind checkedPeek_sound fun _ => .bind (.plain (.observe _)) fun _ =>
      checkedOnData_sound (Stack.checkedSet_sound _ _)
  | store =>
    exact .bind (.plain hrequire) fun _ => .bind (hpick 0) fun _ => .bind (hpick 1) fun _ =>
      .bind (.plain (withinRegions.put _ _)) fun _ => hdropTwo
  | addStore =>
    exact .bind (.plain hrequire) fun _ => .bind (hpick 0) fun _ => .bind (hpick 1) fun _ =>
      .bind (.plain (.observe _)) fun _ => .bind (.plain (withinRegions.put _ _)) fun _ => hdropTwo
  | comma =>
    exact .bind checkedPeek_sound fun _ => .bind (checkedCompileCell_sound _) fun _ => hdrop
  | here => exact .bind (.plain (.reg _)) fun _ => checkedPush_sound _
  | allot => exact .bind checkedPeek_sound fun _ => .bind (checkedAllot_sound _) fun _ => hdrop

/-- Only a radix gets into the register `base`. -/
theorem RadixWord.checked_sound (word : RadixWord) : word.checked.Sound WithinRegions := by
  cases word with
  | decimal => exact .plain (withinRegions.hereditary.radixWord .decimal)
  | hex => exact .plain (withinRegions.hereditary.radixWord .hex)
  | setBase =>
    exact .bind checkedPeek_sound fun base => .demand_bind fun hbase =>
      .bind (.plain (withinRegions.setBase base hbase)) fun _ =>
        checkedOnData_sound Stack.checkedDrop_sound
  | getBase => exact .bind (.plain (.reg _)) fun _ => checkedPush_sound _

theorem ControlWord.checkedBuild_sound (word : ControlWord) :
    word.checkedBuild.Sound WithinRegions := by
  have hclose (tag : ControlTag) (r : Runtime) :
      (Checked.bind (checkedPopControl tag) fun destination =>
        .bind (checkedCompileCell r.opcode) fun _ => checkedCompileBackward destination).Sound
          WithinRegions :=
    .bind (checkedPopControl_sound _) fun _ => .bind (checkedCompileCell_sound _) fun _ =>
      checkedCompileBackward_sound _
  cases word with
  | openIf => exact .bind (checkedCompileCell_sound _) fun _ => checkedMarkForward_sound
  | turnElse =>
    exact .bind (checkedPopControl_sound _) fun _ => .bind (checkedCompileCell_sound _) fun _ =>
      .bind checkedMarkForward_sound fun _ => .plain (withinRegions.hereditary.resolveForward _)
  | closeThen =>
    exact .bind (checkedPopControl_sound _) fun _ =>
      .plain (withinRegions.hereditary.resolveForward _)
  | openBegin => exact checkedMarkHere_sound _
  | closeUntil => exact hclose _ .zeroBranch
  | closeAgain => exact hclose _ .branch
  | turnWhile =>
    exact .bind (checkedPopControl_sound _) fun _ => .bind (checkedCompileCell_sound _) fun _ =>
      .bind checkedMarkForward_sound fun _ => checkedPushControl_sound _ _
  | closeRepeat =>
    exact .bind (checkedPopControl_sound _) fun _ => .bind (checkedCompileCell_sound _) fun _ =>
      .bind (checkedCompileBackward_sound _) fun _ => .bind (checkedPopControl_sound _) fun _ =>
        .plain (withinRegions.hereditary.resolveForward _)
  | openDo => exact .bind (checkedCompileCell_sound _) fun _ => checkedMarkHere_sound _
  | closeLoop => exact hclose _ .stepLoop
  | closePlusLoop => exact hclose _ .stepLoopBy

theorem DefiningWord.checked_sound (word : DefiningWord) : word.checked.Sound WithinRegions := by
  cases word with
  | colon => exact checkedBeginDefinition_sound
  | semicolon => exact checkedEndDefinition_sound
  | immediate => exact .plain withinRegions.hereditary.setImmediate
  | create => exact checkedCreate_sound
  | cellVariable => exact .bind checkedCreate_sound fun _ => checkedCompileCell_sound _
  | constant => exact checkedMakeConstant_sound
  | tick => exact .bind (.plain withinRegions.hereditary.parseToken) fun _ => checkedPush_sound _
  | bracketTick =>
    exact .bind (.plain (.observe _)) fun _ =>
      .bind (.plain withinRegions.hereditary.parseToken) fun _ => checkedCompileInteger_sound _
  | leftBracket => exact .plain (withinRegions.lasting.step (.define .leftBracket))
  | rightBracket => exact .plain (withinRegions.lasting.step (.define .rightBracket))
  | literal =>
    exact .bind (.plain (.observe _)) fun _ => .bind checkedPop_sound fun _ =>
      checkedCompileInteger_sound _
  | recurse => exact checkedCompileSelf_sound
  | char => exact .bind checkedParseChar_sound fun _ => checkedPush_sound _
  | bracketChar =>
    exact .bind (.plain (.observe _)) fun _ => .bind checkedParseChar_sound fun _ =>
      checkedCompileInteger_sound _
  | paren => exact .plain (withinRegions.lasting.step (.define .paren))
  | backslash => exact .plain (withinRegions.lasting.step (.define .backslash))

theorem OutputWord.checked_sound (word : OutputWord) : word.checked.Sound WithinRegions := by
  cases word with
  | emit => exact .bind checkedPop_sound fun _ => .plain (withinRegions.write _)
  | dot => exact .bind checkedPop_sound fun _ => checkedWriteNumber_sound _
  | unsignedDot => exact .bind checkedPop_sound fun _ => checkedWriteNumber_sound _
  | newline => exact .plain (withinRegions.write _)
  | space => exact .plain (withinRegions.write _)
  | spaces =>
    exact .bind checkedPop_sound fun _ => .plain (.ite (withinRegions.write _) (.pure _))
  | dotQuote =>
    exact .bind (.plain (withinRegions.lasting.parse _)) fun _ => .bind (.plain (.reg _)) fun _ =>
      .ite (.bind (checkedCompileCell_sound _) fun _ => checkedCompileString_sound _)
        (.plain (withinRegions.write _))
  | words => exact .plain (withinRegions.lasting.step (.output .words))
  | showStack =>
    exact .bind
      (.guarded (fun _ hm => ⟨hm.dataStack.sliceInMemory, by decide, hm.two_le_base, hm.base_le⟩)
        (.plain (.observe _)))
      fun _ => .plain (withinRegions.write _)

theorem Runtime.checked_sound (r : Runtime) : r.checked.Sound WithinRegions := by
  cases r with
  | nest =>
    exact .bind (.plain (.reg _)) fun _ => .bind (checkedOnReturn_sound (Stack.checkedPush_sound _))
      fun _ => .plain (withinRegions.setIp _)
  | address => exact .bind (.plain (.reg _)) fun _ => checkedPush_sound _
  | constant =>
    exact .bind (.plain (.reg _)) fun _ => .bind (.plain (.observe _)) fun _ => checkedPush_sound _
  | literal => exact .bind (.plain withinRegions.hereditary.operand) fun _ => checkedPush_sound _
  | branch => exact .plain withinRegions.hereditary.branch
  | zeroBranch =>
    exact .bind (.plain (.observe _)) fun _ => .bind checkedPop_sound fun _ =>
      .plain (.ite withinRegions.hereditary.branch withinRegions.hereditary.skipOperand)
  | enterLoop =>
    exact .bind (.plain (.observe _)) fun _ => .bind (.plain (withinRegions.onData (.require _)))
      fun _ => .bind checkedPop_sound fun _ => .bind checkedPop_sound fun _ =>
        checkedOnReturn_sound (Stack.checkedPushTwo_sound _ _)
  | stepLoop => exact checkedStepLoop_sound 1
  | stepLoopBy =>
    exact .bind (.plain (.observe _)) fun _ => .bind checkedPop_sound fun _ =>
      checkedStepLoop_sound _
  | print => exact .plain (withinRegions.hereditary.runtime .print)
  | exit =>
    exact .bind (checkedOnReturn_sound Stack.checkedPop_sound) fun _ =>
      .plain (withinRegions.hereditary.jump _)

namespace Exec

theorem checkedAddPrimitive_sound (name : String) (action : Action) :
    (checkedAddPrimitive name action).Sound WithinRegions :=
  .bind (.plain (withinRegions.addRuntime _ _)) fun _ => .bind (checkedCreateRecord_sound _ _ _)
    fun _ => .plain (.pure _)

theorem checkedAddImmediate_sound (name : String) (action : Action) :
    (checkedAddImmediate name action).Sound WithinRegions :=
  .bind (checkedAddPrimitive_sound name action) fun _ =>
    .plain (.bind withinRegions.hereditary.setImmediate fun _ => .pure _)

theorem checkedAddBuiltin_sound (word : Builtin) : (checkedAddBuiltin word).Sound WithinRegions :=
  .ite (.bind (checkedAddImmediate_sound _ _) fun _ => .plain (.pure _))
    (.bind (checkedAddPrimitive_sound _ _) fun _ => .plain (.pure _))

theorem checkedAddBuiltins_sound (words : List Builtin) :
    (checkedAddBuiltins words).Sound WithinRegions := by
  induction words with
  | nil => exact .plain (.pure _)
  | cons word words ih => exact .bind (checkedAddBuiltin_sound word) fun _ => ih

end Exec

theorem Action.checkedStep_sound (action : Action) : action.checkedStep.Sound WithinRegions := by
  cases action with
  | stack word => exact checkedOnData_sound word.checkedEffect_sound
  | returns word => exact word.checked_sound
  | unary word => exact checkedOnData_sound (Stack.checkedUnary_sound _)
  | binary word => exact word.checked_sound
  | divMod => exact checkedOnData_sound Stack.checkedDivMod_sound
  | storage word => exact word.checked_sound
  | radix word => exact word.checked_sound
  | define word => exact word.checked_sound
  | control word => exact .bind (.plain (.observe _)) fun _ => word.checkedBuild_sound
  | output word => exact word.checked_sound
  | runtime r => exact r.checked_sound
  | key => exact .bind (.plain withinRegions.lasting.readByte) fun _ => checkedPush_sound _
  | parseWord => exact .plain withinRegions.lasting.parseWord
  | install set => exact checkedAddBuiltins_sound set.words
  | value c => exact checkedPush_sound c
  | noop => exact .plain (.pure _)
  | execute => exact .plain (.pure _)
  | resume => exact .plain (.pure _)

/-! ### Running words -/

namespace Exec

theorem checkedActWithin_sound (rounds : Nat) (action : Action) :
    (checkedActWithin rounds action).Sound WithinRegions := by
  induction rounds generalizing action with
  | zero =>
    rw [checkedActWithin]
    split
    · exact .plain (withinRegions.lasting.actWithin 0 action)
    · split
      · exact .plain (withinRegions.lasting.actWithin 0 action)
      · exact .congr _ (.bind action.checkedStep_sound fun _ => .plain (.pure _))
  | succ rounds ih =>
    rw [checkedActWithin]
    split
    · exact .congr _ (.bind checkedPop_sound fun _ =>
        .bind (.plain (withinRegions.hereditary.resolve _)) ih)
    · split
      · exact .plain (withinRegions.lasting.actWithin _ action)
      · exact .congr _ (.bind action.checkedStep_sound fun _ => .plain (.pure _))

theorem checkedAct_sound (action : Action) : (checkedAct action).Sound WithinRegions :=
  .bind (.plain (.observe _)) fun rounds => checkedActWithin_sound rounds action

theorem checkedExecute_sound (xt : Cell) : (checkedExecute xt).Sound WithinRegions :=
  .bind (.plain (withinRegions.hereditary.resolve xt)) checkedAct_sound

theorem checkedEnterNumber_sound (c : Cell) : (checkedEnterNumber c).Sound WithinRegions :=
  .bind (.plain (.reg _)) fun _ => .ite (checkedCompileInteger_sound c) (checkedPush_sound c)

theorem checkedEnterToken_sound (token : List UInt8) :
    (checkedEnterToken token).Sound WithinRegions := by
  refine .bind (.plain (.observe _)) fun found => ?_
  cases found with
  | some r =>
    exact .bind (.plain (.reg _)) fun _ =>
      .ite (.bind (checkedCompileReference_sound r) fun _ => .plain (.pure _))
        (.bind (checkedExecute_sound _) fun _ => .plain (.pure _))
  | none =>
    -- The reader refuses a radix without digits, so the bound does not rest on the register.
    refine .bind (.plain (.reg _)) fun base =>
      .guarded (fun _ _ _ hv => Numeral.lt_of_mem_values hv) ?_
    generalize Numeral.read? token base = number
    cases number with
    | some c => exact .bind (checkedEnterNumber_sound c) fun _ => .plain (.pure _)
    | none => exact .plain (.throw _)

theorem checkedAddVocabulary_sound : checkedAddVocabulary.Sound WithinRegions :=
  .bind (.plain (.forM fun _ _ => .bind (withinRegions.addRuntime _ _) fun _ => .pure _)) fun _ =>
    checkedAddBuiltins_sound _

end Exec

/-! ### Runs and requests -/

namespace Machine

theorem checkedStepThread_sound : checkedStepThread.Sound WithinRegions :=
  .bind (.plain (.reg _)) fun _ => .bind (.plain (.observe _)) fun xt =>
    .bind (.plain (withinRegions.hereditary.jump _)) fun _ =>
      .bind (checkedExecute_sound xt) fun _ => .plain (.pure _)

/-- Each step of threaded code runs through and leaves the machine within its regions, and so does
any number of them. -/
theorem checkedThread_eq (steps : Nat) {m : Machine} (hm : m.WithinRegions) :
    m.checkedThread steps = some (m.runThread steps) := by
  induction steps generalizing m with
  | zero =>
    rw [checkedThread, runThread]
    split <;> rfl
  | succ steps ih =>
    rw [checkedThread, runThread]
    split
    · rfl
    · have hkept := checkedStepThread_sound.keeps m hm
      rw [checkedStepThread_sound.run_eq hm]
      cases hstep : stepThread m with
      | ok _ m' =>
        rw [hstep] at hkept
        exact ih hkept
      | error e m' => rfl

theorem checkedContinue_eq (steps : Nat) {r : EStateM.Result Fault Machine Continuation}
    (hr : (endState r).WithinRegions) :
    checkedContinue steps (some r) = some (continueWith steps r) := by
  match r with
  | .ok .done m => rfl
  | .ok .resume m => exact checkedThread_eq steps hr
  | .error e m => rfl

theorem checkedInterpretToken_eq (steps : Nat) (token : List UInt8) {m : Machine}
    (hm : m.WithinRegions) :
    m.checkedInterpretToken steps token = some (m.interpretToken steps token) := by
  have hsound := checkedEnterToken_sound token _ (withinRegions.lasting.token m [] hm)
  rw [checkedInterpretToken, interpretToken, hsound.1, checkedContinue_eq steps hsound.2]
  generalize continueWith steps _ = o
  match o with
  | none => rfl
  | some (.ok _ m) => rfl
  | some (.error e m) => rfl

/-- Each token is interpreted without leaving a domain, and so is all of the input. -/
theorem checkedInterpret_eq (steps : Nat) {m : Machine} (hm : m.WithinRegions) :
    m.checkedInterpret steps = some (m.interpret steps) := by
  induction steps generalizing m with
  | zero =>
    rw [checkedInterpret, interpret]
    cases Exec.parseWord m with
    | error e m' => rfl
    | ok _ m' =>
      dsimp only
      split <;> rfl
  | succ steps ih =>
    have hkept := withinRegions.lasting.parseWord m hm
    rw [checkedInterpret, interpret]
    cases hparse : Exec.parseWord m with
    | error e m' => rfl
    | ok _ m' =>
      rw [hparse, endState_ok] at hkept
      dsimp only
      split
      · rfl
      · rw [checkedInterpretToken_eq steps _ hkept]
        cases htoken : m'.interpretToken steps m'.token with
        | none => rfl
        | some r =>
          have hkept' := withinRegions.lasting.interpretToken hkept htoken
          cases r with
          | ok _ m'' => exact ih hkept'
          | error e m'' => rfl

theorem checkedRun_eq (steps : Nat) {m : Machine} (hm : m.WithinRegions) :
    m.checkedRun steps = some (m.run steps) := by
  rw [checkedRun, run]
  cases m.poison? with
  | some f => rfl
  | none =>
    dsimp only
    rw [checkedInterpret_eq steps hm]
    rfl

theorem checkedEvaluate_eq (steps : Nat) (text : String) {m : Machine} (hm : m.WithinRegions) :
    m.checkedEvaluate steps text = some (m.evaluate steps text) := by
  rw [checkedEvaluate, evaluate]
  cases m.poison? with
  | some f => rfl
  | none => exact checkedRun_eq steps (withinRegions.plain.setText text hm)

/-- Once its regions are laid out, a machine is built without leaving a domain. A configuration
whose sizes cannot be added up has no layout. -/
theorem checkedCreate_eq (config : Config) (input : Source) (output : Sink)
    (verbosity : Verbosity) :
    checkedCreate config input output verbosity =
      some (create config input output verbosity) := by
  rw [checkedCreate, create]
  cases hlayout : config.layout with
  | error e => rfl
  | ok layout =>
    dsimp only
    rw [checkedAddVocabulary_sound.run_eq (bare_withinRegions hlayout input output verbosity)]
    cases Exec.addVocabulary (bare config.coreSize layout input output verbosity) with
    | ok _ m => rfl
    | error e m => rfl

end Machine

namespace Request

theorem ofChecked_eq {α : Type} (answer : α → Answer) {op : Exec α} {form : Checked op}
    (h : form.Sound WithinRegions) {m : Machine} (hm : m.WithinRegions) :
    ofChecked answer form m = some (ofExec answer op m) := by
  rw [ofChecked, h.run_eq hm]
  rfl

/-- A machine within its regions answers every request without leaving a domain. -/
theorem checked_eq (steps : Nat) (request : Request) {m : Machine} (hm : m.WithinRegions) :
    request.checked steps m = some (request.perform steps m) := by
  have hcontinue {form : Exec Continuation} {c : Checked form} (hc : c.Sound WithinRegions) :
      (Machine.checkedContinue steps (c.run m)).map ofOutcome =
        some (ofOutcome (Machine.continueWith steps (form m))) := by
    rw [hc.run_eq hm, Machine.checkedContinue_eq steps (hc.keeps m hm)]
    rfl
  cases request with
  | evaluate text =>
    rw [checked, Machine.checkedEvaluate_eq steps text hm]
    rfl
  | run =>
    rw [checked, Machine.checkedRun_eq steps hm]
    rfl
  | act action => exact hcontinue (checkedAct_sound action)
  | executeToken xt => exact hcontinue (checkedExecute_sound xt)
  | compileCell c => exact ofChecked_eq _ (checkedCompileCell_sound c) hm
  | compileInteger c => exact ofChecked_eq _ (checkedCompileInteger_sound c) hm
  | compileString bs => exact ofChecked_eq _ (checkedCompileString_sound bs) hm
  | compileReference r => exact ofChecked_eq _ (checkedCompileReference_sound r) hm
  | allot n => exact ofChecked_eq _ (checkedAllot_sound _) hm
  | createRecord name code flags =>
    exact ofChecked_eq _ (checkedCreateRecord_sound name code flags) hm
  | addPrimitive name action => exact ofChecked_eq _ (checkedAddPrimitive_sound name action) hm
  | addImmediate name action => exact ofChecked_eq _ (checkedAddImmediate_sound name action) hm
  | dataStack request => exact ofChecked_eq _ (checkedOnData_sound request.checked_sound) hm
  | returnStack request => exact ofChecked_eq _ (checkedOnReturn_sound request.checked_sound) hm
  | _ => rfl

end Request

/-- Whatever has been asked of a machine since it was built, and whatever texts and streams it was
given to interpret, no partial operation leaves its domain: not while it is built, not when it
answers one more request with any number of steps, and the items of both stacks are slices of its
memory. -/
theorem Transcript.checked_eq_perform {config : Config} {input : Source} {output : Sink}
    {verbosity : Verbosity} {m m' : Machine} {es : List (Request × Reply)}
    (hcreate : Machine.create config input output verbosity = .ok m) (ht : Transcript m es m') :
    Machine.checkedCreate config input output verbosity = some (.ok m) ∧
      (∀ (steps : Nat) (request : Request),
        request.checked steps m' = some (request.perform steps m')) ∧
      m'.dataStack.SliceInMemory ∧ m'.returnStack.SliceInMemory := by
  have hm' : m'.WithinRegions :=
    withinRegions.transcript (fun _ _ hm => { hm with }) ht (Machine.create_withinRegions hcreate)
  refine ⟨?_, fun steps request => request.checked_eq steps hm', ?_, ?_⟩
  · rw [Machine.checkedCreate_eq, hcreate]
  · exact hm'.dataStack.sliceInMemory
  · exact hm'.returnStack.sliceInMemory

/-- A new machine that has an item on its data stack, was refused a record without a name and an
item of its return stack, and now interprets any text. -/
theorem evaluate_in_domain_after_refusals :
    ∃ m m' es, Machine.create {} Source.empty {} .off = .ok m ∧ Transcript m es m' ∧
      es.map Prod.fst = [.dataStack (.push 7), .createRecord [] 0 0, .returnStack .pop] ∧
      (∀ (steps : Nat) (text : String),
        (Request.evaluate text).checked steps m' =
          some ((Request.evaluate text).perform steps m')) ∧
      m'.dataStack.SliceInMemory ∧ m'.returnStack.SliceInMemory := by
  have hlayout : Config.layout {} = .ok ⟨32576, 32640, 32768⟩ := rfl
  obtain ⟨m, hcreate, -⟩ := Machine.create_of_room hlayout (by decide +kernel) Source.empty {} .off
  obtain ⟨r₁, h₁⟩ : ∃ r, (Request.dataStack (.push 7)).perform 0 m = some r :=
    Request.exists_ofExec ..
  obtain ⟨r₂, h₂⟩ : ∃ r, (Request.createRecord [] 0 0).perform 0 (endState r₁) = some r :=
    Request.exists_ofExec (.record ∘ some) (createRecord [] 0 0) _
  obtain ⟨r₃, h₃⟩ : ∃ r, (Request.returnStack .pop).perform 0 (endState r₂) = some r :=
    Request.exists_ofExec ..
  have ht := Transcript.cons h₁ (.cons h₂ (.cons h₃ (.nil _)))
  obtain ⟨-, hchecked, hslices⟩ := ht.checked_eq_perform hcreate
  exact ⟨m, _, _, hcreate, ht, rfl, fun steps text => hchecked steps (.evaluate text), hslices⟩

end CellForth
