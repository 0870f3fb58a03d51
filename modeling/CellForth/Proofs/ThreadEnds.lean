import CellForth.Proofs.Pointer
import CellForth.Proofs.WordRegister

/-!
# Where threaded code ends

Threaded code runs until the instruction pointer is zero. The pointer may get there by a return or
by a jump. It may also come round to zero if it is led past the end of the largest memory, and code
that ran out of memory would then pass for code that has returned. This does not happen where the
pointer passes over a cell that has been read. It does happen where a conditional jump that is not
taken, or a loop that is left, has its opcode in the very last cell. One more way is open only if a
host has registered the action of colon definitions under another opcode, which runs it behind a
token that has not been looked up.

`Runtime.Stops` lists these ways. The main result, `Machine.runThread_ends_exactly`, says that the
code ends without a fault in one of them only, and when there are but the first two.
-/

namespace CellForth

/-! ### How an action ends the code -/

namespace Runtime

/-- How an action leads the pointer to zero. -/
inductive Stops (m m' : Machine) : Runtime → Prop
  /-- The place to come back to is zero. -/
  | returned (htop : m.returnStack.items.head? = some 0) : Stops m m' exit
  /-- The jump that is taken leads to zero. -/
  | jumped {r : Runtime} {offset : Cell} (htaken : r.jumps? m = some true)
    (hcell : m'.memory.cells[m.regs.ip.toNat]? = some offset) (htarget : m.regs.ip + offset = 0) :
    Stops m m' r
  /-- The opcode is in the last cell of the largest memory, so there is no offset to be passed
  over. -/
  | skipped {r : Runtime} (hskip : r.jumps? m = some false) (hend : m.regs.ip.toNat = m.memory.size)
    (hlargest : m.memory.size = maxCoreSize) : Stops m m' r
  /-- The token in `w` is not that of a word, but was left there. -/
  | entered (hw : m.regs.w = Cell.top) (hguards : ¬m.GuardsW) : Stops m m' nest

/-- In a smaller memory, and if no host has put an action that reads `w` where it can be run as an
instruction, there are only returns and jumps. -/
theorem Stops.returned_or_jumped {m m' : Machine} {r : Runtime} (h : r.Stops m m')
    (hguards : m.GuardsW) (hsize : m.memory.size < maxCoreSize) :
    r = exit ∧ m.returnStack.items.head? = some 0 ∨
      r.jumps? m = some true ∧ ∃ offset, m'.memory.cells[m.regs.ip.toNat]? = some offset ∧
        m.regs.ip + offset = 0 := by
  cases h with
  | returned htop => exact .inl ⟨rfl, htop⟩
  | jumped htaken hcell htarget => exact .inr ⟨htaken, _, hcell, htarget⟩
  | skipped hskip hend hlargest => exact absurd hlargest (Nat.ne_of_lt hsize)
  | entered hw hfree => exact absurd hguards hfree

end Runtime

/-- An instruction of threaded code has been fetched, and its action is about to be performed. -/
structure Machine.Dispatched (m : Machine) (action : Action) : Prop where
  /-- The bounds hold. -/
  within : m.WithinRegions
  /-- The pointer has moved on to the next cell. -/
  ip_ne_zero : m.regs.ip ≠ 0
  /-- The instruction was in memory. -/
  ip_le : m.regs.ip.toNat ≤ m.memory.size
  /-- The token in `w` is that of a word, for an action that asks for it. -/
  w_lt : m.GuardsW → action.readsW = true → m.regs.w.toNat < m.memory.size

namespace Runtime

variable {m m' : Machine} {r : Runtime}

theorem ip_eq_zero_of_stops (h : m.Dispatched (.runtime r)) (hok : r.perform m = .ok () m')
    (hstops : r.Stops m m') : m'.regs.ip = 0 := by
  have hordered := h.within.ordered
  have hleads := leads_of_perform h.within h.ip_ne_zero hok
  cases hstops with
  | returned htop =>
    have hsame : m.returnStack.items.head? = some m'.regs.ip := hleads
    rw [htop] at hsame
    exact (Option.some.inj hsame).symm
  | jumped htaken hcell htarget =>
    obtain ⟨offset', hcell', hnext⟩ := ip_of_taken hordered h.ip_ne_zero htaken hok
    rw [hcell] at hcell'
    cases hcell'
    exact hnext.trans htarget
  | skipped hskip hend hlargest =>
    obtain ⟨m₁, hperform, hnext⟩ := perform_of_not_taken hordered h.ip_ne_zero hskip
    rw [hperform] at hok
    cases hok
    exact hnext.trans (Cell.add_one_eq_zero_iff.mpr (Cell.eq_of_toNat_eq (hend.trans hlargest)))
  | entered hw hguards =>
    exact Eq.trans hleads (Cell.add_one_eq_zero_iff.mpr hw)

/-- Each action ends the code in its own way only. -/
theorem stops_of_ip_eq_zero (h : m.Dispatched (.runtime r)) (hok : r.perform m = .ok () m')
    (hzero : m'.regs.ip = 0) : r.Stops m m' := by
  have hordered := h.within.ordered
  have hsize : m.memory.size ≤ maxCoreSize := h.within.size_le
  have hleads := leads_of_perform h.within h.ip_ne_zero hok
  cases r with
  | nest =>
    have hw : m.regs.w = Cell.top := Cell.add_one_eq_zero_iff.mp (Eq.trans hleads.symm hzero)
    refine .entered hw fun hguards => ?_
    -- The token of a word that was looked up is the address of a cell, and the largest cell is
    -- none.
    have hlt := h.w_lt hguards rfl
    rw [hw] at hlt
    exact absurd hlt (Nat.not_lt.mpr hsize)
  | address | constant | enterLoop => exact absurd (hleads.symm.trans hzero) h.ip_ne_zero
  | literal | print =>
    obtain ⟨n, hadvances⟩ := hleads
    exact absurd hzero hadvances.ip_ne_zero
  | exit =>
    have htop : m.returnStack.items.head? = some m'.regs.ip := hleads
    exact .returned (hzero ▸ htop)
  | branch | zeroBranch | stepLoop | stepLoopBy =>
    rcases hleads with ⟨htaken, offset, hcell, hnext⟩ | ⟨hskip, hnext⟩
    · exact .jumped htaken hcell (hnext ▸ hzero)
    · -- The pointer was as large as it can be, but not behind the end of memory.
      have hip : m.regs.ip.toNat = maxCoreSize :=
        congrArg UInt16.toNat (Cell.add_one_eq_zero_iff.mp (hnext.symm.trans hzero))
      have hle := h.ip_le
      exact .skipped hskip (by omega) (by omega)

end Runtime

/-! ### One step of threaded code -/

namespace Exec

variable {m m' : Machine} {xt : Cell} {action : Action}

/-- Where the register is guarded, an action that reads `w` was found through a token, and this is
the address of a cell. -/
theorem w_lt_of_resolve (hguards : m.GuardsW) (h : resolve xt m = .ok action m')
    (hreads : action.readsW = true) : m'.regs.w.toNat < m'.memory.size := by
  by_cases hlt : xt.toNat < m.table.size
  · cases hfield : CodeFields.standard.contains xt with
    | true =>
      rw [resolve_of_field hlt hfield] at h
      cases h
    | false =>
      have haction : m.table[xt.toNat]? = some m.table[xt.toNat] := Array.getElem?_eq_getElem hlt
      rw [resolve_of_opcode hlt hfield haction] at h
      cases h
      have hcontains := hguards xt _ haction hreads
      rw [hfield] at hcontains
      cases hcontains
  · obtain ⟨_, m₁, hsize, hrest⟩ := exists_of_bind_ok h
    obtain ⟨hsame, rfl⟩ := observe_eq_ok_iff.mp hsize
    cases hsame
    rw [if_neg hlt] at hrest
    obtain ⟨_, m₂, hset, hfetched⟩ := exists_of_bind_ok hrest
    cases hset
    obtain ⟨op, m₃, hfetch, hfound⟩ := exists_of_bind_ok hfetched
    obtain ⟨hget, rfl⟩ := observe_eq_ok_iff.mp hfetch
    obtain ⟨-, rfl⟩ := observe_eq_ok_iff.mp hfound
    exact Memory.lt_size_of_some (Memory.get_eq_ok_iff.mp hget)

/-- So it is if the action was handed over to, any number of times. -/
theorem w_lt_of_finalWithin {rounds : Nat} {final : Action} (hguards : m.GuardsW)
    (hw : action.readsW = true → m.regs.w.toNat < m.memory.size)
    (h : finalWithin rounds action m = .ok final m') (hreads : final.readsW = true) :
    m'.regs.w.toNat < m'.memory.size := by
  induction rounds, action using finalWithin.induct generalizing m with
  | case1 => cases h
  | case2 rounds ih =>
    have hsteady := Lasting.guardsW.hereditary.toSteady
    rw [finalWithin] at h
    obtain ⟨xt, m₁, hpop, hrest⟩ := exists_of_bind_ok h
    obtain ⟨next, m₂, hresolve, hfinal⟩ := exists_of_bind_ok hrest
    have hguards₁ : m₁.GuardsW := Keeps.of_ok hsteady.pop hpop hguards
    exact ih next (Keeps.of_ok (hsteady.resolve xt) hresolve hguards₁)
      (w_lt_of_resolve hguards₁ hresolve) hfinal
  | case3 rounds action hnone hsome =>
    rw [finalWithin.eq_3 _ _ hnone hsome] at h
    cases h
    exact hw hreads

theorem w_lt_of_finalAction (hguards : m.GuardsW) (h : finalAction xt m = .ok action m')
    (hreads : action.readsW = true) : m'.regs.w.toNat < m'.memory.size := by
  obtain ⟨first, m₁, hresolve, hrest⟩ := exists_of_bind_ok h
  obtain ⟨rounds, m₂, hlook, hfinal⟩ := exists_of_bind_ok hrest
  obtain ⟨-, rfl⟩ := observe_eq_ok_iff.mp hlook
  have hguards₁ := Keeps.of_ok (Lasting.guardsW.hereditary.resolve xt) hresolve hguards
  exact w_lt_of_finalWithin hguards₁ (w_lt_of_resolve hguards hresolve) hfinal hreads

end Exec

namespace Machine

variable {m m' m₁ : Machine} {xt : Cell} {action : Action} {steps : Nat}

/-- An opcode leads to its action, wherever the pointer is. -/
theorem Native.finalAction_behind {op : Cell} (h : m.Native op action) (ip : Cell)
    (hexecute : action ≠ .execute) :
    Exec.finalAction op { m with regs := { m.regs with ip := ip } } =
      .ok action { m with regs := { m.regs with ip := ip } } := by
  obtain ⟨hlt, -⟩ := Array.getElem?_eq_some_iff.mp h.table
  have hresolve : Exec.resolve op { m with regs := { m.regs with ip := ip } } =
      .ok action { m with regs := { m.regs with ip := ip } } :=
    Exec.resolve_of_opcode hlt h.contains_eq h.table
  refine (bind_of_ok hresolve).trans ?_
  refine Eq.trans (bind_of_ok (observe_of_ok rfl)) ?_
  rw [Exec.finalWithin.eq_3 _ _ (fun _ => hexecute) fun _ _ => hexecute]
  rfl

/-- The instruction at the pointer leads to an action, which is performed at the machine `m₁`. -/
def Fetches (m : Machine) (action : Action) (m₁ : Machine) : Prop :=
  ∃ xt, m.memory.get m.regs.ip.toNat = .ok xt ∧
    Exec.finalAction xt { m with regs := { m.regs with ip := m.regs.ip + 1 } } = .ok action m₁

/-- An instruction that could be fetched is passed over, whatever action it leads to. -/
theorem WithinRegions.dispatched (h : m.WithinRegions) (hip : m.regs.ip ≠ 0)
    (hfetches : m.Fetches action m₁) :
    m.Advances 1 m₁ ∧ m₁.Dispatched action := by
  obtain ⟨xt, hget, hfinal⟩ := hfetches
  have hin := Memory.lt_size_of_some (Memory.get_eq_ok_iff.mp hget)
  -- On the way to the action only tokens are taken off, and the pointer, the table and the regions
  -- stay.
  have hkeepsIp : Keeps (fun m' => m'.regs.ip = m.regs.ip + 1) (Exec.finalAction xt) :=
    Exec.finalAction_keeps (Exec.keeps_ip_onData _) (fun _ => Exec.keeps_ip_setRegs fun _ => rfl) xt
  have hkeepsTable : Basic fun m' => m'.table = m.table :=
    .of_alike fun _ _ halike hm => halike.table.trans hm
  have hkeepsRegions := (Elementary.bounded m.regions).lasting
  have hnext : m₁.regs.ip = m.regs.ip + 1 := hkeepsIp.of_ok hfinal rfl
  have htable : m₁.table = m.table :=
    Keeps.of_ok (Exec.finalAction_steady hkeepsTable.hereditary.toSteady xt) hfinal rfl
  obtain ⟨hwithin, hregions⟩ : m₁.Bounded m.regions :=
    Keeps.of_ok (Exec.finalAction_steady hkeepsRegions.hereditary.toSteady xt) hfinal
      ⟨{ h with }, rfl⟩
  have hsize : m₁.memory.size = m.memory.size := congrArg Regions.size hregions
  have hadvances : m.Advances 1 m₁ := h.advances hip hin hnext
  refine ⟨hadvances, hwithin, hadvances.ip_ne_zero, hsize ▸ hadvances.le_size, ?_⟩
  intro hguards hreads
  refine Exec.w_lt_of_finalAction ?_ hfinal hreads
  unfold GuardsW at hguards ⊢
  rwa [htable] at hguards

/-- A step is what its action does. -/
theorem Fetches.stepThread_eq (h : m.Fetches action m₁) : stepThread m = action.step m₁ := by
  obtain ⟨xt, hget, hfinal⟩ := h
  obtain ⟨next, hconclude⟩ : ∃ next, Exec.conclude action = action.step >>= fun _ => pure next := by
    by_cases hresume : action = .resume
    · subst hresume
      exact ⟨.resume, rfl⟩
    · exact ⟨.done, Exec.conclude.eq_2 _ hresume⟩
  rw [stepThread_of_ok hget, Exec.execute_eq_finalAction, bind_assoc, bind_of_ok hfinal, hconclude,
    bind_assoc]
  cases hstep : action.step m₁ with
  | ok _ m₂ => exact bind_of_ok hstep
  | error e m₂ => exact bind_of_error hstep

/-- A step contributes its action to those of the run, and the rest follows unless the action
faults. -/
theorem Fetches.performedInThread_succ (h : m.Fetches action m₁) (steps : Nat)
    (hip : m.regs.ip ≠ 0) :
    (∀ m₂, action.step m₁ = .ok () m₂ →
      m.performedInThread (steps + 1) = (action, m₁) :: m₂.performedInThread steps) ∧
    ∀ e m₂, action.step m₁ = .error e m₂ → m.performedInThread (steps + 1) = [(action, m₁)] := by
  have hthread := h.stepThread_eq
  obtain ⟨xt, hget, hfinal⟩ := h
  have hfirst : Exec.performed xt { m with regs := { m.regs with ip := m.regs.ip + 1 } } =
      [(action, m₁)] := by
    rw [Exec.performed, hfinal]
  constructor
  · intro m₂ hstep
    rw [performedInThread, if_neg hip, hget, hthread, hstep]
    exact congrArg (· ++ m₂.performedInThread steps) hfirst
  · intro e m₂ hstep
    rw [performedInThread, if_neg hip, hget, hthread, hstep]
    exact congrArg (· ++ []) hfirst

/-- A step that does not lead to an action is a fault, and contributes nothing. -/
theorem performedInThread_of_not_fetches (steps : Nat) (hip : m.regs.ip ≠ 0)
    (hnone : ∀ action m₁, ¬m.Fetches action m₁) :
    (∃ e m₁, stepThread m = .error e m₁) ∧ m.performedInThread (steps + 1) = [] := by
  cases hget : m.memory.get m.regs.ip.toNat with
  | error e =>
    have hthread := stepThread_of_error hget
    refine ⟨⟨e, m, hthread⟩, ?_⟩
    rw [performedInThread, if_neg hip, hget, hthread]
    rfl
  | ok xt =>
    cases hfinal : Exec.finalAction xt { m with regs := { m.regs with ip := m.regs.ip + 1 } } with
    | ok action m₁ => exact absurd ⟨xt, hget, hfinal⟩ (hnone action m₁)
    | error e m₁ =>
      have hthread : stepThread m = .error e m₁ := by
        rw [stepThread_of_ok hget, Exec.execute_eq_finalAction, bind_assoc, bind_of_error hfinal]
      have hfirst :
          Exec.performed xt { m with regs := { m.regs with ip := m.regs.ip + 1 } } = [] := by
        rw [Exec.performed, hfinal]
      refine ⟨⟨e, m₁, hthread⟩, ?_⟩
      rw [performedInThread, if_neg hip, hget, hthread]
      exact congrArg (· ++ []) hfirst

/-- An action of a run is that of its first step, or one of those behind it. -/
theorem fetches_or_of_mem_performedInThread {p : Action × Machine}
    (hp : p ∈ m.performedInThread (steps + 1)) : m.regs.ip ≠ 0 ∧
      (m.Fetches p.1 p.2 ∨ ∃ m₁, stepThread m = .ok () m₁ ∧ p ∈ m₁.performedInThread steps) := by
  have hip : m.regs.ip ≠ 0 := by
    intro hzero
    rw [performedInThread_of_eq_zero hzero] at hp
    cases hp
  refine ⟨hip, ?_⟩
  by_cases hfetches : ∃ action m₁, m.Fetches action m₁
  · obtain ⟨action, m₁, hfetches⟩ := hfetches
    obtain ⟨hok, herror⟩ := hfetches.performedInThread_succ steps hip
    cases hstep : action.step m₁ with
    | ok _ m₂ =>
      rw [hok m₂ hstep] at hp
      rcases List.mem_cons.mp hp with rfl | hrest
      · exact .inl hfetches
      · exact .inr ⟨m₂, hfetches.stepThread_eq.trans hstep, hrest⟩
    | error e m₂ =>
      rw [herror e m₂ hstep] at hp
      obtain rfl := List.mem_singleton.mp hp
      exact .inl hfetches
  · have hnone := performedInThread_of_not_fetches steps hip fun action m₁ h =>
      hfetches ⟨action, m₁, h⟩
    rw [hnone.2] at hp
    cases hp

/-! ### Whole runs -/

/-- The action behind which the code has ended, and how it led the pointer to zero. -/
def EndedBy (m' : Machine) (performed : List (Action × Machine)) : Prop :=
  ∃ r m₁, performed.getLast? = some (.runtime r, m₁) ∧ r.perform m₁ = .ok () m' ∧ r.Stops m₁ m'

/-- With the last of its steps, code ends exactly if the action there leads the pointer to zero. -/
theorem Dispatched.endedBy_singleton_iff (h : m₁.Dispatched action) {m₂ : Machine}
    (hstep : action.step m₁ = .ok () m₂) :
    EndedBy m' [(action, m₁)] ↔ m₂.regs.ip = 0 ∧ m' = m₂ := by
  constructor
  · rintro ⟨r, m₃, hlast, hperform, hstops⟩
    cases hlast
    have hsame : r.perform m₁ = .ok () m₂ := hstep
    rw [hsame] at hperform
    cases hperform
    exact ⟨Runtime.ip_eq_zero_of_stops h hsame hstops, rfl⟩
  · rintro ⟨hzero, rfl⟩
    cases hruntime : action.isRuntime with
    | false =>
      -- Only actions of threaded code move the pointer.
      have hkept := (Action.keeps_ip_step hruntime m₁.regs.ip).of_ok hstep rfl
      exact absurd (hkept.symm.trans hzero) h.ip_ne_zero
    | true =>
      cases action with
      | runtime r => exact ⟨r, m₁, rfl, hstep, Runtime.stops_of_ip_eq_zero h hstep hzero⟩
      | _ => cases hruntime

/-- Behind an action that leads elsewhere, the end is that of the rest of the code. -/
theorem Dispatched.endedBy_cons_iff (h : m₁.Dispatched action) {m₂ : Machine}
    (hstep : action.step m₁ = .ok () m₂) (hip : m₂.regs.ip ≠ 0) (rest : List (Action × Machine)) :
    EndedBy m' ((action, m₁) :: rest) ↔ EndedBy m' rest := by
  cases rest with
  | nil =>
    rw [h.endedBy_singleton_iff hstep]
    refine iff_of_false (fun hzero => hip hzero.1) ?_
    rintro ⟨r, m₃, hlast, -⟩
    cases hlast
  | cons p rest =>
    unfold EndedBy
    rw [List.getLast?_cons_cons]

/-- Code that does not rest ends without a fault exactly if the last action it performs is one that
leads the pointer to zero. -/
theorem WithinRegions.runThread_iff_endedBy (h : m.WithinRegions) (hip : m.regs.ip ≠ 0)
    (steps : Nat) :
    m.runThread steps = some (.ok () m') ↔ EndedBy m' (m.performedInThread steps) := by
  have hnever : ¬EndedBy m' [] := by
    rintro ⟨r, m₁, hlast, -⟩
    cases hlast
  -- Each step performs one action. It is the last one if it leads the pointer to zero.
  induction steps generalizing m with
  | zero =>
    rw [runThread_zero hip]
    exact iff_of_false (fun hnone => by cases hnone) hnever
  | succ steps ih =>
    rw [runThread_succ _ hip]
    by_cases hfetches : ∃ action m₁, m.Fetches action m₁
    · obtain ⟨action, m₁, hfetches⟩ := hfetches
      obtain ⟨-, hdispatched⟩ := h.dispatched hip hfetches
      obtain ⟨hok, herror⟩ := hfetches.performedInThread_succ steps hip
      rw [hfetches.stepThread_eq]
      cases hstep : action.step m₁ with
      | error e m₂ =>
        rw [herror e m₂ hstep]
        refine iff_of_false (fun hfault => by cases hfault) ?_
        rintro ⟨r, m₃, hlast, hperform, -⟩
        cases hlast
        have hsame : r.perform m₁ = .error e m₂ := hstep
        rw [hsame] at hperform
        cases hperform
      | ok _ m₂ =>
        have hwithin : m₂.WithinRegions :=
          Keeps.of_ok (Elementary.withinRegions.lasting.step action) hstep hdispatched.within
        rw [hok m₂ hstep]
        by_cases hzero : m₂.regs.ip = 0
        · rw [performedInThread_of_eq_zero hzero, hdispatched.endedBy_singleton_iff hstep]
          dsimp only
          rw [runThread_of_eq_zero _ hzero]
          simp [hzero, eq_comm]
        · rw [hdispatched.endedBy_cons_iff hstep hzero]
          exact ih hwithin hzero
    · obtain ⟨⟨e, m₁, hthread⟩, hperformed⟩ := performedInThread_of_not_fetches steps hip
        fun action m₁ hfetch => hfetches ⟨action, m₁, hfetch⟩
      rw [hthread, hperformed]
      exact iff_of_false (fun hfault => by cases hfault) hnever

end Machine

/-- What lasts holds wherever an action is performed. -/
theorem Lasting.of_mem_performedInThread {P : Machine → Prop} (hP : Lasting P) {m : Machine}
    (hm : P m) {steps : Nat} {p : Action × Machine} (hp : p ∈ m.performedInThread steps) :
    P p.2 := by
  induction steps generalizing m with
  | zero => cases hp
  | succ steps ih =>
    obtain ⟨-, ⟨xt, -, hfinal⟩ | ⟨m₁, hstep, hrest⟩⟩ :=
      Machine.fetches_or_of_mem_performedInThread hp
    · have hnext := hP.hereditary.jump (m.regs.ip + 1) m hm
      exact Keeps.of_ok (Exec.finalAction_steady hP.hereditary.toSteady xt) hfinal hnext
    · exact ih (Keeps.of_ok hP.stepThread hstep hm) hrest

namespace Machine

variable {m m' m₁ : Machine} {action : Action}

/-- **Where threaded code ends.** In a machine within its regions nothing can be fetched from behind
the memory. The pointer advances to the end of memory at most when it passes over an instruction, an
operand that is read or a string, and is not zero then. An offset that is not read is passed over
even if it is behind the memory. So code ends without a fault in the ways of `Runtime.Stops` only;
and these are returns and jumps to zero, unless the memory is as large as it can be or a host has
made the register `w` unsafe. -/
theorem runThread_ends_exactly (h : m.WithinRegions) :
    (∀ pos, m.memory.size ≤ pos → Exec.fetch pos m = .error .invalidMemoryAddress m) ∧
    (m.regs.ip ≠ 0 → m.memory.size ≤ m.regs.ip.toNat →
      Exec.operand m = .error .invalidMemoryAddress m ∧
      Exec.branch m = .error .invalidMemoryAddress m ∧
      ∀ steps, m.runThread (steps + 1) = some (.error .invalidMemoryAddress m)) ∧
    (∀ p ∈ m.performedInThread 1, m.Advances 1 p.2) ∧
    (∀ c m', Exec.operand m = .ok c m' → m.Advances 1 m') ∧
    (∀ n, m.regs.ip ≠ 0 → m.memory.cells[m.regs.ip.toNat]? = some n →
      if m.regs.ip.toNat + 1 + packedLength n.toNat ≤ m.memory.size then
        m.Advances (1 + packedLength n.toNat) (endState (Runtime.print.perform m))
      else ∃ m', Runtime.print.perform m = .error .invalidMemoryAddress m') ∧
    (∀ r : Runtime, m.regs.ip ≠ 0 → r.jumps? m = some false →
      ∃ m', r.perform m = .ok () m' ∧ m'.regs.ip = m.regs.ip + 1 ∧
        (m.regs.ip.toNat < m.memory.size → m.Advances 1 m') ∧
        (m'.regs.ip = 0 ↔ m.regs.ip = Cell.top)) ∧
    (∀ steps m', m.runThread steps = some (.ok () m') ↔
      m.regs.ip = 0 ∧ m' = m ∨ m.regs.ip ≠ 0 ∧ EndedBy m' (m.performedInThread steps)) ∧
    (m.GuardsW → m.memory.size < maxCoreSize → ∀ steps m', m.regs.ip ≠ 0 →
      m.runThread steps = some (.ok () m') →
      ∃ r m₁, (m.performedInThread steps).getLast? = some (.runtime r, m₁) ∧
        (r = .exit ∧ m₁.returnStack.items.head? = some 0 ∨
          r.jumps? m₁ = some true ∧ ∃ offset, m'.memory.cells[m₁.regs.ip.toNat]? = some offset ∧
            m₁.regs.ip + offset = 0)) := by
  refine ⟨fun pos => Exec.fetch_of_le, ?_, ?_, ?_, ?_, ?_, ?_, ?_⟩
  · intro hip hle
    have hget : m.memory.get m.regs.ip.toNat = .error .invalidMemoryAddress :=
      Memory.get_eq_error_iff.mpr ⟨hle, rfl⟩
    refine ⟨Exec.operand_of_le hip hle, Exec.branch_of_le hip hle, fun steps => ?_⟩
    rw [runThread_succ _ hip, stepThread_of_error hget]
  · intro p hp
    obtain ⟨hip, hfetches | ⟨m₁, -, hrest⟩⟩ := fetches_or_of_mem_performedInThread hp
    · exact (h.dispatched hip hfetches).1
    · cases hrest
  · intro c m' hoperand
    obtain ⟨hip, hcell, rfl⟩ := Exec.operand_ok hoperand
    exact h.advances hip (Memory.lt_size_of_some hcell) rfl
  · intro n hip hcell
    split
    · rename_i hle
      exact h.advances_print hip hcell hle
    · rename_i hle
      exact ⟨_, Runtime.print_of_lt h hip hcell (Nat.lt_of_not_le hle)⟩
  · intro r hip hskip
    obtain ⟨m', hperform, hnext⟩ := Runtime.perform_of_not_taken h.ordered hip hskip
    refine ⟨m', hperform, hnext, fun hlt => h.advances hip hlt hnext, ?_⟩
    rw [hnext, Cell.add_one_eq_zero_iff]
  · intro steps m'
    by_cases hip : m.regs.ip = 0
    · rw [runThread_of_eq_zero _ hip]
      simp [hip, eq_comm]
    · rw [h.runThread_iff_endedBy hip]
      simp [hip]
  · intro hguards hsize steps m' hip hrun
    obtain ⟨r, m₁, hlast, -, hstops⟩ := (h.runThread_iff_endedBy hip steps).mp hrun
    -- Neither the size of memory nor the table of actions has changed on the way to the last
    -- action.
    have hmem := List.mem_of_getLast? hlast
    have hguards₁ : m₁.GuardsW := Lasting.guardsW.of_mem_performedInThread hguards hmem
    have hbounded : m₁.Bounded m.regions :=
      (Elementary.bounded m.regions).lasting.of_mem_performedInThread ⟨h, rfl⟩ hmem
    have hsame : m₁.memory.size = m.memory.size := congrArg Regions.size hbounded.2
    exact ⟨r, m₁, hlast, hstops.returned_or_jumped hguards₁ (hsame ▸ hsize)⟩

end Machine

/-! ### Code in the last cell -/

/-- An empty stack has room for one item. -/
theorem Stack.WithinBounds.single {s : Stack} (h : s.WithinBounds) (hempty : s.size = 0)
    (hroom : 0 < s.capacity) (c : Cell) :
    s.Fits 0 [c] ∧ (s.replaced 0 [c]).items = [c] := by
  have hitems : s.items = [] := List.length_eq_zero_iff.mp (h.length_items.trans hempty)
  have hfits : s.Fits 0 [c] := by
    rw [h.fits_iff, hitems, List.length_nil, List.length_singleton]
    omega
  refine ⟨hfits, ?_⟩
  rw [h.items_replaced hfits, hitems]
  rfl

namespace Machine

variable {m : Machine}

/-- The memory is as large as it can be, and the pointer is at its last cell, where the opcode of an
action is. The data stack holds a one, and the return stack a zero. -/
structure AtLastCell (m : Machine) (r : Runtime) : Prop where
  /-- The bounds hold. -/
  within : m.WithinRegions
  /-- The register `w` is safe. -/
  guardsW : m.GuardsW
  /-- The action is in the table. -/
  table : m.table[r.opcode.toNat]? = some (.runtime r)
  /-- There is no larger memory. -/
  size_eq : m.memory.size = maxCoreSize
  /-- The pointer is at the last cell. -/
  ip_eq : m.regs.ip = 65534
  /-- The opcode is there. -/
  cell : m.memory.cells[m.regs.ip.toNat]? = some r.opcode
  /-- The only item of the data stack. -/
  data_eq : m.dataStack.items = [1]
  /-- The only item of the return stack. -/
  return_eq : m.returnStack.items = [0]

theorem exists_atLastCell (r : Runtime) : ∃ m : Machine, m.AtLastCell r := by
  obtain ⟨m₀, hcreate⟩ : ∃ m, create ⟨65535, 64, 128⟩ Source.empty {} .off = .ok m :=
    exists_create_iff.mpr (by decide +kernel)
  have hstart := atStart_of_create hcreate
  have hsize : m₀.memory.size = 65535 := hstart.size
  have hwithin₀ := create_withinRegions hcreate
  have hdata : m₀.dataStack.size = 0 :=
    hwithin₀.dataStack.length_toList.symm.trans (congrArg List.length hstart.dataItems)
  have hreturn : m₀.returnStack.size = 0 :=
    hwithin₀.returnStack.length_toList.symm.trans (congrArg List.length hstart.returnItems)
  -- The return stack takes up the last cells, and only the first of them will be in use.
  have hbase : m₀.regs.returnBase.toNat = 65407 := by
    have hcapacity : m₀.regs.returnLimit.toNat - m₀.regs.returnBase.toNat = 128 :=
      hstart.returnCapacity
    have hlimit := hwithin₀.returnLimit_eq
    omega
  have hrp : m₀.regs.rp.toNat = 65407 := by
    have hempty : m₀.regs.rp.toNat - m₀.regs.returnBase.toNat = 0 := hreturn
    have hle := hwithin₀.returnBase_le_rp
    omega
  -- The opcode is stored while the stacks are empty, and then each of them gets its item.
  let m₁ : Machine :=
    { m₀ with memory := m₀.memory.overlay 65534 [r.opcode], regs := { m₀.regs with ip := 65534 } }
  let m₂ : Machine := m₁.replaceData 0 [1]
  have hwithin₁ : m₁.WithinRegions := by
    have hmemory :=
      (Bounded.withMemory ⟨hwithin₀, rfl⟩ (Memory.size_overlay m₀.memory 65534 [r.opcode])).1
    exact { hmemory with }
  have hdataRoom : 0 < m₁.dataStack.capacity :=
    Nat.lt_of_lt_of_eq (by decide) hstart.dataCapacity.symm
  obtain ⟨hfits₁, hitems₁⟩ := hwithin₁.dataStack.single hdata hdataRoom 1
  have hwithin₂ : m₂.WithinRegions := hwithin₁.replaceData hfits₁
  have hreturnRoom : 0 < m₂.returnStack.capacity :=
    Nat.lt_of_lt_of_eq (by decide) hstart.returnCapacity.symm
  obtain ⟨hfits₂, hitems₂⟩ := hwithin₂.returnStack.single hreturn hreturnRoom 0
  have hcell₁ : m₁.memory.cells[65534]? = some r.opcode :=
    Memory.cells_overlay_add (i := 0) Nat.zero_lt_one (Nat.le_of_eq hsize.symm)
  have hcell₂ : m₂.memory.cells[65534]? = m₁.memory.cells[65534]? := by
    refine hwithin₁.cells_replaceData hfits₁ (.inr ?_)
    rw [hwithin₁.dataLimit_eq]
    exact Nat.le_trans (Nat.le_of_eq hbase) (by decide)
  have hcell₃ : (m₂.replaceReturn 0 [0]).memory.cells[65534]? = m₂.memory.cells[65534]? := by
    refine Stack.cells_replaced (.inr ?_)
    show m₀.regs.rp.toNat - 0 + 1 ≤ 65534
    omega
  refine ⟨m₂.replaceReturn 0 [0], ?_⟩
  exact
    { within := hwithin₂.replaceReturn hfits₂
      guardsW := by
        obtain ⟨layout, -, hnew⟩ := new_of_create hcreate
        exact hnew.guardsW
      table := hstart.runtime r
      size_eq := by
        have hsame := (regions_replaceReturn 0 [0] m₂).trans (regions_replaceData 0 [1] m₁)
        exact (congrArg Regions.size hsame).trans ((Memory.size_overlay ..).trans hsize)
      ip_eq := rfl
      cell := hcell₃.trans (hcell₂.trans hcell₁)
      data_eq := by
        have hle := hwithin₂.sp_le_dataLimit
        rw [hwithin₂.dataLimit_eq] at hle
        have hsame : (m₂.replaceReturn 0 [0]).dataStack.items = m₂.dataStack.items :=
          Stack.items_congr rfl rfl fun i _ hi =>
            hwithin₂.cells_replaceReturn hfits₂ (Nat.lt_of_lt_of_le hi hle)
        exact hsame.trans hitems₁
      return_eq := hitems₂ }

theorem AtLastCell.ip_ne_zero {r : Runtime} (h : m.AtLastCell r) : m.regs.ip ≠ 0 := by
  rw [h.ip_eq]
  decide

/-- The action in the last cell is performed where the pointer is at the end of memory. -/
theorem AtLastCell.dispatched {r : Runtime} (h : m.AtLastCell r)
    (hr : CodeFields.standard.contains r.opcode = false) :
    ∃ m₁ : Machine, m₁.Dispatched (.runtime r) ∧ m₁.regs.ip.toNat = m.memory.size ∧
      m₁.dataStack.items = [1] ∧ m₁.returnStack.items = [0] ∧
      ∀ m', r.perform m₁ = .ok () m' → m.performedInThread 1 = [(.runtime r, m₁)] := by
  have hip := h.ip_ne_zero
  have hfinal := (Native.mk h.table hr).finalAction_behind (m.regs.ip + 1) (by simp)
  have hfetches : m.Fetches (.runtime r) _ := ⟨_, Memory.get_of_some h.cell, hfinal⟩
  obtain ⟨hadvances, hdispatched⟩ := h.within.dispatched hip hfetches
  refine ⟨_, hdispatched, ?_, h.data_eq, h.return_eq, (hfetches.performedInThread_succ 0 hip).1⟩
  rw [hadvances.toNat_ip, h.ip_eq, h.size_eq]
  rfl

/-- An `exit` in the last cell of the largest memory returns, and nothing can be fetched from behind
it. -/
theorem runThread_ends_exactly_at_last_cell :
    ∃ m m₁ m' : Machine, m.WithinRegions ∧ m.memory.size = maxCoreSize ∧
      m.performedInThread 1 = [(.runtime .exit, m₁)] ∧ m.Advances 1 m₁ ∧
      m₁.regs.ip.toNat = m.memory.size ∧ m.runThread 1 = some (.ok () m') ∧
      Exec.fetch m₁.regs.ip.toNat m = .error .invalidMemoryAddress m := by
  obtain ⟨m, h⟩ := exists_atLastCell .exit
  obtain ⟨m₁, hdispatched, hend, -, hreturns, hperformed⟩ := h.dispatched rfl
  have hpop := Exec.onReturn_of_ok (hdispatched.within.returnStack.pop_of_cons hreturns)
  obtain ⟨m', hexit⟩ : ∃ m', Runtime.exit.perform m₁ = .ok () m' := ⟨_, bind_of_ok hpop⟩
  have hlist := hperformed m' hexit
  have hended : EndedBy m' (m.performedInThread 1) := by
    rw [hlist]
    exact ⟨.exit, m₁, rfl, hexit, .returned (congrArg List.head? hreturns)⟩
  obtain ⟨hfetch, -, hadvances, -, -, -, hends, -⟩ := runThread_ends_exactly h.within
  exact ⟨m, m₁, m', h.within, h.size_eq, hlist,
    hadvances (.runtime .exit, m₁) (hlist ▸ List.mem_singleton_self _), hend,
    (hends 1 m').mpr (.inr ⟨h.ip_ne_zero, hended⟩), hfetch _ (Nat.le_of_eq hend.symm)⟩

/-- A conditional jump in that cell, if it is not taken, ends the code though it has not
returned. -/
theorem runThread_ends_behind_last_cell :
    ∃ m m₁ m' : Machine, m.WithinRegions ∧ m.GuardsW ∧ m.regs.ip ≠ 0 ∧
      m.performedInThread 1 = [(.runtime .zeroBranch, m₁)] ∧
      Runtime.zeroBranch.jumps? m₁ = some false ∧ m₁.regs.ip.toNat = m.memory.size ∧
      m.runThread 1 = some (.ok () m') ∧ m'.returnStack.items = [0] := by
  obtain ⟨m, h⟩ := exists_atLastCell .zeroBranch
  obtain ⟨m₁, hdispatched, hend, hdata, hreturns, hperformed⟩ := h.dispatched rfl
  have hthread := Exec.requireThread_of_ne_zero hdispatched.ip_ne_zero
  have hpop := (Exec.pop_of_cons hdispatched.within.ordered hdata).1
  obtain ⟨m', hskip, hsame⟩ : ∃ m', Runtime.zeroBranch.perform m₁ = .ok () m' ∧
      m'.returnStack.items = m₁.returnStack.items :=
    ⟨_, (bind_of_ok hthread).trans (bind_of_ok hpop), rfl⟩
  have hlist := hperformed m' hskip
  have hjumps : Runtime.zeroBranch.jumps? m₁ = some false := by
    rw [Runtime.jumps?, hdata]
    rfl
  have hended : EndedBy m' (m.performedInThread 1) := by
    have hle := hdispatched.ip_le
    have hsize : m₁.memory.size ≤ maxCoreSize := hdispatched.within.size_le
    have hlargest := h.size_eq
    rw [hlist]
    exact ⟨.zeroBranch, m₁, rfl, hskip, .skipped hjumps (by omega) (by omega)⟩
  exact ⟨m, m₁, m', h.within, h.guardsW, h.ip_ne_zero, hlist, hjumps, hend,
    (h.within.runThread_iff_endedBy h.ip_ne_zero 1).mpr hended, hsame.trans hreturns⟩

end Machine

end CellForth
