import CellForth.Proofs.Heredity

/-!
# Invariants of actions and interpreters

A property of machines lasts if it is kept by the operations that all actions are made of, by
reading input, and by a change of the token that was read last. `Lasting P` says so, and the
theorems about it conclude that `P` is kept by every action (`Lasting.step`), by every word
(`Lasting.execute`), by every run of threaded code (`Lasting.runThread`) and of the outer
interpreter (`Lasting.interpret`).

Most invariants do not depend on the devices at all and do not care which record a definition is
begun with. `Elementary P` asks only for the elementary operations then, and includes registering an
action, which a host can do. One that speaks only of the actions and of the places that hold a fault
costs a single check, for registering an action (`Elementary.of_alike`); no other operation comes
near these. `Plain P` is for what a host can do without running words; the operations that move the
compiler do not matter there.
-/

namespace CellForth

/-! ### The two interpreters, one step at a time -/

namespace Machine

variable {m m' : Machine}

theorem stepThread_of_error {e : Fault} (hget : m.memory.get m.regs.ip.toNat = .error e) :
    stepThread m = .error e m := by
  have hfetch : Exec.fetch m.regs.ip.toNat m = .error e m :=
    observe_of_error (f := fun m : Machine => m.memory.get _) hget
  unfold stepThread
  rw [Exec.bind_reg, bind_of_error hfetch]

theorem stepThread_of_ok {xt : Cell} (hget : m.memory.get m.regs.ip.toNat = .ok xt) :
    stepThread m = (Exec.execute xt >>= fun _ => pure ())
      { m with regs := { m.regs with ip := m.regs.ip + 1 } } := by
  have hfetch : Exec.fetch m.regs.ip.toNat m = .ok xt m :=
    observe_of_ok (f := fun m : Machine => m.memory.get _) hget
  unfold stepThread
  rw [Exec.bind_reg, bind_of_ok hfetch, Exec.jump, Exec.bind_setRegs]

theorem runThread_of_eq_zero (steps : Nat) (hip : m.regs.ip = 0) :
    m.runThread steps = some (.ok () m) := by
  unfold runThread
  exact if_pos hip

theorem runThread_zero (hip : m.regs.ip ≠ 0) : m.runThread 0 = none := by
  unfold runThread
  exact if_neg hip

theorem runThread_succ (steps : Nat) (hip : m.regs.ip ≠ 0) :
    m.runThread (steps + 1) =
      match stepThread m with
      | .ok _ m => m.runThread steps
      | .error e m => some (.error e m) := by
  rw [runThread.eq_def]
  exact if_neg hip

theorem interpret_of_error {e : Fault} (steps : Nat) (hparse : Exec.parseWord m = .error e m') :
    m.interpret steps = some (.error e m') := by
  unfold interpret
  simp only [hparse]

theorem interpret_of_nil (steps : Nat) (hparse : Exec.parseWord m = .ok () m')
    (htoken : m'.token = []) : m.interpret steps = some (.ok () m') := by
  unfold interpret
  simp [hparse, htoken]

theorem interpret_zero (hparse : Exec.parseWord m = .ok () m') (htoken : m'.token ≠ []) :
    m.interpret 0 = none := by
  unfold interpret
  simp [hparse, htoken]

theorem interpret_succ (steps : Nat) (hparse : Exec.parseWord m = .ok () m')
    (htoken : m'.token ≠ []) :
    m.interpret (steps + 1) =
      match m'.interpretToken steps m'.token with
      | none => none
      | some (.error e m) => some (.error e m)
      | some (.ok _ m) => m.interpret steps := by
  rw [interpret.eq_def]
  dsimp only
  rw [hparse]
  exact if_neg (by simpa using htoken)

/-- Threaded code that ends has nothing to do, or it faults in a step, or it ends as the code behind
a step does. -/
theorem runThread_induction {motive : Nat → Machine → EStateM.Result Fault Machine Unit → Prop}
    (stop : ∀ steps m, m.regs.ip = 0 → motive steps m (.ok () m))
    (fault : ∀ steps m e m', m.regs.ip ≠ 0 → stepThread m = .error e m' →
      motive (steps + 1) m (.error e m'))
    (step : ∀ steps m m' r, m.regs.ip ≠ 0 → stepThread m = .ok () m' → motive steps m' r →
      motive (steps + 1) m r)
    {steps : Nat} {m : Machine} {r : EStateM.Result Fault Machine Unit}
    (h : m.runThread steps = some r) : motive steps m r := by
  induction steps generalizing m with
  | zero =>
    by_cases hip : m.regs.ip = 0
    · rw [runThread_of_eq_zero _ hip] at h
      cases h
      exact stop 0 m hip
    · -- Out of steps with the pointer still set, the run has no result.
      rw [runThread_zero hip] at h
      cases h
  | succ steps ih =>
    by_cases hip : m.regs.ip = 0
    · rw [runThread_of_eq_zero _ hip] at h
      cases h
      exact stop _ m hip
    · rw [runThread_succ _ hip] at h
      cases hstep : stepThread m with
      | ok _ m' =>
        rw [hstep] at h
        exact step steps m m' r hip hstep (ih h)
      | error e m' =>
        rw [hstep] at h
        cases h
        exact fault steps m e m' hip hstep

/-- How interpreting comes to its end: no token can be read or none is left, or one faults, or it
ends as it does behind the first token. -/
theorem interpret_cases {steps : Nat} {r : EStateM.Result Fault Machine Unit}
    (h : m.interpret steps = some r) :
    (∃ e m', Exec.parseWord m = .error e m' ∧ r = .error e m') ∨
    (∃ m', Exec.parseWord m = .ok () m' ∧ m'.token = [] ∧ r = .ok () m') ∨
    ∃ n m₁, steps = n + 1 ∧ Exec.parseWord m = .ok () m₁ ∧ m₁.token ≠ [] ∧
      ((∃ e m', m₁.interpretToken n m₁.token = some (.error e m') ∧ r = .error e m') ∨
        ∃ m₂, m₁.interpretToken n m₁.token = some (.ok () m₂) ∧ m₂.interpret n = some r) := by
  cases hparse : Exec.parseWord m with
  | error e m₁ =>
    rw [interpret_of_error _ hparse] at h
    cases h
    exact .inl ⟨e, m₁, rfl, rfl⟩
  | ok _ m₁ =>
    by_cases htoken : m₁.token = []
    · rw [interpret_of_nil _ hparse htoken] at h
      cases h
      exact .inr (.inl ⟨m₁, rfl, htoken, rfl⟩)
    · cases steps with
      | zero =>
        -- A token is left, and no step to interpret it with.
        rw [interpret_zero hparse htoken] at h
        cases h
      | succ n =>
        refine .inr (.inr ⟨n, m₁, rfl, rfl, htoken, ?_⟩)
        rw [interpret_succ _ hparse htoken] at h
        cases hrun : m₁.interpretToken n m₁.token with
        | none =>
          rw [hrun] at h
          cases h
        | some r' =>
          rw [hrun] at h
          cases r' with
          | error e m₂ =>
            cases h
            exact .inl ⟨e, m₂, rfl, rfl⟩
          | ok _ m₂ => exact .inr ⟨m₂, rfl, h⟩

/-- Interpreting ends without a fault by finding no token, or by a token and what follows it. -/
theorem interpret_ok_cases {steps : Nat} {u : Unit} (h : m.interpret steps = some (.ok u m')) :
    (Exec.parseWord m = .ok () m' ∧ m'.token = []) ∨
      ∃ n m₁ m₂, steps = n + 1 ∧ Exec.parseWord m = .ok () m₁ ∧ m₁.token ≠ [] ∧
        m₁.interpretToken n m₁.token = some (.ok () m₂) ∧ m₂.interpret n = some (.ok u m') := by
  obtain ⟨e, m₁, -, hr⟩ | ⟨m₁, hparse, htoken, hr⟩ | ⟨n, m₁, hsteps, hparse, htoken, hrun⟩ :=
    interpret_cases h
  · cases hr
  · cases hr
    exact .inl ⟨hparse, htoken⟩
  · obtain ⟨e, m₂, -, hr⟩ | ⟨m₂, hfirst, hrest⟩ := hrun
    · cases hr
    · exact .inr ⟨n, m₁, m₂, hsteps, hparse, htoken, hfirst, hrest⟩

theorem interpret_induction {motive : Nat → Machine → EStateM.Result Fault Machine Unit → Prop}
    (unread : ∀ steps m e m', Exec.parseWord m = .error e m' → motive steps m (.error e m'))
    (ended : ∀ steps m m', Exec.parseWord m = .ok () m' → m'.token = [] →
      motive steps m (.ok () m'))
    (fault : ∀ steps m m₁ e m', Exec.parseWord m = .ok () m₁ → m₁.token ≠ [] →
      m₁.interpretToken steps m₁.token = some (.error e m') → motive (steps + 1) m (.error e m'))
    (token : ∀ steps m m₁ m₂ r, Exec.parseWord m = .ok () m₁ → m₁.token ≠ [] →
      m₁.interpretToken steps m₁.token = some (.ok () m₂) → motive steps m₂ r →
      motive (steps + 1) m r)
    {steps : Nat} {m : Machine} {r : EStateM.Result Fault Machine Unit}
    (h : m.interpret steps = some r) : motive steps m r := by
  induction steps generalizing m with
  | zero =>
    obtain ⟨e, m', hparse, rfl⟩ | ⟨m', hparse, htoken, rfl⟩ | ⟨_, _, hsteps, -⟩ := interpret_cases h
    · exact unread 0 m e m' hparse
    · exact ended 0 m m' hparse htoken
    · cases hsteps
  | succ steps ih =>
    obtain ⟨e, m', hparse, rfl⟩ | ⟨m', hparse, htoken, rfl⟩ |
        ⟨n, m₁, hsteps, hparse, htoken, hrun⟩ := interpret_cases h
    · exact unread _ m e m' hparse
    · exact ended _ m m' hparse htoken
    · cases hsteps
      obtain ⟨e, m', hfault, rfl⟩ | ⟨m₂, hfirst, hrest⟩ := hrun
      · exact fault steps m m₁ e m' hparse htoken hfault
      · exact token steps m m₁ m₂ r hparse htoken hfirst (ih hrest)

end Machine

/-! ### Running the word of a token -/

namespace Exec

variable {m : Machine} {xt code : Cell} {action : Action}

/-- An opcode leads to its action. -/
theorem resolve_of_opcode (hlt : xt.toNat < m.table.size)
    (hfield : CodeFields.standard.contains xt = false)
    (haction : m.table[xt.toNat]? = some action) : resolve xt m = .ok action m := by
  unfold resolve
  refine Eq.trans (bind_of_ok (observe_of_ok rfl)) ?_
  simp only [hlt, if_true]
  refine Eq.trans (bind_of_ok (observe_of_ok (demand_of_pos hfield))) ?_
  refine Eq.trans (bind_of_ok rfl) ?_
  exact observe_of_ok (by rw [haction])

/-- An opcode for code fields leads nowhere by itself. -/
theorem resolve_of_field (hlt : xt.toNat < m.table.size)
    (hfield : CodeFields.standard.contains xt = true) :
    resolve xt m = .error .invalidMemoryAddress m := by
  have hnot : ¬CodeFields.standard.contains xt = false := by simp [hfield]
  unfold resolve
  refine Eq.trans (bind_of_ok (observe_of_ok rfl)) ?_
  simp only [hlt, if_true]
  exact bind_of_error (observe_of_error (demand_of_neg hnot))

/-- The address of a code field leads to the action of the opcode there. -/
theorem resolve_of_address (hle : m.table.size ≤ xt.toNat)
    (hcode : m.memory.get xt.toNat = .ok code) (haction : m.table[code.toNat]? = some action) :
    resolve xt m = .ok action { m with regs := { m.regs with w := xt } } := by
  unfold resolve
  refine Eq.trans (bind_of_ok (observe_of_ok rfl)) ?_
  simp only [Nat.not_lt.mpr hle, if_false]
  rw [bind_setRegs]
  refine Eq.trans (bind_of_ok (observe_of_ok hcode)) ?_
  exact observe_of_ok (by rw [haction])

/-- Resolving a token changes nothing but the register `w`. -/
theorem exists_of_resolve {m' : Machine} (h : resolve xt m = .ok action m') :
    ∃ w, m' = { m with regs := { m.regs with w := w } } := by
  have hkept :
      Keeps (fun m' => ∃ w, m' = { m with regs := { m.regs with w := w } }) (resolve xt) := by
    refine .bind (.observe _) fun _ =>
      .ite (.bind (.settle _) fun _ => .bind (.pure _) fun _ => .observe _)
        (.bind ?_ fun _ => .bind (.observe _) fun _ => .observe _)
    rintro _ ⟨w, rfl⟩
    exact ⟨xt, rfl⟩
  have hend := hkept m ⟨m.regs.w, rfl⟩
  rwa [h] at hend

/-- A token leads to an action of the table only. -/
theorem mem_of_resolve {m' : Machine} (h : resolve xt m = .ok action m') : action ∈ m.table := by
  obtain ⟨w, hm'⟩ := exists_of_resolve h
  obtain ⟨_, m₁, -, h⟩ := exists_of_bind_ok h
  split at h <;> obtain ⟨_, m₂, -, h⟩ := exists_of_bind_ok h <;>
    obtain ⟨op, m₃, -, h⟩ := exists_of_bind_ok h <;> obtain ⟨haction, rfl⟩ := observe_eq_ok_iff.mp h
  all_goals
    split at haction <;> cases haction
    subst hm'
    exact Array.mem_of_getElem? ‹_›

theorem act_eq (action : Action) (m : Machine) :
    act action m = actWithin m.dataStack.size action m :=
  bind_of_ok (observe_of_ok rfl)

/-- Most actions are single steps. -/
theorem act_of_step (hexecute : action ≠ .execute) (hresume : action ≠ .resume) :
    act action m = (action.step >>= fun _ => pure Continuation.done) m := by
  rw [act_eq, actWithin.eq_4 _ _ hresume (fun _ => hexecute) fun _ _ => hexecute]

/-- An item that was taken off was on top. -/
theorem pop_ok {m' : Machine} (hm : m.Ordered) {c : Cell} (h : pop m = .ok c m') :
    m.dataStack.items.head? = some c ∧ m.dataStack.Fits 1 [] ∧ m' = m.replaceData 1 [] := by
  have hlength := hm.dataStack.length_items
  cases hitems : m.dataStack.items with
  | nil =>
    rw [pop, onData_of_error (hm.dataStack.pop_of_nil hitems)] at h
    cases h
  | cons top rest =>
    rw [hitems, List.length_cons] at hlength
    rw [pop, onData_of_ok (hm.dataStack.pop_of_cons hitems)] at h
    cases h
    exact ⟨rfl, ⟨by omega, Nat.zero_le _⟩, rfl⟩

/-- An item that was taken off is gone. -/
theorem size_of_pop {m' : Machine} {c : Cell} (h : pop m = .ok c m') :
    m.dataStack.size = m'.dataStack.size + 1 := by
  cases hpop : Stack.pop m.dataStack with
  | error e s =>
    rw [pop, onData_of_error hpop] at h
    cases h
  | ok v s =>
    rw [pop, onData_of_ok hpop] at h
    cases h
    obtain ⟨pointer, rfl, hsize⟩ := Stack.exists_of_pop hpop
    exact hsize

/-- An `execute` takes a token off the stack and runs its word, whatever that is. The number of
rounds that `act` allows is no restriction. -/
theorem act_execute_eq : act .execute = pop >>= execute := by
  funext m
  rw [act_eq]
  cases hsize : m.dataStack.size with
  | zero =>
    have hpop : pop m = .error .stackUnderflow m :=
      onData_of_error (Stack.pop_of_size_eq_zero hsize)
    exact (bind_of_error hpop).symm
  | succ rounds =>
    rw [actWithin]
    cases hpop : pop m with
    | error e m₁ => rw [bind_of_error hpop, bind_of_error hpop]
    | ok xt m₁ =>
      rw [bind_of_ok hpop, bind_of_ok hpop, execute]
      cases hresolve : resolve xt m₁ with
      | error e m₂ => rw [bind_of_error hresolve, bind_of_error hresolve]
      | ok action m₂ =>
        -- As many rounds are left as there are items, which is what `execute` starts with.
        have hrounds : m₂.dataStack.size = rounds := by
          obtain ⟨w, rfl⟩ := exists_of_resolve hresolve
          have hone := size_of_pop hpop
          rw [hsize] at hone
          exact (Nat.succ.inj hone).symm
        rw [bind_of_ok hresolve, bind_of_ok hresolve, ← hrounds, act_eq]

/-- What a token has been taken for: a number, or a word that was compiled, or one that has run. -/
theorem enterToken_ok_cases {token : List UInt8} {m m' : Machine} {next : Continuation}
    (h : enterToken token m = .ok next m') :
    (∃ c, m.find token = .ok none ∧ next = .done ∧ enterNumber c m = .ok () m') ∨
    ∃ r, m.find token = .ok (some r) ∧
      ((m.regs.isCompiling && !r.isImmediate) = true ∧ next = .done ∧
          compileReference r m = .ok () m' ∨
        (m.regs.isCompiling && !r.isImmediate) = false ∧ next = .resume ∧
          ∃ action, execute (UInt16.ofNat r.codeField) m = .ok action m') := by
  obtain ⟨found, m₁, hlook, hrest⟩ := exists_of_bind_ok h
  obtain ⟨hfind, rfl⟩ := observe_eq_ok_iff.mp hlook
  cases found with
  | none =>
    simp only [bind_reg] at hrest
    cases hread : Numeral.read? token m₁.regs.base with
    | none =>
      rw [hread] at hrest
      cases hrest
    | some c =>
      rw [hread] at hrest
      obtain ⟨_, m₂, hnumber, hdone⟩ := exists_of_bind_ok hrest
      cases hdone
      exact .inl ⟨c, hfind, rfl, hnumber⟩
  | some r =>
    refine .inr ⟨r, hfind, ?_⟩
    simp only [bind_reg] at hrest
    cases hcompiles : m₁.regs.isCompiling && !r.isImmediate with
    | true =>
      simp only [hcompiles, if_true] at hrest
      obtain ⟨_, m₂, hcompile, hdone⟩ := exists_of_bind_ok hrest
      cases hdone
      exact .inl ⟨rfl, rfl, hcompile⟩
    | false =>
      simp only [hcompiles] at hrest
      obtain ⟨action, m₂, hexecute, hdone⟩ := exists_of_bind_ok hrest
      cases hdone
      exact .inr ⟨rfl, rfl, action, hexecute⟩

end Exec

/-! ### The action finally executed -/

namespace Exec

/-- What is left of an action when every `execute` has handed over to the word of the token that it
takes off the stack, with `rounds` items there. -/
def finalWithin : (rounds : Nat) → Action → Exec Action
  | 0, .execute => throw .stackUnderflow
  | rounds + 1, .execute => do
    let xt ← pop
    let action ← resolve xt
    finalWithin rounds action
  | _, action => return action

/-- The action that a token leads to in the end. -/
def finalAction (xt : Cell) : Exec Action := do
  let action ← resolve xt
  let rounds ← observe fun m => .ok m.dataStack.size
  finalWithin rounds action

/-- Runs an action that does not hand over. -/
def conclude : Action → Exec Continuation
  | .resume => return .resume
  | action => do
    action.step
    return .done

theorem actWithin_eq (rounds : Nat) (action : Action) :
    actWithin rounds action = finalWithin rounds action >>= conclude := by
  induction rounds, action using actWithin.induct with
  | case1 => rfl
  | case2 rounds ih =>
    rw [actWithin, finalWithin]
    simp only [bind_assoc, ih]
  | case3 rounds =>
    cases rounds <;> rfl
  | case4 rounds action hresume hnone hsome =>
    rw [actWithin.eq_4 _ _ hresume hnone hsome, finalWithin.eq_3 _ _ hnone hsome, pure_bind,
      conclude.eq_2 _ hresume]

/-- Running a word is finding the action it leads to, and running that. -/
theorem execute_eq_finalAction (xt : Cell) : execute xt = finalAction xt >>= conclude := by
  simp only [execute, finalAction, act, bind_assoc, actWithin_eq]

theorem finalWithin_steady {K : {α : Type} → Exec α → Prop} (h : Steady K) (rounds : Nat)
    (action : Action) : K (finalWithin rounds action) := by
  induction rounds, action using finalWithin.induct with
  | case1 => exact h.throw _
  | case2 rounds ih =>
    rw [finalWithin]
    exact h.bind h.pop fun _ => h.bind (h.resolve _) ih
  | case3 rounds action hnone hsome =>
    rw [finalWithin.eq_3 _ _ hnone hsome]
    exact h.pure _

/-- On the way to the action of a token, items are taken off the data stack and the register `w` is
set, and nothing else happens. -/
theorem finalAction_keeps {P : Machine → Prop} (hpop : Keeps P pop)
    (hsetW : ∀ xt, Keeps P (setRegs fun regs => { regs with w := xt })) (xt : Cell) :
    Keeps P (finalAction xt) := by
  have hresolve (xt : Cell) : Keeps P (resolve xt) :=
    .bind (.observe _) fun _ =>
      .ite (.bind (.settle _) fun _ => .bind (.pure _) fun _ => .observe _)
        (.bind (hsetW xt) fun _ => .bind (.observe _) fun _ => .observe _)
  have hwithin (rounds : Nat) (action : Action) : Keeps P (finalWithin rounds action) := by
    induction rounds, action using finalWithin.induct with
    | case1 => exact .throw _
    | case2 rounds ih =>
      rw [finalWithin]
      exact .bind hpop fun _ => .bind (hresolve _) ih
    | case3 rounds action hnone hsome =>
      rw [finalWithin.eq_3 _ _ hnone hsome]
      exact .pure _
  exact .bind (hresolve xt) fun _ => .bind (.observe _) fun _ => hwithin _ _

/-- A steady property is that of finding the action a token leads to. -/
theorem finalAction_steady {K : {α : Type} → Exec α → Prop} (h : Steady K) (xt : Cell) :
    K (finalAction xt) :=
  h.bind (h.resolve xt) fun _ => h.bind (h.look fun _ _ _ _ => rfl) fun _ =>
    finalWithin_steady h _ _

end Exec

/-! ### Closing a structure -/

/-- Two items that are taken off one after the other are taken off together. -/
theorem Machine.Ordered.replaceData_drop {m : Machine} (h : m.Ordered)
    (hsize : 1 < m.dataStack.size) :
    (m.replaceData 1 []).replaceData 1 [] = m.replaceData 2 [] :=
  congrArg m.withDataStack (h.dataStack.replaced_drop hsize [])

/-- The address of the entry on top of a row of items, if it has the given tag. -/
def ControlTag.addressIn? (tag : ControlTag) : List Cell → Option Cell
  | found :: address :: _ => if found = tag.cell then some address else none
  | _ => none

/-- A structure is closed if an entry with its tag is on top, and else everything stays. -/
theorem Exec.popControl_eq_addressIn? {m : Machine} (h : m.Ordered) (tag : ControlTag) :
    popControl tag m =
      match tag.addressIn? m.dataStack.items with
      | some address => .ok address (m.replaceData 2 [])
      | none => .error .controlMismatch m := by
  have hlength := h.dataStack.length_items
  unfold popControl
  match hitems : m.dataStack.items with
  | [] | [_] =>
    rw [hitems] at hlength
    exact bind_of_error (observe_of_error (demand_of_neg (by simp at hlength; omega)))
  | found :: address :: rest =>
    rw [hitems] at hlength
    simp only [List.length_cons] at hlength
    have hpeek : peek m = .ok found m := onData_of_ok (h.dataStack.peek_of_cons hitems)
    have htop : pop m = .ok found (m.replaceData 1 []) :=
      onData_of_ok (h.dataStack.pop_of_cons hitems)
    obtain ⟨hbelow, hitems'⟩ := h.dataStack.items_drop hitems
    have hnext : pop (m.replaceData 1 []) = .ok address (m.replaceData 2 []) := by
      rw [← h.replaceData_drop (by omega)]
      exact onData_of_ok (Stack.WithinBounds.pop_of_cons hbelow hitems')
    refine Eq.trans (bind_of_ok (observe_of_ok (demand_of_pos (by omega)))) ?_
    rw [bind_of_ok hpeek, ControlTag.addressIn?]
    by_cases htag : found = tag.cell
    · refine Eq.trans (bind_of_ok (observe_of_ok (demand_of_pos htag))) ?_
      rw [bind_of_ok htop, hnext, if_pos htag]
    · rw [if_neg htag]
      exact bind_of_error (observe_of_error (demand_of_neg htag))

/-! ### Input and output -/

/-- The property does not depend on input and output, on the token that was read last, or on the
journal. -/
def DeviceFree (P : Machine → Prop) : Prop :=
  ∀ (m : Machine) (input : Source) (output : Sink) (token : List UInt8) (journal : Journal),
    P m → P { m with input := input, output := output, token := token, journal := journal }

namespace DeviceFree

variable {P : Machine → Prop} (h : DeviceFree P)
include h

theorem parseWord : Keeps P Exec.parseWord := fun m hm => by
  unfold Exec.parseWord
  split
  · exact h m _ m.output _ m.journal hm
  · exact h m _ m.output _ m.journal hm

theorem parse (delimiter : UInt8) : Keeps P (Exec.parse delimiter) := fun m hm => by
  unfold Exec.parse
  split
  · exact h m _ m.output m.token m.journal hm
  · exact h m _ m.output m.token m.journal hm

theorem readByte : Keeps P (Exec.onInput Source.read) := fun m hm => by
  unfold Exec.onInput
  split
  · exact h m _ m.output m.token m.journal hm
  · exact h m _ m.output m.token m.journal hm

theorem write (bs : List UInt8) : Keeps P (Exec.write bs) := fun m hm => by
  unfold Exec.write
  split
  · exact h m m.input _ m.token m.journal hm
  · exact h m m.input _ m.token m.journal hm

theorem flush : Keeps P Exec.flush := fun m hm => by
  unfold Exec.flush
  split
  · exact h m m.input _ m.token m.journal hm
  · exact h m m.input _ m.token m.journal hm

theorem report (notice : Notice) : Keeps P (Exec.report notice) := fun m hm =>
  h m m.input m.output m.token _ hm

theorem parseName : Keeps P Exec.parseName :=
  .bind h.parseWord fun _ => .observe _

theorem parseToken : Keeps P Exec.parseToken :=
  .bind h.parseName fun _ => .bind (.observe _) fun found => by
    cases found with
    | some r => exact .pure _
    | none => exact .throw _

theorem parseChar : Keeps P Exec.parseChar :=
  .bind h.parseName fun _ => .pure _

/-- Of what only a few actions do, registering is left. -/
theorem outward (hadd : ∀ name {action : Action}, action.readsW = false →
    Keeps P (Exec.addRuntime name action)) : Outward fun op => Keeps P op where
  parse := h.parse
  readByte := h.readByte
  parseWord := h.parseWord
  addRuntime := hadd

end DeviceFree

/-- Registering an action changes the table and the journal at most. -/
theorem Exec.keeps_addRuntime {P : Machine → Prop}
    (hP : ∀ m table journal, P m → P { m with table := table, journal := journal })
    (name : String) (action : Action) : Keeps P (addRuntime name action) := by
  intro m hm
  rw [addRuntime_eq]
  split
  · exact hP m _ _ hm
  · exact hm

/-! ### Elementary operations -/

theorem Keeps.reg {α : Type} {P : Machine → Prop} (f : Registers → α) : Keeps P (Exec.reg f) :=
  fun _ hm => hm

/-- The property is kept by each of the operations that all actions are made of. -/
structure Basic (P : Machine → Prop) : Prop where
  /-- Safe operations of the data stack. -/
  onData {α : Type} {op : StackM α} : Stack.Safe op → Keeps P (Exec.onData op)
  /-- Safe operations of the return stack. -/
  onReturn {α : Type} {op : StackM α} : Stack.Safe op → Keeps P (Exec.onReturn op)
  /-- Storing a cell anywhere. -/
  put (pos : Nat) (c : Cell) : Keeps P (Exec.onMemory (Memory.put pos c))
  /-- Adding a cell to the dictionary. -/
  compileCell (c : Cell) : Keeps P (Exec.compileCell c)
  /-- Adding a string to the dictionary. -/
  compileString (bs : List UInt8) : Keeps P (Exec.compileString bs)
  /-- Adding a record to the dictionary. -/
  createRecord (name : List UInt8) (code flags : Cell) : Keeps P (Exec.createRecord name code flags)
  /-- Moving the end of the dictionary. -/
  allot (n : Int) : Keeps P (Exec.allot n)
  /-- Setting the instruction pointer. -/
  setIp (f : Registers → Cell) : Keeps P (Exec.setRegs fun regs => { regs with ip := f regs })
  /-- Setting the token of the word that runs. -/
  setW (xt : Cell) : Keeps P (Exec.setRegs fun regs => { regs with w := xt })
  /-- Setting a radix that exists. -/
  setBase (b : Cell) : 2 ≤ b ∧ b ≤ 36 → Keeps P (Exec.setRegs fun regs => { regs with base := b })
  /-- Switching between running and compiling. -/
  setMode (mode : Mode) : Keeps P (Exec.setMode mode)
  /-- Opening or closing a definition. -/
  setDefinition (address : Cell) (mode : Mode) :
    Keeps P (Exec.setRegs fun regs => { regs with defining := address, mode := mode })
  /-- Whatever happens to input and output, to the token that was read last and to the journal. -/
  devices (m : Machine) (input : Source) (output : Sink) (token : List UInt8)
    (journal : Journal) :
    P m → P { m with input := input, output := output, token := token, journal := journal }

/-- The property is kept by each of the operations that all actions are made of, and if an action is
added to those that the machine has. -/
structure Elementary (P : Machine → Prop) : Prop extends Basic P where
  /-- Giving an action the next opcode. -/
  addRuntime (name : String) (action : Action) : Keeps P (Exec.addRuntime name action)

/-- Of two properties, each can be checked on its own. -/
theorem Elementary.and {P Q : Machine → Prop} (hP : Elementary P) (hQ : Elementary Q) :
    Elementary fun m => P m ∧ Q m where
  onData hop := (hP.onData hop).and (hQ.onData hop)
  onReturn hop := (hP.onReturn hop).and (hQ.onReturn hop)
  put pos c := (hP.put pos c).and (hQ.put pos c)
  compileCell c := (hP.compileCell c).and (hQ.compileCell c)
  compileString bs := (hP.compileString bs).and (hQ.compileString bs)
  createRecord name code flags :=
    (hP.createRecord name code flags).and (hQ.createRecord name code flags)
  allot n := (hP.allot n).and (hQ.allot n)
  setIp f := (hP.setIp f).and (hQ.setIp f)
  setW xt := (hP.setW xt).and (hQ.setW xt)
  setBase b hb := (hP.setBase b hb).and (hQ.setBase b hb)
  setMode mode := (hP.setMode mode).and (hQ.setMode mode)
  setDefinition address mode :=
    (hP.setDefinition address mode).and (hQ.setDefinition address mode)
  addRuntime name action := (hP.addRuntime name action).and (hQ.addRuntime name action)
  devices m input output token journal hm :=
    ⟨hP.devices m input output token journal hm.1, hQ.devices m input output token journal hm.2⟩

/-! ### What elementary operations leave alone -/

/-- The machines have the same actions, and the same in the two places that hold a fault. -/
structure Machine.Alike (m m' : Machine) : Prop where
  /-- Opcodes lead to the same actions. -/
  table : m'.table = m.table
  /-- The register has the same flag. -/
  fault : m'.regs.fault = m.regs.fault
  /-- The last fault is the same. -/
  lastFault : m'.lastFault = m.lastFault

namespace Machine.Alike

variable {m₀ : Machine} {α : Type}

theorem onMemory (op : EStateM Fault Memory α) : Keeps m₀.Alike (Exec.onMemory op) := by
  intro m hm
  rw [Exec.onMemory_eq]
  cases op m.memory <;> exact { hm with }

theorem onData (op : StackM α) : Keeps m₀.Alike (Exec.onData op) := by
  intro m hm
  rw [Exec.onData_eq]
  cases op m.dataStack <;> exact { hm with }

theorem onReturn (op : StackM α) : Keeps m₀.Alike (Exec.onReturn op) := by
  intro m hm
  rw [Exec.onReturn_eq]
  cases op m.returnStack <;> exact { hm with }

theorem setRegs {g : Registers → Registers} (hg : ∀ regs, (g regs).fault = regs.fault) :
    Keeps m₀.Alike (Exec.setRegs g) :=
  fun m hm => { hm with fault := (hg m.regs).trans hm.fault }

theorem compileCell (c : Cell) : Keeps m₀.Alike (Exec.compileCell c) :=
  .bind (.observe _) fun _ => .bind (.reg _) fun _ => .bind (onMemory _) fun _ =>
    setRegs fun _ => rfl

theorem packBytes (bs : List UInt8) : Keeps m₀.Alike (Exec.packBytes bs) :=
  .bind (.reg _) fun _ => .bind (onMemory _) fun _ => setRegs fun _ => rfl

theorem noteRedefinition (name : List UInt8) : Keeps m₀.Alike (Exec.noteRedefinition name) := by
  intro m hm
  obtain ⟨journal, hnote⟩ := Exec.noteRedefinition_eq name m
  rw [hnote]
  exact { hm with }

theorem createRecord (name : List UInt8) (code flags : Cell) :
    Keeps m₀.Alike (Exec.createRecord name code flags) :=
  .bind (.settle _) fun _ => .bind (.settle _) fun _ => .bind (.observe _) fun _ =>
    .bind (noteRedefinition name) fun _ => .bind (.reg _) fun _ => .bind (.reg _) fun _ =>
      .bind (compileCell _) fun _ => .bind (compileCell _) fun _ => .bind (packBytes name) fun _ =>
        .bind (compileCell _) fun _ => .bind (setRegs fun _ => rfl) fun _ => .pure _

theorem keeps {P : Machine → Prop} (hP : ∀ m m', m.Alike m' → P m → P m') {op : Exec α}
    (hop : ∀ m₀ : Machine, Keeps m₀.Alike op) : Keeps P op :=
  fun m hm => hP m _ (hop m m ⟨rfl, rfl, rfl⟩) hm

end Machine.Alike

open Machine in
/-- None of the operations that actions are made of makes a machine unlike what it was. -/
theorem Basic.of_alike {P : Machine → Prop} (hP : ∀ m m', m.Alike m' → P m → P m') : Basic P where
  onData _ := Alike.keeps hP fun _ => Alike.onData _
  onReturn _ := Alike.keeps hP fun _ => Alike.onReturn _
  put _ _ := Alike.keeps hP fun _ => Alike.onMemory _
  compileCell c := Alike.keeps hP fun _ => Alike.compileCell c
  compileString _ := Alike.keeps hP fun _ =>
    .bind (.observe _) fun _ => .bind (Alike.compileCell _) fun _ => Alike.packBytes _
  createRecord name code flags := Alike.keeps hP fun _ => Alike.createRecord name code flags
  allot _ := Alike.keeps hP fun _ =>
    .bind (.reg _) fun _ => .bind (.observe _) fun _ => .bind (.settle _) fun _ =>
      Alike.setRegs fun _ => rfl
  setIp _ := Alike.keeps hP fun _ => Alike.setRegs fun _ => rfl
  setW _ := Alike.keeps hP fun _ => Alike.setRegs fun _ => rfl
  setBase _ _ := Alike.keeps hP fun _ => Alike.setRegs fun _ => rfl
  setMode _ := Alike.keeps hP fun _ => Alike.setRegs fun _ => rfl
  setDefinition _ _ := Alike.keeps hP fun _ => Alike.setRegs fun _ => rfl
  devices m _ _ _ _ hm := hP m _ ⟨rfl, rfl, rfl⟩ hm

/-- Of the elementary operations, only registering an action can do so. -/
theorem Elementary.of_alike {P : Machine → Prop} (hP : ∀ m m', m.Alike m' → P m → P m')
    (hadd : ∀ name action, Keeps P (Exec.addRuntime name action)) : Elementary P where
  toBasic := .of_alike hP
  addRuntime := hadd

/-! ### Lasting properties -/

/-- The property is kept by what actions are made of, by reading input and registering words, and by
another token. -/
structure Lasting (P : Machine → Prop) : Prop extends Outward fun op => Keeps P op where
  /-- The elementary operations. -/
  hereditary : Hereditary fun op => Keeps P op
  /-- Changing the token that was read last. -/
  token (m : Machine) (t : List UInt8) : P m → P { m with token := t }

namespace Lasting

variable {P : Machine → Prop} (h : Lasting P)
include h

/-- Every action that is a single step keeps the property. -/
theorem step (action : Action) : Keeps P action.step :=
  h.hereditary.step h.toOutward action

theorem conclude (action : Action) : Keeps P (Exec.conclude action) := by
  by_cases hresume : action = .resume
  · subst hresume
    exact .pure _
  · rw [Exec.conclude.eq_2 _ hresume]
    exact .bind (h.step action) fun _ => .pure _

theorem actWithin (rounds : Nat) (action : Action) : Keeps P (Exec.actWithin rounds action) := by
  induction rounds, action using Exec.actWithin.induct with
  | case1 => exact .throw _
  | case2 rounds ih =>
    rw [Exec.actWithin]
    exact .bind h.hereditary.pop fun _ => .bind (h.hereditary.resolve _) ih
  | case3 rounds =>
    rw [Exec.actWithin]
    exact .pure _
  | case4 rounds action hresume hnone hsome =>
    rw [Exec.actWithin.eq_4 _ _ hresume hnone hsome]
    exact .bind (h.step action) fun _ => .pure _

theorem act (action : Action) : Keeps P (Exec.act action) :=
  .bind (.observe _) fun _ => h.actWithin _ action

/-- Every word keeps the property. -/
theorem execute (xt : Cell) : Keeps P (Exec.execute xt) :=
  .bind (h.hereditary.resolve xt) fun action => h.act action

theorem stepThread : Keeps P Machine.stepThread :=
  .bind (.reg _) fun _ => .bind (.observe _) fun _ => .bind (h.hereditary.jump _) fun _ =>
    .bind (h.execute _) fun _ => .pure _

/-- A run of threaded code that ends, ends with the property. -/
theorem runThread {steps : Nat} {m : Machine} {r : EStateM.Result Fault Machine Unit}
    (hm : P m) (hr : m.runThread steps = some r) : P (endState r) := by
  refine Machine.runThread_induction (motive := fun _ m r => P m → P (endState r))
    (fun _ _ _ => id) ?_ ?_ hr hm
  · intro _ m e m' _ hstep hm
    have hkept := h.stepThread m hm
    rwa [hstep] at hkept
  · intro _ m m' r _ hstep ih hm
    have hkept := h.stepThread m hm
    rw [hstep] at hkept
    exact ih hkept

theorem continueWith {steps : Nat} {c : EStateM.Result Fault Machine Continuation}
    {r : EStateM.Result Fault Machine Unit} (hc : P (endState c))
    (hr : Machine.continueWith steps c = some r) : P (endState r) := by
  unfold Machine.continueWith at hr
  split at hr
  · cases hr
    exact hc
  · exact h.runThread hc hr
  · cases hr
    exact hc

theorem runAction {steps : Nat} {action : Action} {m : Machine}
    {r : EStateM.Result Fault Machine Unit} (hm : P m)
    (hr : m.runAction steps action = some r) : P (endState r) :=
  h.continueWith (h.act action m hm) hr

theorem runToken {steps : Nat} {xt : Cell} {m : Machine}
    {r : EStateM.Result Fault Machine Unit} (hm : P m)
    (hr : m.runToken steps xt = some r) : P (endState r) :=
  h.continueWith (h.execute xt m hm) hr

/-! ### The outer interpreter -/

theorem enterToken (token : List UInt8) : Keeps P (Exec.enterToken token) :=
  .bind (.observe _) fun found => by
    cases found with
    | some r =>
      exact .bind (.reg _) fun _ => .ite (.bind (h.hereditary.compileReference r) fun _ => .pure _)
        (.bind (h.execute _) fun _ => .pure _)
    | none =>
      refine .bind (.reg _) fun base => ?_
      split
      · exact .bind (.bind (.reg _) fun _ =>
          .ite (h.hereditary.compileInteger _) (h.hereditary.push _)) fun _ => .pure _
      · exact .throw _

theorem restoreToken {m : Machine} (token : List UInt8) (hm : P m) : P (m.restoreToken token) := by
  unfold Machine.restoreToken
  split
  · exact h.token m token hm
  · exact hm

theorem interpretToken {steps : Nat} {token : List UInt8} {m : Machine}
    {r : EStateM.Result Fault Machine Unit} (hm : P m)
    (hr : m.interpretToken steps token = some r) : P (endState r) := by
  have henter := h.enterToken token _ (h.token m [] hm)
  unfold Machine.interpretToken at hr
  split at hr
  · cases hr
  · rename_i m' hok
    cases hr
    exact h.restoreToken token (h.continueWith henter hok)
  · rename_i e m' herror
    cases hr
    exact h.restoreToken token (h.continueWith henter herror)

/-- A run of the outer interpreter that ends, ends with the property. -/
theorem interpret {steps : Nat} {m : Machine} {r : EStateM.Result Fault Machine Unit}
    (hm : P m) (hr : m.interpret steps = some r) : P (endState r) := by
  have hparsed {m : Machine} {r : EStateM.Result Fault Machine Unit} (hparse : Exec.parseWord m = r)
      (hm : P m) : P (endState r) := hparse ▸ h.parseWord m hm
  refine Machine.interpret_induction (motive := fun _ m r => P m → P (endState r))
    (fun _ _ _ _ hparse => hparsed hparse) (fun _ _ _ hparse _ => hparsed hparse) ?_ ?_ hr hm
  · intro _ m m₁ e m' hparse _ hrun hm
    exact h.interpretToken (hparsed hparse hm) hrun
  · intro _ m m₁ m₂ r hparse _ hrun ih hm
    exact ih (h.interpretToken (hparsed hparse hm) hrun)

end Lasting

/-! ### What a host can do without running words -/

/-- The property is kept by what a host can do to a machine without running words. -/
structure Plain (P : Machine → Prop) : Prop where
  /-- What does not move the compiler. -/
  steady : Steady fun op => Keeps P op
  /-- Reading a token. -/
  parseWord : Keeps P Exec.parseWord
  /-- Reading up to a delimiter. -/
  parse (delimiter : UInt8) : Keeps P (Exec.parse delimiter)
  /-- Reading a byte. -/
  readByte : Keeps P (Exec.onInput Source.read)
  /-- Giving an action the next opcode. -/
  addRuntime (name : String) (action : Action) : Keeps P (Exec.addRuntime name action)
  /-- Other input. -/
  input (m : Machine) (source : Source) : P m → P { m with input := source }
  /-- Another sink. -/
  output (m : Machine) (sink : Sink) : P m → P { m with output := sink }
  /-- A notice in the journal. -/
  report (m : Machine) (notice : Notice) : P m → P (m.report notice)

namespace Plain

variable {P : Machine → Prop} (h : Plain P)
include h

theorem outward : Outward fun op => Keeps P op where
  parse := h.parse
  readByte := h.readByte
  parseWord := h.parseWord
  addRuntime name action _ := h.addRuntime name action

theorem addPrimitive (name : String) (action : Action) : Keeps P (Exec.addPrimitive name action) :=
  h.steady.addPrimitive (h.addRuntime name action)

theorem addImmediate (name : String) (action : Action) : Keeps P (Exec.addImmediate name action) :=
  h.steady.addImmediate (h.addRuntime name action)

theorem addBuiltin (word : Builtin) : Keeps P (Exec.addBuiltin word) :=
  h.steady.addBuiltin (h.addRuntime word.name word.action)

theorem addVocabulary : Keeps P Exec.addVocabulary :=
  .bind (.forM fun _ _ => .bind (h.addRuntime _ _) fun _ => .pure _) fun _ =>
    .forM fun word _ => h.addBuiltin word

theorem setText (text : String) {m : Machine} (hm : P m) : P (m.setText text) :=
  h.input _ _ (h.report m _ hm)

end Plain

namespace Basic

variable {P : Machine → Prop} (h : Basic P)
include h

theorem write (bs : List UInt8) : Keeps P (Exec.write bs) := DeviceFree.write h.devices bs

theorem flush : Keeps P Exec.flush := DeviceFree.flush h.devices

theorem report (notice : Notice) : Keeps P (Exec.report notice) :=
  DeviceFree.report h.devices notice

theorem noteDefinition (address : Cell) : Keeps P (Exec.noteDefinition address) :=
  .bind (.observe _) fun _ =>
    .ite (.bind (.observe _) fun _ => .bind (.reg _) fun _ => h.report _) (.pure _)

theorem hereditary : Hereditary fun op => Keeps P op where
  look _ := .observe _
  bind := .bind
  onData := h.onData
  onReturn := h.onReturn
  put := h.put
  compileCell := h.compileCell
  compileString := h.compileString
  createRecord := h.createRecord
  allot := h.allot
  setIp := h.setIp
  setW := h.setW
  setBase := h.setBase
  setMode := h.setMode
  beginDefinition :=
    .bind (.observe _) fun _ => .bind (DeviceFree.parseName h.devices) fun _ =>
      .bind (h.createRecord _ _ _) fun _ => .bind (h.onData (.pushTwo _ _)) fun _ =>
        .bind (h.setDefinition _ _) fun _ => h.report _
  endDefinition :=
    have hpop : Keeps P (Exec.popControl .definition) :=
      .bind (.observe _) fun _ => .bind (h.onData .peek) fun _ => .bind (.settle _) fun _ =>
        .bind (h.onData .pop) fun _ => h.onData .pop
    have hreveal (address : Nat) : Keeps P (Exec.reveal address) :=
      .bind (.settle _) fun _ => .bind (.observe _) fun _ => h.put _ _
    .bind (.observe _) fun _ => .bind hpop fun _ => .bind (.observe _) fun _ =>
      .bind (h.compileCell _) fun _ => .bind (hreveal _) fun _ =>
        .bind (h.setDefinition _ _) fun _ => h.noteDefinition _
  parseName := DeviceFree.parseName h.devices
  write := h.write

theorem journal (m : Machine) (journal : Journal) (hm : P m) : P { m with journal := journal } :=
  h.devices m m.input m.output m.token journal hm

theorem lasting (hadd : ∀ name {action : Action}, action.readsW = false →
    Keeps P (Exec.addRuntime name action)) : Lasting P where
  toOutward := DeviceFree.outward h.devices hadd
  hereditary := h.hereditary
  token m t hm := h.devices m m.input m.output t m.journal hm

end Basic

theorem Elementary.lasting {P : Machine → Prop} (h : Elementary P) : Lasting P :=
  h.toBasic.lasting fun name action _ => h.addRuntime name action

theorem Elementary.plain {P : Machine → Prop} (h : Elementary P) : Plain P where
  steady := h.hereditary.toSteady
  parseWord := h.lasting.parseWord
  parse := h.lasting.parse
  readByte := h.lasting.readByte
  addRuntime := h.addRuntime
  input m source hm := h.devices m source m.output m.token m.journal hm
  output m sink hm := h.devices m m.input sink m.token m.journal hm
  report m _ hm := h.devices m m.input m.output m.token _ hm

end CellForth
