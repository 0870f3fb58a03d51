import CellForth.Proofs.Startup

/-!
# Nested calls

Running the word of a token can nest: the action may be `execute`, which takes another token off the
data stack and runs its word in turn. The table is indexed with cells that a program can overwrite,
so nothing in memory stops a word from leading to `execute` again and again.

`Call.Returns` spells such a run out, without a number of rounds given beforehand: a call settles
(`Call.Settles`), or it leads to a further call (`Call.Nests`). A run in this sense need not exist,
but if it does it is the only one (`Call.Returns.unique`), and it is what the machine does
(`Call.Returns.runToken_eq`).

The measure is the data stack. Each further call has found its token on top of that stack, and
nothing has been put there since the call before (`Call.Nests.takes_top`). Hence the run exists
(`Call.exists_returns`) and the tokens of the calls in it are items of the stack, taken from the top
one after the other. `Machine.execute_returns` puts this together.
-/

namespace CellForth

/-- An item that is taken off is missing at the end of the list, and nothing else has changed. -/
theorem Exec.dataItems_of_pop {m m' : Machine} (hm : m.Ordered) {xt : Cell}
    (h : pop m = .ok xt m') :
    m'.Ordered ∧ m'.memory = m.memory ∧ m'.table = m.table ∧
    m.dataItems = m'.dataItems ++ [xt] := by
  obtain ⟨hhead, hfits, rfl⟩ := pop_ok hm h
  obtain ⟨rest, hitems⟩ := List.head?_eq_some_iff.mp hhead
  have hrest : (m.replaceData 1 []).dataStack.items = rest := by
    rw [Machine.dataStack_replaceData, hm.dataStack.items_replaced hfits, hitems]
    rfl
  refine ⟨hm.replaceData hfits, rfl, rfl, List.reverse_injective ?_⟩
  rw [List.reverse_append]
  exact hitems.trans (congrArg (xt :: ·) hrest.symm)

/-- A word about to be run. -/
structure Call where
  /-- The machine at the time. -/
  machine : Machine
  /-- The token of the word. -/
  xt : Cell

namespace Call

/-- The call `c` leads to the call `c'`: the word is `execute`, and it has taken the token of `c'`
off the data stack. -/
def Nests (c c' : Call) : Prop :=
  ∃ m, Exec.resolve c.xt c.machine = .ok .execute m ∧ Exec.pop m = .ok c'.xt c'.machine

/-- The call ends without a further one, and this is its result. -/
inductive Settles (c : Call) : EStateM.Result Fault Machine Unit → Prop
  /-- The token leads to no action. -/
  | unresolved {e : Fault} {m : Machine} (h : Exec.resolve c.xt c.machine = .error e m) :
    Settles c (.error e m)
  /-- The word is `execute`, and it finds no token on the stack. -/
  | missing {e : Fault} {m m' : Machine} (h : Exec.resolve c.xt c.machine = .ok .execute m)
    (hpop : Exec.pop m = .error e m') : Settles c (.error e m')
  /-- The action is a single step. -/
  | step {action : Action} {m : Machine} (h : Exec.resolve c.xt c.machine = .ok action m)
    (hexecute : action ≠ .execute) (hresume : action ≠ .resume) : Settles c (action.step m)

/-- The call ends with this result, after the further calls listed, the outermost first. -/
inductive Returns : Call → List Call → EStateM.Result Fault Machine Unit → Prop
  /-- It ends by itself. -/
  | settle {c : Call} {r : EStateM.Result Fault Machine Unit} (h : c.Settles r) : Returns c [] r
  /-- It ends as the call does that it leads to. -/
  | nest {c c' : Call} {nested : List Call} {r : EStateM.Result Fault Machine Unit} (h : c.Nests c')
    (hrest : Returns c' nested r) : Returns c (c' :: nested) r

variable {c c' c'' : Call} {nested nested' : List Call} {r r' : EStateM.Result Fault Machine Unit}

/-! ### One run, and what the machine does -/

/-- A further call is run in place of the call that led to it. -/
theorem Nests.execute_eq (h : c.Nests c') :
    Exec.execute c.xt c.machine = Exec.execute c'.xt c'.machine := by
  obtain ⟨m, hresolve, hpop⟩ := h
  rw [Exec.execute, bind_of_ok hresolve, Exec.act_execute_eq, bind_of_ok hpop]

theorem Settles.runToken_eq (h : c.Settles r) (steps : Nat) :
    c.machine.runToken steps c.xt = some r := by
  rw [Machine.runToken, Exec.execute]
  cases h with
  | unresolved h => rw [bind_of_error h]; rfl
  | missing h hpop => rw [bind_of_ok h, Exec.act_execute_eq, bind_of_error hpop]; rfl
  | @step action m h hexecute hresume =>
    rw [bind_of_ok h, Exec.act_of_step hexecute hresume]
    cases hstep : action.step m with
    | ok _ m' => rw [bind_of_ok hstep]; rfl
    | error e m' => rw [bind_of_error hstep]; rfl

/-- The run that is spelled out is what the machine does, and the steps allowed do not matter. -/
theorem Returns.runToken_eq (h : c.Returns nested r) (steps : Nat) :
    c.machine.runToken steps c.xt = some r := by
  induction h with
  | settle h => exact h.runToken_eq steps
  | nest h _ ih => rw [Machine.runToken, h.execute_eq]; exact ih

theorem Nests.unique (h : c.Nests c') (h' : c.Nests c'') : c' = c'' := by
  obtain ⟨m, hresolve, hpop⟩ := h
  obtain ⟨m', hresolve', hpop'⟩ := h'
  cases hresolve.symm.trans hresolve'
  injection hpop.symm.trans hpop' with hxt hmachine
  cases c'
  cases c''
  exact congrArg₂ Call.mk hmachine hxt

/-- Both results are what the machine does. -/
theorem Settles.unique (h : c.Settles r) (h' : c.Settles r') : r = r' :=
  Option.some.inj ((h.runToken_eq 0).symm.trans (h'.runToken_eq 0))

/-- A call that settles leads to no other. -/
theorem Settles.not_nests (h : c.Settles r) : ¬c.Nests c' := by
  rintro ⟨m, hresolve, hpop⟩
  cases h with
  | unresolved h => cases h.symm.trans hresolve
  | missing h hnone =>
    cases h.symm.trans hresolve
    cases hnone.symm.trans hpop
  | step h hexecute =>
    cases h.symm.trans hresolve
    exact hexecute rfl

theorem Returns.unique (h : c.Returns nested r) (h' : c.Returns nested' r') :
    nested' = nested ∧ r' = r := by
  induction h generalizing nested' with
  | settle h =>
    cases h' with
    | settle h' => exact ⟨rfl, h'.unique h⟩
    | nest h' => exact absurd h' h.not_nests
  | nest h hrest ih =>
    cases h' with
    | settle h' => exact absurd h h'.not_nests
    | nest h' hrest' =>
      cases h.unique h'
      obtain ⟨rfl, rfl⟩ := ih hrest'
      exact ⟨rfl, rfl⟩

/-! ### The stack as measure -/

/-- One level of nesting: the further call has its token from the top of the stack, and between the
two calls nothing was put there. Memory and actions are as they were. -/
theorem Nests.takes_top (h : c.Nests c') (hm : c.machine.Ordered) :
    c'.machine.Ordered ∧ c'.machine.memory = c.machine.memory ∧
      c'.machine.table = c.machine.table ∧
      c.machine.dataItems = c'.machine.dataItems ++ [c'.xt] := by
  obtain ⟨m, hresolve, hpop⟩ := h
  -- The register `w` is not among what is spoken of here.
  obtain ⟨w, rfl⟩ := Exec.exists_of_resolve hresolve
  exact Exec.dataItems_of_pop (m := { c.machine with regs := { c.machine.regs with w := w } })
    { hm with } hpop

/-- With built-in actions a call settles, or it leads to another. -/
theorem settles_or_nests (hresume : Action.resume ∉ c.machine.table) :
    (∃ r, c.Settles r) ∨ ∃ c', c.Nests c' := by
  cases hresolve : Exec.resolve c.xt c.machine with
  | error e m => exact .inl ⟨_, .unresolved hresolve⟩
  | ok action m =>
    by_cases hexecute : action = .execute
    · subst hexecute
      cases hpop : Exec.pop m with
      | error e m' => exact .inl ⟨_, .missing hresolve hpop⟩
      | ok xt m' => exact .inr ⟨⟨m', xt⟩, m, hresolve, hpop⟩
    · refine .inl ⟨_, .step hresolve hexecute ?_⟩
      rintro rfl
      exact hresume (Exec.mem_of_resolve hresolve)

/-- Every call ends: one level of nesting lowers the number of items on the data stack by one. -/
theorem exists_returns {c : Call} (hm : c.machine.Ordered)
    (hresume : Action.resume ∉ c.machine.table) : ∃ nested r, c.Returns nested r := by
  obtain ⟨r, h⟩ | ⟨c', h⟩ := settles_or_nests hresume
  · exact ⟨[], r, .settle h⟩
  · obtain ⟨hm', -, htable, htop⟩ := h.takes_top hm
    obtain ⟨nested, r, hrest⟩ := exists_returns hm' (htable ▸ hresume)
    exact ⟨c' :: nested, r, .nest h hrest⟩
termination_by c.machine.dataItems.length
decreasing_by
  rw [htop, List.length_append]
  exact Nat.lt_succ_self _

/-- The further calls of a run have their tokens from the stack, from the top down. When the call at
position `i` is made, the tokens of the calls before it are gone, and nothing else is. -/
theorem Returns.dataItems_eq (h : c.Returns nested r) (hm : c.machine.Ordered) {i : Nat}
    (hi : nested[i]? = some c') :
    c'.machine.memory = c.machine.memory ∧
      c.machine.dataItems =
        c'.machine.dataItems ++ c'.xt :: ((nested.take i).map Call.xt).reverse := by
  induction h generalizing i with
  | settle => cases hi
  | nest h _ ih =>
    obtain ⟨hm', hmemory, -, htop⟩ := h.takes_top hm
    cases i with
    | zero =>
      cases hi
      exact ⟨hmemory, htop⟩
    | succ i =>
      obtain ⟨hmemory', hitems⟩ := ih hm' hi
      refine ⟨hmemory'.trans hmemory, ?_⟩
      rw [htop, hitems, List.take_succ_cons, List.map_cons, List.reverse_cons, List.append_assoc,
        List.cons_append]

/-- Each further call costs an item, so there are no more of them than items. -/
theorem Returns.length_le (h : c.Returns nested r) (hm : c.machine.Ordered) :
    nested.length ≤ c.machine.dataItems.length := by
  induction h with
  | settle => exact Nat.zero_le _
  | nest h _ ih =>
    obtain ⟨hm', -, -, htop⟩ := h.takes_top hm
    rw [htop, List.length_append]
    exact Nat.succ_le_succ (ih hm')

/-- As many further calls as items do occur: if all items are opcodes of `execute`, and the token is
one too, each takes the next off, until none is left. -/
theorem exists_returns_of_replicate {m : Machine} (hm : m.Ordered) {op : Cell}
    (hop : CodeFields.standard.contains op = false) (htable : m.table[op.toNat]? = some .execute)
    {n : Nat} (hitems : m.dataItems = List.replicate n op) :
    ∃ nested m', Returns ⟨m, op⟩ nested (.error .stackUnderflow m') ∧ nested.length = n := by
  induction n generalizing m with
  | zero =>
    obtain ⟨hlt, -⟩ := Array.getElem?_eq_some_iff.mp htable
    have hempty : m.dataStack.items = [] := congrArg List.reverse hitems
    have hpop : Exec.pop m = .error .stackUnderflow m :=
      Exec.onData_of_error (hm.dataStack.pop_of_nil hempty)
    exact ⟨[], m, .settle (.missing (Exec.resolve_of_opcode hlt hop htable) hpop), rfl⟩
  | succ n ih =>
    obtain ⟨hlt, -⟩ := Array.getElem?_eq_some_iff.mp htable
    have htop : m.dataStack.items = op :: List.replicate n op := by
      rw [← List.replicate_succ, ← List.reverse_replicate]
      exact congrArg List.reverse hitems
    have hpop : Exec.pop m = .ok op (m.replaceData 1 []) :=
      Exec.onData_of_ok (hm.dataStack.pop_of_cons htop)
    obtain ⟨hm', -, htable', hitems'⟩ := Exec.dataItems_of_pop hm hpop
    rw [hitems, List.replicate_succ'] at hitems'
    obtain ⟨nested, m', hrest, hlength⟩ :=
      ih hm' (htable' ▸ htable) (List.append_cancel_right hitems').symm
    have hnests : Nests ⟨m, op⟩ ⟨m.replaceData 1 [], op⟩ :=
      ⟨m, Exec.resolve_of_opcode hlt hop htable, hpop⟩
    exact ⟨_, m', .nest hnests hrest, congrArg Nat.succ hlength⟩

end Call

/-! ### Every call returns -/

/-- **Running a word ends.** Take any machine with its regions in order and with built-in actions
only, whatever is in its memory, and any token. There is a run of the word, made of calls nested in
each other; it is the only one, and what the machine does, with no need of a limit on the steps.
Counting the call itself, the calls are at most one more than the items on the data stack: the call
at each position is made with memory unchanged, its token was the top of what the calls before it
had left on the stack, and nothing was put there. -/
theorem Machine.execute_returns {m : Machine} (hm : m.Ordered) (hresume : Action.resume ∉ m.table)
    (xt : Cell) :
    ∃ nested r, Call.Returns ⟨m, xt⟩ nested r ∧
      (∀ nested' r', Call.Returns ⟨m, xt⟩ nested' r' → nested' = nested ∧ r' = r) ∧
      (∀ steps, m.runToken steps xt = some r) ∧
      (Call.mk m xt :: nested).length ≤ m.dataItems.length + 1 ∧
      ∀ i c, nested[i]? = some c →
        c.machine.memory = m.memory ∧
        m.dataItems = c.machine.dataItems ++ c.xt :: ((nested.take i).map Call.xt).reverse := by
  obtain ⟨nested, r, h⟩ := Call.exists_returns (c := ⟨m, xt⟩) hm hresume
  refine ⟨nested, r, h, ?_, h.runToken_eq, Nat.succ_le_succ (h.length_le hm), ?_⟩
  · intro nested' r' h'
    exact h.unique h'
  · intro i c hi
    exact h.dataItems_eq hm hi

/-- On a machine of the default sizes whose data stack is full of the opcode of `execute`, that same
opcode leads to one call for each of the `64` items and to a fault in the last one. -/
theorem Machine.execute_returns_of_full_stack :
    ∃ (m : Machine) (op : Cell), m.Ordered ∧ Action.resume ∉ m.table ∧
      m.dataItems = List.replicate 64 op ∧ m.dataStack.room = 0 ∧
      ∃ nested m', Call.Returns ⟨m, op⟩ nested (.error .stackUnderflow m') ∧ nested.length = 64 ∧
        ∀ steps, m.runToken steps op = some (.error .stackUnderflow m') := by
  obtain ⟨m, hcreate, hnew, -, -, -, -, hroom⟩ := create_default Source.empty {} .off
  have hstart := atStart_of_create hcreate
  -- The list stays a name, so that nothing evaluates it.
  obtain ⟨ops, hops⟩ : ∃ ops, ops = List.replicate 64 (74 : Cell) := ⟨_, rfl⟩
  have hlength : ops.length = 64 := by rw [hops, List.length_replicate]
  have hfits : m.dataStack.Fits 0 ops := ⟨Nat.zero_le _, by rwa [hlength, Nat.zero_add]⟩
  have hm := hnew.within.ordered.replaceData hfits
  have hitems : (m.replaceData 0 ops).dataItems = List.replicate 64 74 := by
    have hlist := hnew.within.dataStack.toList_replaced hfits
    rw [← dataItems, hstart.dataItems, List.take_nil, List.nil_append] at hlist
    exact hlist.trans hops
  have hresume : Action.resume ∉ (m.replaceData 0 ops).table := by
    intro hmem
    have hmem : Action.resume ∈ m.table.toList := Array.mem_toList_iff.mpr hmem
    rw [hnew.table] at hmem
    revert hmem
    decide +kernel
  have htable : (m.replaceData 0 ops).table[(74 : Cell).toNat]? = some .execute := by
    rw [← Array.getElem?_toList]
    exact (congrArg (·[74]?) hnew.table).trans rfl
  have hroom' : (m.replaceData 0 ops).dataStack.room = 0 := by
    have hcapacity : (m.replaceData 0 ops).dataStack.capacity = 64 := hstart.dataCapacity
    have hsize := hm.dataStack.length_toList
    rw [← dataItems, hitems, List.length_replicate] at hsize
    rw [Stack.room, hcapacity, ← hsize]
  obtain ⟨nested, r, h, hunique, hrun, -⟩ := execute_returns hm hresume 74
  obtain ⟨nested', m', h', hdepth⟩ := Call.exists_returns_of_replicate hm rfl htable hitems
  obtain ⟨rfl, rfl⟩ := hunique _ _ h'
  exact ⟨_, 74, hm, hresume, hitems, hroom', nested', m', h, hdepth, hrun⟩

end CellForth
