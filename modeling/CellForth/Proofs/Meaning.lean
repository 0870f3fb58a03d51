import CellForth.Proofs.Definitions
import CellForth.Proofs.Regions
import CellForth.Proofs.Simulation

/-!
# Definitions mean what their bodies mean

A definition whose body is a tree of the kind `Body` is accepted, and to run it is to evaluate the
tree. Both halves are in `Machine.interpret_definition_executes`: reading the definition succeeds
and leaves the data stack as it was, and from every later state in which the compiled cells are
unchanged the new word has exactly the outcomes of the evaluation. If one of them succeeds, so does
the other, with the same stack and the same output; if one meets a fault, so does the other; and if
one goes on for ever, so does the other.

A later state is one that still has the regions and the actions of the machine
(`Machine.Continues`), as whatever a host or a program does leaves them in place
(`Elementary.continues`). The cells that must be unchanged are those of the definition and of the
definitions that it calls (`Body.cells`), and no others: the program may have changed its variables
and added to the dictionary in the meantime.
-/

namespace CellForth

/-! ### Later states of a machine -/

namespace Machine

/-- Opcodes that lead to an action in the first machine lead to it in the second. -/
def HasActions (m m' : Machine) : Prop :=
  ∀ (i : Nat) (action : Action), m.table[i]? = some action → m'.table[i]? = some action

/-- The second machine is one that the first can have become: its regions have the same boundaries,
everything is within them, and no opcode has lost its action. -/
def Continues (m m' : Machine) : Prop :=
  m'.Bounded m.regions ∧ m.HasActions m'

variable {m m' : Machine}

theorem Continues.refl (h : m.WithinRegions) : m.Continues m :=
  ⟨⟨h, rfl⟩, fun _ _ haction => haction⟩

theorem HasActions.equipped (h : m.HasActions m') (hequipped : m.Equipped) : m'.Equipped :=
  fun r => h _ _ (hequipped r)

theorem HasActions.native (h : m.HasActions m') {op : Cell} {action : Action}
    (hop : m.Native op action) : m'.Native op action :=
  ⟨h _ _ hop.table, hop.contains_eq⟩

end Machine

/-- No elementary operation takes an action from its opcode. -/
theorem Elementary.hasActions (m : Machine) : Elementary m.HasActions := by
  refine .of_alike (fun m₁ m₂ halike hm i action haction => ?_) fun name action m₁ hm => ?_
  · rw [halike.table]
    exact hm i action haction
  · rw [Exec.addRuntime_eq]
    split
    · intro i action' haction
      have hold := hm i action' haction
      obtain ⟨hlt, -⟩ := Array.getElem?_eq_some_iff.mp hold
      show (m₁.table.push action)[i]? = some action'
      rwa [Array.getElem?_push_lt hlt, ← Array.getElem?_eq_getElem hlt]
    · exact hm

theorem Elementary.continues (m : Machine) : Elementary m.Continues :=
  (Elementary.bounded m.regions).and (Elementary.hasActions m)

/-- Whatever a host asks of a machine, what becomes of it is one of its later states. -/
theorem Transcript.continues {m m' : Machine} {es : List (Request × Reply)} (hm : m.WithinRegions)
    (ht : Transcript m es m') : m.Continues m' :=
  (Elementary.continues m).transcript (fun _ _ h => ⟨⟨{ h.1.1 with }, h.1.2⟩, h.2⟩) ht (.refl hm)

/-- Registering a word gives its action the next opcode, even if there is no room for a record. -/
theorem Exec.hasActions_addBuiltin {m : Machine} (word : Builtin)
    (hlt : m.table.size < dictionaryStart) :
    ({ m with table := m.table.push word.action } : Machine).HasActions
      (endState (addBuiltin word m)) := by
  have hadd := addRuntime_eq word.name word.action m
  rw [if_pos hlt] at hadd
  have hsplit : addBuiltin word = (do
      let op ← addRuntime word.name word.action
      let _ ← createRecord (Text.bytes word.name) op 0
      if word.immediate then setImmediate else pure ()) := by
    unfold addBuiltin addImmediate addPrimitive
    cases word.immediate <;> simp
  have h := Elementary.hasActions { m with table := m.table.push word.action }
  have hrest : Keeps _ (do
      let _ ← createRecord (Text.bytes word.name) (UInt16.ofNat m.table.size) 0
      if word.immediate then setImmediate else pure ()) :=
    .bind (h.createRecord _ _ _) fun _ => .ite h.hereditary.setImmediate (.pure _)
  rw [hsplit, bind_of_ok hadd]
  exact hrest _ fun _ _ haction => haction

/-- With the built-in words all runtime actions are in their places. The last of these actions
belongs to a word, which is the first of all. -/
theorem Exec.equipped_of_forM_addBuiltin {m m' : Machine}
    (htable : m.table.toList = Vocabulary.runtimes.map fun r => Action.runtime r.2)
    (h : Vocabulary.builtins.forM addBuiltin m = .ok () m') : m'.Equipped := by
  let word : Builtin := ⟨"exit", .runtime .exit, false⟩
  have hsize : m.table.size < dictionaryStart := by
    rw [← Array.length_toList, htable]
    decide
  have hactions := hasActions_addBuiltin word hsize
  cases hfirst : addBuiltin word m with
  | error e m₁ =>
    have herror := (bind_of_error hfirst).symm.trans h
    cases herror
  | ok _ m₁ =>
    rw [hfirst] at hactions
    have hkept (m₀ : Machine) : Keeps m₀.HasActions (Vocabulary.builtins.tail.forM addBuiltin) :=
      .forM fun word _ => (Elementary.hasActions m₀).plain.addBuiltin word
    have hall := hkept _ m₁ hactions
    have hrest : Vocabulary.builtins.tail.forM addBuiltin m₁ = .ok () m' :=
      (bind_of_ok hfirst).symm.trans h
    rw [hrest] at hall
    refine hall.equipped fun r => ?_
    rw [← Array.getElem?_toList, Array.toList_push, htable]
    cases r <;> rfl

/-- Every machine has its runtime actions. -/
theorem Machine.create_equipped {config : Config} {input : Source} {output : Sink}
    {verbosity : Verbosity} {m : Machine} (h : create config input output verbosity = .ok m) :
    m.Equipped := by
  obtain ⟨layout, journal, journal', m', -, hwords, rfl⟩ := exists_of_create h
  have hequipped : m'.Equipped := Exec.equipped_of_forM_addBuiltin rfl hwords
  exact hequipped

/-! ### The cells of a definition -/

/-- The addresses of the definitions that the body calls, directly or not. -/
def Body.cells : {scope : Scope} → Body scope → List Nat
  | _, empty | _, number _ | _, word _ _ | _, index _ => []
  | _, call xt body => List.range' xt.toNat (body.code.length + 2) ++ body.cells
  | _, seq first second | _, ifElse first second | _, beginWhile first second =>
    first.cells ++ second.cells
  | _, ifThen body | _, beginUntil body | _, beginAgain body | _, counted _ body => body.cells

theorem Memory.Code.congr {memory memory' : Memory} {bound bound' pos : Nat} {cs : List Cell}
    (h : memory.Code bound pos cs) (hle : bound ≤ bound')
    (hsame : ∀ i, pos ≤ i → i < pos + cs.length → memory'.cells[i]? = memory.cells[i]?) :
    memory'.Code bound' pos cs where
  start_le := h.start_le
  le_bound := Nat.le_trans h.le_bound hle
  holds := h.holds.congr hsame

/-- What a body calls stands in every machine that has the actions of the first, as long as the
cells are there. -/
theorem Body.Stands.congr {scope : Scope} {b : Body scope} {m m' : Machine} {bound bound' : Nat}
    (h : b.Stands m bound) (hactions : m.HasActions m') (hle : bound ≤ bound')
    (hsame : ∀ a ∈ b.cells, a < bound → m'.memory.cells[a]? = m.memory.cells[a]?) :
    b.Stands m' bound' := by
  induction b with
  | empty => trivial
  | number c => trivial
  | word op p => exact hactions.native h
  | index op => exact hactions.native h
  | call xt body ih =>
    obtain ⟨hcode, hbody⟩ := h
    refine ⟨hcode.congr hle fun i hi hlt => ?_, ih hbody fun a ha => ?_⟩
    · have hbound := hcode.le_bound
      refine hsame i (List.mem_append_left _ (List.mem_range'_1.mpr ⟨hi, ?_⟩)) (by omega)
      simpa using hlt
    · exact hsame a (List.mem_append_right _ ha)
  | seq first second ih₁ ih₂ =>
    exact ⟨ih₁ h.1 fun a ha => hsame a (List.mem_append_left _ ha),
      ih₂ h.2 fun a ha => hsame a (List.mem_append_right _ ha)⟩
  | ifElse first second ih₁ ih₂ =>
    exact ⟨ih₁ h.1 fun a ha => hsame a (List.mem_append_left _ ha),
      ih₂ h.2 fun a ha => hsame a (List.mem_append_right _ ha)⟩
  | beginWhile first second ih₁ ih₂ =>
    exact ⟨ih₁ h.1 fun a ha => hsame a (List.mem_append_left _ ha),
      ih₂ h.2 fun a ha => hsame a (List.mem_append_right _ ha)⟩
  | ifThen body ih => exact ih h hsame
  | beginUntil body ih => exact ih h hsame
  | beginAgain body ih => exact ih h hsame
  | counted stride body ih => exact ih h hsame

/-- The body `3 0 do i if i . else 42 emit then loop`, with the opcodes of a new machine. -/
def Body.starAndNumbers : Body .definition :=
  .seq (.number 3) (.seq (.number 0) (.counted .one (.seq (.index 29) (.ifElse
    (.seq (.index 29) (.word 104 .dot)) (.seq (.number 42) (.word 103 .emit))))))

/-! ### Running a definition -/

namespace Machine

variable {m₀ m : Machine} {s : Store} {returns : List Cell} {ip : Nat}

/-- How a run that has been left ends: as the evaluation did, and where it has succeeded, with the
given items on the return stack and outside of threaded code. -/
def Ends (m₀ : Machine) (returns : List Cell) :
    EStateM.Result Fault Store Unit → EStateM.Result Fault Machine Unit → Prop :=
  m₀.Performs fun _ s m => m₀.Running s returns 0 m

/-- A run that follows an evaluation with a result ends as it does. -/
theorem Follows.ends {bound : Nat} {r : EStateM.Result Fault Store Unit}
    (h : m₀.Follows bound m (fun _ s' m' => m₀.Running s' returns 0 m') (some r)) :
    ∃ n r', (∀ k, m.runThread (n + k) = some r') ∧ m₀.Ends returns r r' := by
  cases h with
  | @ok n m' _ s' hreach hpost =>
    refine ⟨n, .ok () m', fun k => ?_, .ok hpost⟩
    rw [hreach, runThread_of_eq_zero k hpost.ip_eq]
  | @error n _ m' e _ _ hstop hrun => exact ⟨n, .error e m', hstop, .error hrun⟩

theorem Running.restoreToken (token : List UInt8)
    (h : ({ m₀ with token := [] } : Machine).Running s returns ip m) :
    ({ m₀ with token := token } : Machine).Running s returns ip (m.restoreToken token) := by
  have htoken : m.token = [] := congrArg (·.token) h.rest
  have hrestore : m.restoreToken token = { m with token := token } := by
    unfold Machine.restoreToken
    rw [htoken]
    rfl
  rw [hrestore]
  refine { h with within := { h.within with }, rest := ?_ }
  have hrest := congrArg (fun m : Machine => { m with token := token }) h.rest
  exact hrest

theorem Ends.restoring {r : EStateM.Result Fault Store Unit}
    {r' : EStateM.Result Fault Machine Unit} (token : List UInt8)
    (h : ({ m₀ with token := [] } : Machine).Ends returns r r') :
    ({ m₀ with token := token } : Machine).Ends returns r (restoring token r') := by
  cases h with
  | ok h => exact .ok (h.restoreToken token)
  | error h => exact .error (h.restoreToken token)

/-- Interpreting the token has exactly the outcomes of the evaluation. They are stated for the
machine in which the token is in its place again. -/
structure Executes (m : Machine) (token : List UInt8) (b : Body .definition) : Prop where
  /-- If the evaluation has a result, so has the run. -/
  run_of_eval : ∀ rounds r, b.eval rounds .definition m.store = some r →
    ∃ n r', (∀ k, m.interpretToken (n + k) token = some r') ∧
      ({ m with token := token } : Machine).Ends m.returnStack.items r r'
  /-- If the run has a result, so has the evaluation. -/
  eval_of_run : ∀ k r', m.interpretToken k token = some r' →
    ∃ rounds r, b.eval rounds .definition m.store = some r ∧
      ({ m with token := token } : Machine).Ends m.returnStack.items r r'

/-- Outside of threaded code, running the token of a definition enters threaded code that follows
the evaluations that the code of the definition does. -/
theorem execute_of_simulates (h : m.WithinRegions) (hequipped : m.Equipped) (hip : m.regs.ip = 0)
    {xt : Cell} {cs : List Cell} {x : Nat → Eval Unit}
    (hcode : m.HasCode xt.toNat (Runtime.nest.opcode :: (cs ++ [Runtime.exit.opcode])))
    (hroom : 1 ≤ m.returnStack.room)
    (hx : ∀ rounds, m.Simulates rounds (0 :: m.returnStack.items) (xt.toNat + 1) cs (x rounds)) :
    ∃ m₁, Exec.execute xt m = .ok .done m₁ ∧
      ∀ rounds, m.Follows rounds m₁ (fun _ s' m' => m.Running s' m.returnStack.items 0 m')
        (x rounds m.store) := by
  have hlength := h.returnStack.length_items
  unfold Stack.room at hroom
  have hstart : m.Running m.store m.returnStack.items 0 m := by
    have hrefl := Running.refl h
    rwa [hip] at hrefl
  obtain ⟨m₁, hexecute, h₁⟩ := hstart.execute_definition hequipped hcode (by omega)
  rw [hip] at h₁
  exact ⟨m₁, hexecute, fun rounds => (hx rounds).definition hequipped hcode h₁⟩

/-- The code of a definition with a structured body follows the evaluation of the body. -/
theorem execute_follows (h : m.WithinRegions) (hequipped : m.Equipped) (hip : m.regs.ip = 0)
    {xt : Cell} {b : Body .definition}
    (hstands : (Body.call xt b : Body .definition).Stands m m.regs.dataBase.toNat)
    (hroom : b.depth + 1 ≤ m.returnStack.room) :
    ∃ m₁, Exec.execute xt m = .ok .done m₁ ∧
      ∀ rounds, m.Follows rounds m₁ (fun _ s' m' => m.Running s' m.returnStack.items 0 m')
        (b.eval rounds .definition m.store) := by
  obtain ⟨hcode, hbody⟩ := hstands
  have hlength := h.returnStack.length_items
  have hdeep : (0 :: m.returnStack.items).length + b.depth ≤ m.returnStack.capacity := by
    unfold Stack.room at hroom
    rw [List.length_cons]
    omega
  exact execute_of_simulates h hequipped hip hcode (by omega) fun rounds =>
    b.simulates hequipped hbody rounds .definition hcode.tail.left hdeep

/-- While words are run, a token whose word enters threaded code runs it to its end. -/
theorem interpretToken_of_execute {m₁ : Machine} {token : List UInt8} {record : Record}
    {next : Continuation} (hmode : m.regs.mode = .interpret)
    (hfind : m.find token = .ok (some record))
    (hexecute : Exec.execute (UInt16.ofNat record.codeField) { m with token := [] } = .ok next m₁)
    (k : Nat) : m.interpretToken k token = (m₁.runThread k).map (restoring token) := by
  rw [interpretToken_of_run k hfind (by simp [Registers.isCompiling, hmode]), hexecute]

/-- Where the code of a definition stands at the code field that a token leads to, interpreting the
token runs the definition. -/
theorem executes_of_stands (h : m.WithinRegions) (hequipped : m.Equipped) (hip : m.regs.ip = 0)
    (hmode : m.regs.mode = .interpret) {token : List UInt8} {record : Record}
    (hfind : m.find token = .ok (some record)) {b : Body .definition}
    (hstands : (Body.call (UInt16.ofNat record.codeField) b : Body .definition).Stands m
      m.regs.dataBase.toNat)
    (hroom : b.depth + 1 ≤ m.returnStack.room) : m.Executes token b := by
  have hblank : ({ m with token := [] } : Machine).WithinRegions := { h with }
  obtain ⟨m₁, hexecute, hfollows⟩ := execute_follows hblank hequipped hip
    (hstands.congr (fun _ _ haction => haction) (Nat.le_refl _) fun _ _ _ => rfl) hroom
  have hrun := interpretToken_of_execute hmode hfind hexecute
  have hresult : ∀ rounds r, b.eval rounds .definition m.store = some r →
      ∃ n r', (∀ k, m.interpretToken (n + k) token = some r') ∧
        ({ m with token := token } : Machine).Ends m.returnStack.items r r' := by
    intro rounds r heval
    obtain ⟨n, r', hn, hends⟩ := (heval ▸ hfollows rounds).ends
    refine ⟨n, restoring token r', fun k => ?_, hends.restoring token⟩
    rw [hrun, hn, Option.map_some]
  refine ⟨hresult, fun k r' hk => ?_⟩
  rw [hrun] at hk
  obtain ⟨r₁, hthread, rfl⟩ := Option.map_eq_some_iff.mp hk
  -- An evaluation without a result in as many rounds as the run has steps would outlast the run.
  cases heval : b.eval k .definition m.store with
  | none =>
    have hnone := heval ▸ hfollows k
    cases hnone with
    | unfinished hnone =>
      rw [hnone k (Nat.le_refl k)] at hthread
      cases hthread
  | some r =>
    obtain ⟨n, r', hn, hends⟩ := hresult k r heval
    have hmore := hn k
    rw [Nat.add_comm, hrun, runThread_add hthread n] at hmore
    cases hmore
    exact ⟨k, r, heval, hends⟩

/-! ### Definitions with structured bodies -/

/-- The record of a definition that is complete. -/
def definitionRecord (m : Machine) (name : List UInt8) : Record :=
  ⟨m.regs.here.toNat, m.regs.latest, Record.makeHeader 0 name.length⟩

section Definition

variable {m₀ m : Machine} {name : List UInt8} {code : List Cell}
  (h : m₀.WithDefinition name (Record.makeHeader 0 name.length) code [] m)
include h

/-- The code of a definition stands where its record says. -/
theorem WithDefinition.code_stands :
    m.memory.Code m.regs.here.toNat (UInt16.ofNat (m₀.definitionRecord name).codeField).toNat
      (Runtime.nest.opcode :: code) := by
  have hstart := h.grown.before.start_le_here
  have hhere := h.here
  have hbody : (m₀.definitionRecord name).codeField + 1 = m₀.codeStart name :=
    Memory.body_eq h.grown.length
  have hxt : (UInt16.ofNat (m₀.definitionRecord name).codeField).toNat =
      (m₀.definitionRecord name).codeField := by
    have hlt := m.regs.here.toNat_lt
    exact Cell.toNat_ofNat (by omega)
  have hle : m₀.regs.here.toNat < m₀.codeStart name := by
    simp only [codeStart, Record.cellsFor]
    omega
  have hfield : m.memory.Holds (m₀.definitionRecord name).codeField [Runtime.nest.opcode] :=
    .of_cell h.grown.codeField
  refine ⟨?_, ?_, ?_⟩
  · omega
  · rw [hxt, List.length_cons]
    omega
  · rw [hxt]
    exact Memory.Holds.append_iff.mpr ⟨hfield, by rw [List.length_singleton, hbody]; exact h.code⟩

theorem WithDefinition.hasActions : m₀.HasActions m := by
  intro i action haction
  rw [h.rest]
  exact haction

theorem WithDefinition.store_eq : m.store = m₀.store := by
  have hbase : m.regs.base = m₀.regs.base := congrArg (·.regs.base) h.rest
  have houtput : m.output = m₀.output := congrArg (·.output) h.rest
  have hitems : m.dataStack.items = m₀.dataStack.items := h.items
  have hcapacity : m.dataStack.capacity = m₀.dataStack.capacity := by
    simp only [Stack.capacity, dataStack, h.dataLimit_eq, h.dataBase_eq]
  rw [store, hitems, hcapacity, hbase, houtput]
  rfl

theorem WithDefinition.returnRoom_eq : m.returnStack.room = m₀.returnStack.room := by
  rw [h.rest]
  rfl

theorem WithDefinition.find_eq (hintact : m₀.Intact) :
    m.find name = .ok (some (m₀.definitionRecord name)) := by
  rw [h.grown.find_eq hintact, Record.isHidden_makeHeader]
  simp [sameName, definitionRecord]

/-- The name of a complete definition is compiled as a reference to its code field. -/
theorem WithDefinition.item?_eq (hintact : m₀.Intact) :
    m.item? name = some (.reference (UInt16.ofNat (m₀.definitionRecord name).codeField)) := by
  have hfield : m.memory.get (m₀.definitionRecord name).codeField = .ok Runtime.nest.opcode :=
    Memory.get_of_some h.grown.codeField
  have himmediate : (m₀.definitionRecord name).isImmediate = false :=
    Record.isImmediate_makeHeader ..
  unfold item?
  simp only [h.find_eq hintact, hfield, himmediate]
  rfl

end Definition

/-- The code of a definition with a structured body stands with what the body calls. -/
theorem WithDefinition.stands {m₀ m : Machine} {name : List UInt8} {b : Body .definition}
    (h : m₀.WithDefinition name (Record.makeHeader 0 name.length) (b.code ++ [Runtime.exit.opcode])
      [] m)
    (hstands : b.Stands m₀ m₀.regs.here.toNat) :
    (Body.call (UInt16.ofNat (m₀.definitionRecord name).codeField) b : Body .definition).Stands m
      m.regs.here.toNat :=
  ⟨h.code_stands, hstands.congr h.hasActions (Nat.le_trans (Nat.le_add_right _ _) h.grown.here_le)
    fun a _ ha => h.grown.agree a ha⟩

/-- A new machine has an empty data stack and counts in tens. -/
theorem New.store_eq {config : Config} {layout : Layout} {input : Source} {output : Sink}
    {m : Machine} (hnew : m.New config layout input output) :
    m.store = ⟨[], (UInt16.ofNat layout.returnBase).toNat - (UInt16.ofNat layout.dataBase).toNat,
      10, output⟩ := by
  have hsize : m.dataStack.size = 0 := by
    simp only [Stack.size, dataStack]
    rw [hnew.regs]
    simp [Registers.initial]
  have hitems : m.dataStack.items = [] :=
    List.eq_nil_of_length_eq_zero (hnew.within.dataStack.length_items.trans hsize)
  have hroom := hnew.room_eq
  rw [Stack.room, hsize, Nat.sub_zero] at hroom
  have hbase : m.regs.base = 10 := by
    rw [hnew.regs]
    rfl
  rw [store, hitems, hroom, hbase, hnew.output]

theorem New.returnRoom_eq {config : Config} {layout : Layout} {input : Source} {output : Sink}
    {m : Machine} (hnew : m.New config layout input output) :
    m.returnStack.room =
      (UInt16.ofNat layout.returnLimit).toNat - (UInt16.ofNat layout.returnBase).toNat := by
  simp only [Stack.room, Stack.capacity, Stack.size, returnStack]
  rw [hnew.regs]
  simp [Registers.initial]

/-- **Structured code keeps its meaning.** At the top level and with enough room, reading a
definition whose tokens are those of a structured body succeeds, leaves the data stack as it was,
and leaves the machine at the top level, where the name is now that of a definition with this body,
so that the next definition may call it. From then on, in every later state in which the cells of
the definition and of those that it calls are unchanged, the name still leads to it and the return
stack has room, to run the name has exactly the outcomes of evaluating the body. -/
theorem interpret_definition_executes {m : Machine} {name semicolon : List UInt8}
    {tokens : List (List UInt8)} {b : Body .definition} (h : m.AtTopLevel) (hequipped : m.Equipped)
    (hd : m.ReadsDefinition name tokens b.parts semicolon) (hstands : b.Stands m m.regs.here.toNat)
    (hcells : Record.cellsFor name.length + b.code.length < m.unused)
    (hitems : 2 * (1 + b.nesting) ≤ m.dataStack.room) {steps : Nat}
    (hsteps : tokens.length + 2 ≤ steps) :
    ∃ m' xt, m.interpret steps = some (.ok () m') ∧ m'.dataItems = m.dataItems ∧
      m'.store = m.store ∧ m'.returnStack.room = m.returnStack.room ∧
      m'.AtTopLevel ∧ m'.Equipped ∧ m'.item? name = some (.reference xt) ∧
      (Body.call xt b : Body .definition).Stands m' m'.regs.here.toNat ∧
      ∀ m₂, m'.Continues m₂ →
        (∀ a ∈ (Body.call xt b : Body .definition).cells,
          m₂.memory.cells[a]? = m'.memory.cells[a]?) →
        m₂.find name = m'.find name → m₂.regs.ip = 0 → m₂.regs.mode = .interpret →
        b.depth + 1 ≤ m₂.returnStack.room → m₂.Executes name b := by
  have hdraft : b.parts.forM (Part.draft (m.limits name)) .empty = .ok () ⟨b.code, []⟩ :=
    b.becomes (by simp only [limits, List.length_nil]; omega)
      (by simp only [limits, List.length_nil]; omega)
  obtain ⟨m', hrun, hdef, hmode, hdefining⟩ := interpret_definition_of_draft h hd (by omega)
    (by omega) hdraft (by simp only [limits]; omega) hsteps
  have hactions : m.HasActions m' := hdef.hasActions
  have hnew :=
    hdef.stands (hstands.congr (fun _ _ haction => haction) (Nat.le_refl _) fun _ _ _ => rfl)
  have hfind := hdef.find_eq h.intact
  have htop : m'.AtTopLevel :=
    { within := hdef.grown.after
      intact := hdef.grown.intact h.intact
      ip_eq := (congrArg (·.regs.ip) hdef.rest).trans h.ip_eq
      mode_eq := hmode
      defining_eq := hdefining }
  refine ⟨m', _, hrun, List.reverse_injective hdef.items, hdef.store_eq, hdef.returnRoom_eq, htop,
    hactions.equipped hequipped, hdef.item?_eq h.intact, hnew, ?_⟩
  intro m₂ hlater hsame hfind₂ hip hmode₂ hroom
  have hbase : m₂.regs.dataBase = m'.regs.dataBase := congrArg Regions.dataBase hlater.1.2
  have hbound : m'.regs.here.toNat ≤ m₂.regs.dataBase.toNat := by
    rw [hbase]
    exact htop.within.here_le_dataBase
  exact executes_of_stands hlater.1.1 (hlater.2.equipped (hactions.equipped hequipped)) hip hmode₂
    (hfind₂.trans hfind) (hnew.congr hlater.2 hbound fun a ha _ => hsame a ha) hroom

/-- In a new machine, `3 0 do i if i . else 42 emit then loop` can be defined, and writes a star for
zero and then the numbers up to two. -/
theorem star_and_numbers_in_new_machine :
    ∃ m m' m'' : Machine, ∃ k, m.AtTopLevel ∧ m.Equipped ∧
      m.ReadsDefinition (Text.bytes "t")
        (["3", "0", "do", "i", "if", "i", ".", "else", "42", "emit", "then", "loop"].map Text.bytes)
        Body.starAndNumbers.parts (Text.bytes ";") ∧
      m.interpret 14 = some (.ok () m') ∧
      m'.interpretToken k (Text.bytes "t") = some (.ok () m'') ∧
      m''.output.bytes = Text.bytes "*1 2 " := by
  have hlayout : Config.layout {} = .ok ⟨32576, 32640, 32768⟩ := rfl
  obtain ⟨m, hcreate, hnew⟩ := create_of_room hlayout (by decide +kernel) .empty {} .off
  have hitem : ∀ token item, newItem? token = some item → m.item? token = some item :=
    fun token item h => (hnew.item?_eq token).trans h
  let source : Source := .ofText ": t 3 0 do i if i . else 42 emit then loop ;"
  have hd : ({ m with input := source } : Machine).ReadsDefinition (Text.bytes "t")
      (["3", "0", "do", "i", "if", "i", ".", "else", "42", "emit", "then", "loop"].map Text.bytes)
      Body.starAndNumbers.parts (Text.bytes ";") := by
    refine ⟨⟨Text.bytes ":", hitem _ _ ?_, ⟨_, rfl, ?_⟩, ?_⟩, ?_,
      .cons (hitem _ _ ?_) (.cons (hitem _ _ ?_) (.cons (hitem _ _ ?_) (.cons (hitem _ _ ?_)
        (.cons (hitem _ _ ?_) (.cons (hitem _ _ ?_) (.cons (hitem _ _ ?_) (.cons (hitem _ _ ?_)
          (.cons (hitem _ _ ?_) (.cons (hitem _ _ ?_) (.cons (hitem _ _ ?_) (.cons (hitem _ _ ?_)
            .nil))))))))))), hitem _ _ ?_⟩
    all_goals decide +kernel
  have htop := hnew.atTopLevel source
  have hequipped : ({ m with input := source } : Machine).Equipped :=
    (create_equipped hcreate : m.Equipped)
  have htable : ∀ (op : Nat) (action : Action), Vocabulary.actions[op]? = some action →
      m.table[op]? = some action := by
    intro op action haction
    rw [← Array.getElem?_toList, hnew.table, haction]
  have hstands : Body.starAndNumbers.Stands { m with input := source } m.regs.here.toNat := by
    refine ⟨trivial, trivial, ⟨htable 29 _ ?_, ?_⟩, ⟨⟨htable 29 _ ?_, ?_⟩, ⟨htable 104 _ ?_, ?_⟩⟩,
      trivial, ⟨htable 103 _ ?_, ?_⟩⟩
    all_goals decide +kernel
  have hcells : 31000 < m.unused := by
    rw [hnew.unused_eq]
    decide +kernel
  have hroom : 64 ≤ m.dataStack.room := by
    rw [hnew.room_eq]
    decide +kernel
  have hreturn : 128 ≤ m.returnStack.room := by
    rw [hnew.returnRoom_eq]
    decide +kernel
  obtain ⟨m', xt, hrun, -, hstore, hkept, htop', -, -, -, hexecutes⟩ :=
    interpret_definition_executes htop hequipped hd hstands
      (Nat.lt_of_le_of_lt (by decide +kernel) hcells) (Nat.le_trans (by decide +kernel) hroom)
      (Nat.le_refl 14)
  have hready := hexecutes m' (.refl htop'.within) (fun _ _ => rfl) rfl htop'.ip_eq htop'.mode_eq
    (hkept ▸ Nat.le_trans (by decide +kernel) hreturn)
  have hwrites : (Body.starAndNumbers.eval 3 .definition ⟨[], 64, 10, {}⟩).map (fun
      | .ok _ s => some s.sink.bytes
      | .error _ _ => none) = some (some (Text.bytes "*1 2 ")) := by
    decide +kernel
  rw [← show m'.store = ⟨[], 64, 10, {}⟩ from hstore.trans hnew.store_eq] at hwrites
  obtain ⟨r, heval, hbytes⟩ := Option.map_eq_some_iff.mp hwrites
  obtain ⟨k, r', hk, hends⟩ := hready.run_of_eval 3 r heval
  cases hends with
  | error => cases hbytes
  | ok h =>
    refine ⟨_, m', _, k, htop, hequipped, hd, hrun, hk 0, ?_⟩
    rw [h.sink_eq]
    exact Option.some.inj hbytes

/-! ### Definitions inside of threaded code -/

/-- Threaded code cannot go on at an opcode for code fields. -/
theorem stepThread_of_field {m : Machine} {op : Cell}
    (hcell : m.memory.cells[m.regs.ip.toNat]? = some op) (hlt : op.toNat < m.table.size)
    (hfield : CodeFields.standard.contains op = true) :
    ∃ m', stepThread m = .error .invalidMemoryAddress m' := by
  refine ⟨{ m with regs := { m.regs with ip := m.regs.ip + 1 } }, ?_⟩
  unfold stepThread
  rw [Exec.bind_reg, bind_of_ok (Exec.fetch_of_some hcell), Exec.jump, Exec.bind_setRegs]
  exact bind_of_error (bind_of_error (Exec.resolve_of_field hlt hfield))

/-- Inside of threaded code, a definition does not get past its name if the code cannot go on. -/
theorem interpret_colon_of_field {m : Machine} {colon name : List UInt8} {ts : List (List UInt8)}
    (h : m.WithinRegions)
    (hbounds : ∀ r, m.find colon = .ok (some r) →
      dictionaryStart ≤ r.address ∧ r.body ≤ m.memory.size)
    (hip : m.regs.ip ≠ 0) (hbelow : m.regs.ip.toNat < m.regs.here.toNat) {op : Cell}
    (hcell : m.memory.cells[m.regs.ip.toNat]? = some op) (hlt : op.toNat < m.table.size)
    (hfield : CodeFields.standard.contains op = true) (hmode : m.regs.mode = .interpret)
    (hdefining : m.regs.defining = 0)
    (hcolon : m.item? colon = some (.immediate (.define .colon)))
    (hreads : m.input.Reads (colon :: name :: ts)) (hlen : name.length ≤ Record.maxNameLength)
    (hcells : Record.cellsFor name.length ≤ m.unused) (hitems : 2 ≤ m.dataStack.room)
    (steps : Nat) :
    ∃ m', m.interpret (steps + 2) = some (.error .invalidMemoryAddress m') := by
  obtain ⟨input, hreads₁, hrun⟩ := interpret_of_reads hreads
  have h₁ : ({ m with token := colon, input := input } : Machine).WithinRegions := { h with }
  obtain ⟨input', m', htoken, -, hdrafting⟩ := interpretToken_colon h₁ hbounds hmode hdefining
    hcolon hreads₁ hlen hcells hitems
  have hip' : m'.regs.ip = m.regs.ip := congrArg (·.regs.ip) hdrafting.rest
  have htable : m'.table = m.table := congrArg (·.table) hdrafting.rest
  obtain ⟨m'', hfault⟩ : ∃ m'', stepThread m' = .error .invalidMemoryAddress m'' := by
    refine stepThread_of_field ?_ (htable ▸ hlt) hfield
    rw [hip']
    exact (hdrafting.grown.agree _ hbelow).trans hcell
  refine ⟨m''.restoreToken colon, ?_⟩
  rw [hrun, htoken, runThread_succ steps (hip' ▸ hip), hfault]
  rfl

/-- Threaded code that works on a store changes nothing in the dictionary. -/
theorem Running.find_eq {m₀ m : Machine} {s : Store} {returns : List Cell} {ip : Nat}
    (h : m₀.Running s returns ip m) (hwithin : m₀.WithinRegions) (hintact : m₀.Intact)
    (token : List UInt8) : m.find token = m₀.find token :=
  find_congr hwithin h.within hintact (congrArg (·.regs.latest) h.rest)
    (congrArg (·.regs.here) h.rest) (h.agree.mono hwithin.here_le_dataBase) token

theorem Running.item?_eq {m₀ m : Machine} {s : Store} {returns : List Cell} {ip : Nat}
    (h : m₀.Running s returns ip m) (hwithin : m₀.WithinRegions) (hintact : m₀.Intact)
    (token : List UInt8) : m.item? token = m₀.item? token :=
  item?_congr hwithin hintact (h.find_eq hwithin hintact token)
    (h.agree.mono hwithin.here_le_dataBase) h.table_eq (congrArg (·.regs.base) h.rest)

/-- Inside of threaded code, the interpreter can refuse a definition with a structured body. Here a
new machine is made to enter a definition, though there is none; it goes on in the reserved cells,
and what it finds there cannot be run. -/
theorem definition_refused_inside_threaded_code :
    ∃ m m' : Machine, create {} .empty {} .off = .ok m ∧ Runtime.nest.perform m = .ok () m' ∧
      m'.poison? = none ∧ m'.regs.mode = .interpret ∧ m'.regs.defining = 0 ∧
      31000 < m'.unused ∧ 64 ≤ m'.dataStack.room ∧
      (m'.setText ": y dup ;").ReadsDefinition (Text.bytes "y") [Text.bytes "dup"]
        (Body.word 11 (.stack .dup) : Body .definition).parts (Text.bytes ";") ∧
      m'.Native 11 (.stack .dup) ∧
      ∀ steps, ∃ m'', m'.evaluate (steps + 2) ": y dup ;" =
        some (.error (.fault .invalidMemoryAddress) m'') := by
  have hlayout : Config.layout {} = .ok ⟨32576, 32640, 32768⟩ := rfl
  obtain ⟨m, hcreate, hnew⟩ := create_of_room hlayout (by decide +kernel) .empty {} .off
  have hcapacity : m.returnStack.items.length + 1 ≤ m.returnStack.capacity := by
    have hreturn : 128 ≤ m.returnStack.room := by
      rw [hnew.returnRoom_eq]
      decide +kernel
    have hlength := hnew.within.returnStack.length_items
    unfold Stack.room at hreturn
    omega
  obtain ⟨m', hnest, h⟩ := (Running.refl hnew.within).nest hcapacity
  have hip : m'.regs.ip = 1 := by
    rw [h.ip_eq, hnew.regs]
    rfl
  have hmode : m'.regs.mode = .interpret :=
    (congrArg (·.regs.mode) h.rest).trans (by rw [hnew.regs]; rfl)
  have hdefining : m'.regs.defining = 0 :=
    (congrArg (·.regs.defining) h.rest).trans (by rw [hnew.regs]; rfl)
  have hfault : m'.regs.fault = false :=
    (congrArg (·.regs.fault) h.rest).trans (by rw [hnew.regs]; rfl)
  have hpoison : m'.poison? = none := by rw [poison?, hfault]; rfl
  have hunused : 31000 < m'.unused := by
    have hsame : m'.unused = m.unused := (congrArg Machine.unused h.rest).trans rfl
    rw [hsame, hnew.unused_eq]
    decide +kernel
  have hroom : 64 ≤ m'.dataStack.room := by
    have hlength := h.within.dataStack.length_items
    rw [h.data_eq, hnew.store_eq] at hlength
    rw [Stack.room, h.capacity_eq, ← hlength, hnew.store_eq]
    decide +kernel
  have hitem : ∀ token item, newItem? token = some item → m'.item? token = some item :=
    fun token item hnewItem =>
      (h.item?_eq hnew.within hnew.intact token).trans ((hnew.item?_eq token).trans hnewItem)
  have hd : (m'.setText ": y dup ;").ReadsDefinition (Text.bytes "y") [Text.bytes "dup"]
      (Body.word 11 (.stack .dup) : Body .definition).parts (Text.bytes ";") := by
    refine ⟨⟨Text.bytes ":", hitem _ _ ?_, ⟨_, rfl, ?_⟩, ?_⟩, ?_, .cons (hitem _ _ ?_) .nil,
      hitem _ _ ?_⟩
    all_goals decide +kernel
  have hnative : m'.Native 11 (.stack .dup) := by
    refine ⟨?_, rfl⟩
    rw [h.table_eq, ← Array.getElem?_toList, hnew.table]
    decide +kernel
  have hsize : m'.memory.size = m.memory.size := by
    rw [← h.within.returnLimit_eq, ← hnew.within.returnLimit_eq]
    exact congrArg (·.regs.returnLimit.toNat) h.rest
  have hbounds : ∀ token r, m'.find token = .ok (some r) →
      dictionaryStart ≤ r.address ∧ r.body ≤ m'.memory.size := by
    intro token
    rw [h.find_eq hnew.within hnew.intact, hsize]
    exact hnew.intact.bounds_of_find_le_size hnew.within
  have hne : m'.regs.ip ≠ 0 := by rw [hip]; decide
  have hcell : m'.memory.cells[m'.regs.ip.toNat]? = some 0 := by
    have hstart := hnew.within.start_le_here
    have hdata := hnew.within.here_le_dataBase
    rw [hip]
    refine (h.agree 1 ?_).trans (hnew.reserved 1 (by decide))
    unfold dictionaryStart at hstart
    omega
  have hbelow : m'.regs.ip.toNat < m'.regs.here.toNat := by
    have hstart := h.within.start_le_here
    rw [hip]
    exact Nat.lt_of_lt_of_le (by decide) hstart
  have hlt : (0 : Cell).toNat < m'.table.size := by
    obtain ⟨hlt, -⟩ := Array.getElem?_eq_some_iff.mp (create_equipped hcreate .nest)
    rwa [h.table_eq]
  obtain ⟨colon, hcolon, hreads⟩ := hd.reads
  refine ⟨m, m', hcreate, hnest, hpoison, hmode, hdefining, hunused, hroom, hd, hnative,
    fun steps => ?_⟩
  have hwithin : (m'.setText ": y dup ;").WithinRegions := { h.within with }
  obtain ⟨m'', hrun⟩ := interpret_colon_of_field hwithin (hbounds colon) hne hbelow hcell hlt rfl
    hmode hdefining hcolon hreads hd.length_le
    (Nat.le_trans (by decide +kernel) (Nat.le_of_lt hunused)) (Nat.le_trans (by decide) hroom) steps
  have hnone : (m'.setText ": y dup ;").poison? = none := hpoison
  simp only [evaluate, hpoison, run, hnone, hrun, Option.map_some, finishRun]
  split <;> exact ⟨_, rfl⟩

end Machine

end CellForth
