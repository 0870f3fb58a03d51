import CellForth.Proofs.Abreast
import CellForth.Proofs.Meaning
import CellForth.Proofs.Poison
import CellForth.Proofs.Startup

/-!
# The machine between two tokens

Outside of threaded code the instruction pointer is zero. Only words that run move it, and the outer
interpreter runs threaded code behind each of them until the pointer is zero again or there is a
fault; a token that is pushed or compiled leaves the pointer alone. So a token that has been
interpreted without a fault leaves the pointer at zero if it was there
(`Machine.ip_of_interpretToken`), and so does all of the input (`Machine.ip_of_interpret`). A host
that has its machine interpret input, and otherwise only switches its devices, therefore finds the
pointer at zero whenever the machine is not poisoned (`Machine.Settled`).

`Machine.StartsOn` relates a machine to those at which it starts on a token of its input. The
pointer is zero at all of them. A runtime action that reads what stands behind it in threaded code
looks at the pointer first; so `execute`, met as a token of the input, cannot make it read from
anywhere else.
-/

namespace CellForth

/-! ### What moves the instruction pointer -/

namespace Exec

variable {ip : Cell}

theorem keeps_ip_onMemory {α : Type} (op : EStateM Fault Memory α) :
    Keeps (fun m => m.regs.ip = ip) (onMemory op) := fun m hm => by
  rw [onMemory_eq]
  cases op m.memory <;> exact hm

theorem keeps_ip_onData {α : Type} (op : StackM α) :
    Keeps (fun m => m.regs.ip = ip) (onData op) := by
  intro m hm
  rw [onData_eq]
  cases op m.dataStack <;> exact hm

theorem keeps_ip_push (c : Cell) : Keeps (fun m => m.regs.ip = ip) (push c) := keeps_ip_onData _

theorem keeps_ip_compileCell (c : Cell) : Keeps (fun m => m.regs.ip = ip) (compileCell c) :=
  .bind (.observe _) fun _ => .bind (.reg _) fun _ => .bind (keeps_ip_onMemory _) fun _ _ hm => hm

theorem keeps_ip_compileReference (r : Record) :
    Keeps (fun m => m.regs.ip = ip) (compileReference r) :=
  .bind (.observe _) fun _ => .ite (keeps_ip_compileCell _) (keeps_ip_compileCell _)

theorem keeps_ip_enterNumber (c : Cell) : Keeps (fun m => m.regs.ip = ip) (enterNumber c) :=
  .bind (.reg _) fun _ =>
    .ite (.bind (keeps_ip_compileCell _) fun _ => keeps_ip_compileCell c) (keeps_ip_push c)

/-- A token behind which no threaded code is to be run has not moved the pointer. -/
theorem ip_of_enterToken {token : List UInt8} {m m' : Machine}
    (h : enterToken token m = .ok .done m') : m'.regs.ip = m.regs.ip := by
  obtain ⟨c, -, -, hnumber⟩ | ⟨r, -, ⟨-, -, hcompile⟩ | ⟨-, hresume, -⟩⟩ := enterToken_ok_cases h
  · exact (keeps_ip_enterNumber c).of_ok hnumber rfl
  · exact (keeps_ip_compileReference r).of_ok hcompile rfl
  · -- The word may have moved the pointer, but then threaded code is to be run.
    cases hresume

end Exec

namespace Machine

variable {m m' : Machine} {steps : Nat}

/-- Threaded code that has ended without a fault has ended where the pointer is zero. -/
theorem ip_of_runThread (h : m.runThread steps = some (.ok () m')) : m'.regs.ip = 0 := by
  refine runThread_induction
    (motive := fun _ _ r => ∀ m', r = .ok () m' → m'.regs.ip = 0) ?_ ?_ ?_ h m' rfl
  · rintro _ m hip _ ⟨⟩
    exact hip
  · intro _ _ _ _ _ _ m' hok
    cases hok
  · intro _ _ _ _ _ _ ih
    exact ih

/-- One token: from top level to top level. -/
theorem ip_of_interpretToken {token : List UInt8} (hip : m.regs.ip = 0)
    (h : m.interpretToken steps token = some (.ok () m')) : m'.regs.ip = 0 := by
  obtain ⟨next, m₁, m₂, henter, hcontinue, rfl⟩ := exists_of_interpretToken_ok h
  rw [regs_restoreToken]
  cases next with
  | done =>
    cases hcontinue
    exact (Exec.ip_of_enterToken henter).trans hip
  | resume => exact ip_of_runThread hcontinue

theorem ip_of_parseWord (h : Exec.parseWord m = .ok () m') : m'.regs.ip = m.regs.ip := by
  have hkept : Keeps (fun m' => m'.regs.ip = m.regs.ip) Exec.parseWord :=
    DeviceFree.parseWord fun _ _ _ _ _ hm => hm
  have hend := hkept m rfl
  rwa [h] at hend

/-- All of the input: from top level to top level. -/
theorem ip_of_interpret (hip : m.regs.ip = 0) (h : m.interpret steps = some (.ok () m')) :
    m'.regs.ip = 0 := by
  refine interpret_induction
    (motive := fun _ m r => m.regs.ip = 0 → ∀ m', r = .ok () m' → m'.regs.ip = 0) ?_ ?_ ?_ ?_ h
    hip m' rfl
  · intro _ _ _ _ _ _ m' hok
    cases hok
  · rintro _ m m₁ hparse _ hip _ ⟨⟩
    exact (ip_of_parseWord hparse).trans hip
  · intro _ _ _ _ _ _ _ _ _ m' hok
    cases hok
  · intro _ m m₁ m₂ r hparse _ hrun ih hip
    exact ih (ip_of_interpretToken ((ip_of_parseWord hparse).trans hip) hrun)

end Machine

/-! ### Hosts that only have input interpreted -/

/-- The machine that a request interprets the input of. -/
def Request.interpreted? : Request → Machine → Option Machine
  | evaluate text, m => some (m.setText text)
  | run, m => some m
  | _, _ => none

theorem Request.ip_of_interpreted? {request : Request} {m m₀ : Machine}
    (h : request.interpreted? m = some m₀) : m₀.regs.ip = m.regs.ip := by
  cases request with
  | evaluate | run =>
    cases h
    rfl
  | _ => cases h

theorem Request.keeps_interpreted? {P : Machine → Prop} (hP : Elementary P) {request : Request}
    {m m₀ : Machine} (h : request.interpreted? m = some m₀) (hm : P m) : P m₀ := by
  cases request with
  | evaluate text =>
    cases h
    exact hP.plain.setText text hm
  | run =>
    cases h
    exact hm
  | _ => cases h

/-- A machine that is not poisoned interprets the input to its end and concludes the run. -/
theorem Request.perform_of_interpreted? {request : Request} {m m₀ : Machine}
    (h : request.interpreted? m = some m₀) (hpoison : m.poison? = none) (steps : Nat) :
    request.perform steps m = ofHost ((m₀.interpret steps).map Machine.finishRun) := by
  cases request with
  | evaluate text =>
    cases h
    rw [perform, Machine.evaluate_eq_of_poison?_eq_none hpoison]
  | run =>
    cases h
    simp only [perform, Machine.run, hpoison]
  | _ => cases h

/-- Does the request have input interpreted, or switch a device? -/
def Request.isOuter : Request → Bool
  | evaluate _ | run | setText _ | setStream _ | setOutput _ => true
  | _ => false

namespace Machine

/-- The machine's two records of a fault agree, and without a fault its instruction pointer is
zero. -/
def Settled (m : Machine) : Prop :=
  ∃ f, m.HasPoison f ∧ (f = none → m.regs.ip = 0)

theorem Settled.ip_eq {m : Machine} (h : m.Settled) (hpoison : m.poison? = none) :
    m.regs.ip = 0 := by
  obtain ⟨f, hf, hip⟩ := h
  exact hip (hf.poison?_eq.symm.trans hpoison)

theorem Settled.poison?_eq {m : Machine} (h : m.Settled) (hclean : m.isPoisoned = false) :
    m.poison? = none := by
  obtain ⟨f, hf, -⟩ := h
  rw [hf.poison?_eq]
  rw [isPoisoned, hf.1] at hclean
  exact Option.not_isSome_iff_eq_none.mp (by rw [hclean]; exact Bool.false_ne_true)

theorem create_settled {config : Config} {input : Source} {output : Sink} {verbosity : Verbosity}
    {m : Machine} (h : create config input output verbosity = .ok m) : m.Settled := by
  obtain ⟨layout, -, hnew⟩ := new_of_create h
  refine ⟨none, create_hasPoison h, fun _ => ?_⟩
  rw [hnew.regs]
  rfl

end Machine

/-- A request that interprets leaves the pointer at zero, or poisons the machine. -/
theorem Request.settled_of_interpreted? {request : Request} {m m₀ : Machine} {steps : Nat}
    {r : EStateM.Result Refusal Machine Answer} (h : request.interpreted? m = some m₀)
    (hm : m.Settled) (hr : request.perform steps m = some r) : (endState r).Settled := by
  have hinterprets : request.interprets = true := by
    cases request with
    | evaluate | run => rfl
    | _ => cases h
  -- It was poisoned before, or the input is at its end, or there was a fault.
  obtain ⟨f, hf, hip⟩ := id hm
  obtain ⟨f, -, rfl⟩ | ⟨hpoison, ⟨m', hm', rfl⟩ | ⟨e, m', -, rfl⟩⟩ :=
    (Elementary.hasPoison f).perform_interprets hinterprets hf hr
  · exact hm
  · refine ⟨f, hm', fun hnone => ?_⟩
    rw [perform_of_interpreted? h hpoison] at hr
    cases hrun : m₀.interpret steps with
    | none =>
      rw [hrun] at hr
      cases hr
    | some o =>
      rw [hrun] at hr
      cases o with
      | error e m₁ =>
        rw [Option.map_some, Machine.finishRun_error] at hr
        cases hr
      | ok _ m₁ =>
        rw [Option.map_some, Machine.finishRun_ok] at hr
        split at hr
        · cases hr
        · cases hr
          exact Machine.ip_of_interpret ((ip_of_interpreted? h).trans (hip hnone)) hrun
  · exact ⟨some e, ⟨rfl, rfl⟩, fun hnone => by cases hnone⟩

theorem Request.settled_of_perform {request : Request} {m : Machine} {steps : Nat}
    {r : EStateM.Result Refusal Machine Answer} (houter : request.isOuter = true) (hm : m.Settled)
    (hr : request.perform steps m = some r) : (endState r).Settled := by
  cases request with
  | evaluate text => exact settled_of_interpreted? rfl hm hr
  | run => exact settled_of_interpreted? rfl hm hr
  | setText | setStream | setOutput =>
    cases hr
    exact hm
  | _ => cases houter

theorem Transcript.settled {m m' : Machine} {es : List (Request × Reply)} (ht : Transcript m es m')
    (houter : ∀ e ∈ es, e.1.isOuter = true) (hm : m.Settled) : m'.Settled := by
  induction ht with
  | nil => exact hm
  | cons hperform _ ih =>
    rw [List.forall_mem_cons] at houter
    exact ih houter.2 (Request.settled_of_perform houter.1 hm hperform)

/-! ### Starting on a token -/

namespace Machine

/-- Interpreting its input, the first machine comes to the second, where it starts on the token that
it has just read. -/
inductive StartsOn : Machine → Machine → Prop
  /-- This is the first token. -/
  | first {m m₁ : Machine} (hparse : Exec.parseWord m = .ok () m₁) (htoken : m₁.token ≠ []) :
    StartsOn m m₁
  /-- The first token is interpreted without a fault, and this is one of the others. -/
  | next {m m₁ m₂ m₃ : Machine} {steps : Nat} (hparse : Exec.parseWord m = .ok () m₁)
    (htoken : m₁.token ≠ []) (hrun : m₁.interpretToken steps m₁.token = some (.ok () m₂))
    (hrest : StartsOn m₂ m₃) : StartsOn m m₃

namespace StartsOn

variable {m m₁ : Machine} (h : m.StartsOn m₁)
include h

theorem ip_eq (hip : m.regs.ip = 0) : m₁.regs.ip = 0 := by
  induction h with
  | first hparse _ => exact (ip_of_parseWord hparse).trans hip
  | next hparse _ hrun _ ih =>
    exact ih (ip_of_interpretToken ((ip_of_parseWord hparse).trans hip) hrun)

/-- What lasts is there still. -/
theorem keeps {P : Machine → Prop} (hP : Lasting P) (hm : P m) : P m₁ := by
  have hparsed {m m₁ : Machine} (hparse : Exec.parseWord m = .ok () m₁) (hm : P m) : P m₁ := by
    have hend := hP.parseWord m hm
    rwa [hparse] at hend
  induction h with
  | first hparse _ => exact hparsed hparse hm
  | next hparse _ hrun _ ih => exact ih (hP.interpretToken (hparsed hparse hm) hrun)

/-- If a token faults that the interpreter comes to, then the interpreter does. -/
theorem interpret_eq {m₂ : Machine} {e : Fault} {k : Nat}
    (hfault : m₁.interpretToken k m₁.token = some (.error e m₂)) :
    ∃ n, ∀ j, m.interpret (n + j) = some (.error e m₂) := by
  induction h with
  | @first m m₁ hparse htoken =>
    refine ⟨k + 1, fun j => ?_⟩
    rw [Nat.add_right_comm, interpret_succ _ hparse htoken, interpretToken_add hfault j]
  | @next m m₁ m₃ m₄ steps hparse htoken hrun _ ih =>
    obtain ⟨n, hn⟩ := ih hfault
    -- Both the token and the input behind it have the steps they need.
    refine ⟨steps + n + 1, fun j => ?_⟩
    rw [Nat.add_right_comm, interpret_succ _ hparse htoken, Nat.add_assoc,
      interpretToken_add hrun (n + j), Nat.add_left_comm]
    exact hn (steps + j)

end StartsOn

end Machine

/-! ### Actions with an operand -/

/-- Does the action work only inside of threaded code? -/
def Runtime.needsThread : Runtime → Bool
  | literal | branch | zeroBranch | enterLoop | stepLoop | stepLoopBy | print => true
  | nest | address | constant | exit => false

/-- Outside of threaded code the action is refused, and nothing happens. -/
theorem Runtime.perform_of_ip_eq_zero {r : Runtime} (hr : r.needsThread = true) {m : Machine}
    (hip : m.regs.ip = 0) : r.perform m = .error .compileOnly m := by
  have hrefused : Exec.requireThread m = .error .compileOnly m :=
    observe_of_error (demand_of_neg fun hne => hne hip)
  cases r with
  | literal | print => exact bind_of_error (bind_of_error hrefused)
  | branch | zeroBranch | enterLoop | stepLoop | stepLoopBy => exact bind_of_error hrefused
  | nest | address | constant | exit => cases hr

theorem Runtime.contains_of_needsThread {r : Runtime} (hr : r.needsThread = true) :
    CodeFields.standard.contains r.opcode = false := by
  cases r with
  | nest | address | constant | exit => cases hr
  | _ => rfl

namespace Exec

/-- With an opcode on top of the data stack, `execute` takes it off and performs its action. -/
theorem act_execute {m : Machine} (h : m.WithinRegions) {op : Cell} {items : List Cell}
    (hitems : m.dataStack.items = op :: items) {action : Action} (hop : m.Native op action)
    (hexecute : action ≠ .execute) (hresume : action ≠ .resume) :
    act .execute m =
      (action.step >>= fun _ => pure Continuation.done) (m.replaceData 1 []) := by
  have hpop : pop m = .ok op (m.replaceData 1 []) := onData_of_ok (h.dataStack.pop_of_cons hitems)
  have hresolve : resolve op (m.replaceData 1 []) = .ok action (m.replaceData 1 []) := by
    obtain ⟨hlt, -⟩ := Array.getElem?_eq_some_iff.mp hop.table
    exact resolve_of_opcode hlt hop.contains_eq hop.table
  rw [act_execute_eq, bind_of_ok hpop, execute, bind_of_ok hresolve, act_of_step hexecute hresume]

end Exec

namespace Machine

/-- The token that was read last names `execute`, which is to run now, and it will find `xt` on top
of `items`. -/
structure AboutToExecute (m : Machine) (xt : Cell) (items : List Cell) : Prop where
  /-- The token is found, it is not to be compiled, and what it leads to is `execute`. -/
  token : ∃ r m', m.find m.token = .ok (some r) ∧ (m.regs.isCompiling && !r.isImmediate) = false ∧
    Exec.resolve (UInt16.ofNat r.codeField) { m with token := [] } = .ok .execute m'
  /-- What is on the data stack, the top first. -/
  items : m.dataStack.items = xt :: items

/-- At top level, `execute` refuses an action that works only inside of threaded code. It has taken
the opcode off the stack, and set the register `w`. -/
theorem AboutToExecute.interpretToken_eq {m : Machine} {r : Runtime} {items : List Cell}
    (h : m.AboutToExecute r.opcode items) (hr : r.needsThread = true) (hwithin : m.WithinRegions)
    (hequipped : m.Equipped) (hip : m.regs.ip = 0) :
    ∃ w, ∀ steps, m.interpretToken steps m.token =
      some (.error .compileOnly
        (({ m with regs := { m.regs with w := w } } : Machine).replaceData 1 [])) := by
  obtain ⟨record, m', hfind, hrun, hresolve⟩ := h.token
  obtain ⟨w, rfl⟩ := Exec.exists_of_resolve hresolve
  have hact : Exec.act .execute { m with token := [], regs := { m.regs with w := w } } =
      .error .compileOnly
        (({ m with token := [], regs := { m.regs with w := w } } : Machine).replaceData 1 []) :=
    (Exec.act_execute (m := { m with token := [], regs := { m.regs with w := w } }) { hwithin with }
      h.items ⟨hequipped r, Runtime.contains_of_needsThread hr⟩ (by simp) (by simp)).trans
      (bind_of_error (Runtime.perform_of_ip_eq_zero hr hip))
  refine ⟨w, fun steps => ?_⟩
  rw [interpretToken_of_run steps hfind hrun, Exec.execute, bind_of_ok hresolve, hact]
  rfl

end Machine

/-- **The machine is at top level between calls.** Let a host have a new machine interpret input,
and switch its input and output, as it likes. As long as the machine is not poisoned its instruction
pointer is zero, and it is zero whenever the interpreter starts on a token. So if the token is
`execute`, it refuses every runtime action that works only inside of threaded code, and so does the
call; memory and return stack are then as they were, and the opcode is gone from the data stack. -/
theorem Transcript.top_level_between_calls {config : Config} {input : Source} {output : Sink}
    {verbosity : Verbosity} {m m' : Machine} {es : List (Request × Reply)}
    (hcreate : Machine.create config input output verbosity = .ok m) (ht : Transcript m es m')
    (houter : ∀ e ∈ es, e.1.isOuter = true) (hclean : m'.isPoisoned = false) :
    m'.regs.ip = 0 ∧
      ∀ (request : Request) (m₀ m₁ : Machine), request.interpreted? m' = some m₀ → m₀.StartsOn m₁ →
        m₁.regs.ip = 0 ∧
        ∀ (r : Runtime) items, r.needsThread = true → m₁.AboutToExecute r.opcode items →
          ∃ m₂ n, (∀ steps, m₁.interpretToken steps m₁.token = some (.error .compileOnly m₂)) ∧
            (∀ steps, request.perform (n + steps) m' =
              some (.error (.host (.fault .compileOnly)) (m₂.poisonWith .compileOnly))) ∧
            m₂.memory = m₁.memory ∧ m₂.returnStack = m₁.returnStack ∧
            m₂.dataStack.items = items := by
  have hsettled := ht.settled houter (Machine.create_settled hcreate)
  have hpoison := hsettled.poison?_eq hclean
  have hip := hsettled.ip_eq hpoison
  have hwithin := Machine.create_withinRegions hcreate
  refine ⟨hip, fun request m₀ m₁ hrequest hstarts => ?_⟩
  have hip₀ : m₀.regs.ip = 0 := (Request.ip_of_interpreted? hrequest).trans hip
  have hip₁ := hstarts.ip_eq hip₀
  refine ⟨hip₁, fun r items hr habout => ?_⟩
  -- No word replaces an action of the table, so the opcodes still mean what they did at the start.
  have hcontinues : m.Continues m₁ :=
    hstarts.keeps (Elementary.continues m).lasting
      (Request.keeps_interpreted? (Elementary.continues m) hrequest (ht.continues hwithin))
  obtain ⟨w, hrefused⟩ := habout.interpretToken_eq hr hcontinues.1.1
    (hcontinues.2.equipped (Machine.create_equipped hcreate)) hip₁
  obtain ⟨n, hruns⟩ := hstarts.interpret_eq (hrefused 0)
  have hfits : m₁.dataStack.Fits 1 [] :=
    ⟨by rw [← hcontinues.1.1.dataStack.length_items, habout.items]; simp, Nat.zero_le _⟩
  refine ⟨_, n, hrefused, fun steps => ?_, rfl, rfl, ?_⟩
  · rw [Request.perform_of_interpreted? hrequest hpoison, hruns, Option.map_some,
      Machine.finishRun_error]
    rfl
  · exact (hcontinues.1.1.dataStack.items_replaced hfits).trans (by rw [habout.items]; rfl)

/-- At top level, a number for which there is room is put on top of the stack. -/
theorem Machine.interpretToken_number_of_fits {m : Machine} {token : List UInt8} {c : Cell}
    (h : m.WithinRegions) (hitem : m.item? token = some (.number c))
    (hmode : m.regs.mode = .interpret) (hfits : m.dataStack.Fits 0 [c]) (steps : Nat) :
    m.interpretToken steps token =
      some (.ok () (({ m with token := token } : Machine).replaceData 0 [c])) := by
  have hpush : Exec.push c { m with token := [] } =
      .ok () (({ m with token := [] } : Machine).replaceData 0 [c]) :=
    Exec.onData_of_ok (h.dataStack.push_of_fits hfits)
  rw [interpretToken_number_of_interpret steps hitem hmode, hpush]
  rfl

/-- A token whose record has the opcode of `execute` in its code field runs `execute`. -/
theorem Machine.aboutToExecute_of_find {m : Machine} {r : Record} {code xt : Cell}
    {items : List Cell} (h : m.WithinRegions) (hfind : m.find m.token = .ok (some r))
    (haddress : dictionaryStart ≤ r.address) (hbody : r.body ≤ m.memory.size)
    (hcode : m.memory.get r.codeField = .ok code)
    (haction : m.table[code.toNat]? = some .execute) (hmode : m.regs.mode = .interpret)
    (hitems : m.dataStack.items = xt :: items) : m.AboutToExecute xt items where
  token := by
    have h₀ : ({ m with token := [] } : Machine).WithinRegions := { h with }
    refine ⟨r, _, hfind, ?_, resolve_codeField h₀ haddress hbody hcode haction⟩
    rw [Registers.isCompiling, hmode]
    rfl
  items := hitems

/-- A new machine is given the opcode of a literal, and then `execute`. -/
theorem Transcript.top_level_between_calls_literal :
    ∃ (m m₁ m₂ : Machine) (n : Nat), Machine.create {} Source.empty {} .off = .ok m ∧
      (m.setText "3 execute").StartsOn m₁ ∧ m₁.AboutToExecute Runtime.literal.opcode [] ∧
      (∀ steps, (Request.evaluate "3 execute").perform (n + steps) m =
        some (.error (.host (.fault .compileOnly)) (m₂.poisonWith .compileOnly))) ∧
      m₂.memory = m₁.memory ∧ m₂.returnStack = m₁.returnStack ∧ m₂.dataStack.items = [] := by
  obtain ⟨m, hcreate, hnew, -, hmode, -, -, hroom⟩ := Machine.create_default Source.empty {} .off
  have hstart := Machine.atStart_of_create hcreate
  have hwithin := hnew.within
  have hfits : m.dataStack.Fits 0 [3] := ⟨Nat.zero_le _, by simpa using (by omega : 1 ≤ _)⟩
  -- The two tokens are read one after the other, with a number pushed between them.
  have hreads : (m.setText "3 execute").input.Reads [Text.bytes "3", Text.bytes "execute"] :=
    ⟨⟨_, rfl, by decide +kernel⟩, by decide +kernel⟩
  obtain ⟨input₁, hparse₁, hreads₁⟩ := Exec.parseWord_of_reads hreads
  have hitem : m.item? (Text.bytes "3") = some (.number 3) :=
    (hnew.item?_eq _).trans (by decide +kernel)
  have hpushed := Machine.interpretToken_number_of_fits
    (m := { m.setText "3 execute" with token := Text.bytes "3", input := input₁ }) { hwithin with }
    hitem hmode hfits 0
  obtain ⟨input₂, hparse₂, -⟩ := Exec.parseWord_of_reads
    (m := ({ m.setText "3 execute" with token := Text.bytes "3", input := input₁ } :
      Machine).replaceData 0 [3]) hreads₁
  have hstarts := Machine.StartsOn.next hparse₁ (hreads.ne_nil _ List.mem_cons_self) hpushed
    (.first hparse₂ (hreads₁.ne_nil _ List.mem_cons_self))
  -- The word is still found, for it stands below the stack.
  have hreplaced := hwithin.replaceData hfits
  have hagree : Memory.AgreeBelow m.regs.here.toNat (m.replaceData 0 [3]).memory m.memory :=
    fun i hi =>
      hwithin.cells_replaceData hfits (.inl (Nat.lt_of_lt_of_le hi hwithin.here_le_dataBase))
  have hword : ((⟨"execute", .execute, false⟩ : Builtin), 74) ∈ Vocabulary.numbered :=
    List.mem_of_getElem? (i := 39) rfl
  obtain ⟨r, hfind, hcode⟩ := hstart.find _ _ hword
  have hfound := (Machine.find_congr hwithin hreplaced hnew.intact rfl rfl hagree _).trans hfind
  obtain ⟨haddress, hbody⟩ := hnew.intact.bounds_of_find hwithin hfind
  have hcell : (m.replaceData 0 [3]).memory.get r.codeField = .ok 74 :=
    Memory.get_of_some ((hagree _ (Nat.lt_of_lt_of_le (Nat.lt_succ_self _) hbody)).trans hcode)
  have hsize : r.body ≤ (m.replaceData 0 [3]).memory.size :=
    Nat.le_trans hbody (Nat.le_trans hreplaced.here_le_dataBase hreplaced.dataBase_le_size)
  have hitems : (m.replaceData 0 [3]).dataStack.items = [3] := by
    have hempty : m.dataStack.items = [] := congrArg List.reverse hstart.dataItems
    rw [Machine.dataStack_replaceData, hwithin.dataStack.items_replaced hfits, hempty]
    rfl
  have habout := Machine.aboutToExecute_of_find (m := { (({ m.setText "3 execute" with
      token := Text.bytes "3", input := input₁ } : Machine).replaceData 0 [3]) with
      token := Text.bytes "execute", input := input₂ })
    { hreplaced with } hfound haddress hsize hcell (hstart.action _ _ hword) hmode hitems
  obtain ⟨-, hruns⟩ := Transcript.top_level_between_calls hcreate (.nil m) (by simp)
    (Machine.create_hasPoison hcreate).1
  obtain ⟨m₂, n, -, hperform, hmemory, hreturn, hitems⟩ :=
    (hruns (.evaluate "3 execute") _ _ rfl hstarts).2 .literal [] rfl habout
  exact ⟨m, _, m₂, n, hcreate, hstarts, habout, hperform, hmemory, hreturn, hitems⟩

end CellForth
