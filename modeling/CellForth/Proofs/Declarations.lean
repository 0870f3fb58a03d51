import CellForth.Proofs.Openings
import CellForth.Proofs.Plans

/-!
# Declarations keep out of each other's way

A program declares variables, constants, created words with cells of their own, and definitions.
Where the rules of `CellForth.Proofs.Plans` have a plan for all the actions that its texts perform,
the machine matches the plan in the end (`Plan.Governs.matches_of_run`), and so the plots are apart,
every word gives what is its own, and storing into one cell of data changes that cell only
(`Succession.declarations_apart`). The words that declarations are written with are always within
the rules (`Plan.Governs.exists_run`).

The rules cannot be done without: a definition may run words while it is being compiled, and these
may store anywhere (`Succession.exists_overwritten_variable`).
-/

namespace CellForth

/-- Every action of the row has succeeded at a machine that matches the plan by then, and the
machine `m` matches the plan in the end. From where the rules have no plan, nothing is said. -/
def Plan.Governs : Plan → List (Action × Machine) → Machine → Prop
  | plan, [], m => m.Matches plan
  | plan, x :: xs, m =>
    x.2.Matches plan ∧ (∃ m', x.1.step x.2 = .ok () m') ∧
      ∀ plan', plan.advance x = some plan' → plan'.Governs xs m

namespace Plan

variable {plan plan' : Plan} {xs ys : List (Action × Machine)} {m m' : Machine}

/-- Between definitions, a value may be pushed. -/
theorem after_value (plots : List Plot) (c : Cell) (m : Machine) :
    (closed plots).after (.value c) m (m.replaceData 0 [c]) = some (closed plots) := by
  have hspares : (Action.value c).Spares m.regs.here.toNat plots m (m.replaceData 0 [c]) :=
    ⟨rfl, rfl, Nat.le_refl _, by simp [Action.named?]⟩
  have hsame : (m.replaceData 0 [c]).regs.here.toNat - m.regs.here.toNat = 0 := Nat.sub_self _
  have hmode : (m.replaceData 0 [c]).regs.mode = m.regs.mode := rfl
  rw [after_of_spares (by simp) rfl hmode hspares, hsame, Plot.enlarge_zero]

namespace Governs

theorem append (h : plan.Governs xs m)
    (hrest : ∀ plan', m.Matches plan' → plan'.Governs ys m') : plan.Governs (xs ++ ys) m' := by
  induction xs generalizing plan with
  | nil => exact hrest plan h
  | cons x xs ih =>
    obtain ⟨hmatches, hstep, hnext⟩ := h
    exact ⟨hmatches, hstep, fun plan' hplan => ih (hnext plan' hplan)⟩

/-- What does not matter for any plan may change in the end. -/
theorem mono (h : plan.Governs xs m) (hm : ∀ plan', m.Matches plan' → m'.Matches plan') :
    plan.Governs xs m' := by
  have hall := h.append fun plan' h' => show plan'.Governs [] m' from hm plan' h'
  rwa [List.append_nil] at hall

/-- Where the rules have a plan for all actions, the machine matches it. -/
theorem matches_of_run (h : plan.Governs xs m) (hrun : plan.run xs = some plan') :
    m.Matches plan' := by
  induction xs generalizing plan with
  | nil =>
    cases hrun
    exact h
  | cons x xs ih =>
    rw [run_cons] at hrun
    obtain ⟨plan₁, hadvance, hrest⟩ := Option.bind_eq_some_iff.mp hrun
    exact ih (h.2.2 plan₁ hadvance) hrest

/-- The rules have a plan for all the words that declarations are written with. -/
theorem exists_run (h : plan.Governs xs m) (hloose : plan.isLoose = false)
    (hdeclares : ∀ x ∈ xs, x.1.declares x.2 = true) : ∃ plan', plan.run xs = some plan' := by
  induction xs generalizing plan with
  | nil => exact ⟨plan, rfl⟩
  | cons x xs ih =>
    obtain ⟨hfirst, hothers⟩ := List.forall_mem_cons.mp hdeclares
    obtain ⟨hmatches, ⟨m₁, hstep⟩, hnext⟩ := h
    obtain ⟨plan₁, hafter, hloose₁⟩ : ∃ plan₁, plan.after x.1 x.2 m₁ = some plan₁ ∧
        plan₁.isLoose = false := by
      match plan, hloose with
      | .closed _, _ => exact Machine.Idle.exists_after hmatches hfirst hstep
      | .opened true _ _, _ => exact Machine.Drafted.exists_after hmatches hfirst hstep
    have hadvance : plan.advance x = some plan₁ := (advance_of_ok hstep plan).trans hafter
    obtain ⟨plan', hrun⟩ := ih (hnext plan₁ hadvance) hloose₁ hothers
    exact ⟨plan', by rw [run_cons, hadvance]; exact hrun⟩

end Governs

end Plan

/-! ### What happens between actions -/

namespace Machine

variable {m m' : Machine} {plan : Plan} {floor : Nat} {plots : List Plot} {opened : Option Nat}
  {p : Plot}

namespace HasPlots

theorem onData {α : Type} {op : StackM α} (hop : Stack.Replaces op) :
    Keeps (·.HasPlots floor plots opened) (Exec.onData op) :=
  Exec.keeps_onData (fun _ h => h.within.dataStack) (fun _ _ _ h => h.replaceData) hop

theorem compileCell (c : Cell) : Keeps (·.HasPlots floor plots opened) (Exec.compileCell c) := by
  intro m h
  rw [Exec.compileCell_eq h.within.ordered]
  split
  · rename_i hroom
    exact h.append hroom
  · exact h

end HasPlots

theorem Idle.onData {α : Type} {op : StackM α} (hop : Stack.Replaces op) :
    Keeps (·.Idle plots) (Exec.onData op) :=
  Exec.keeps_onData (fun _ h => h.within.dataStack) (fun _ _ _ h => h.replaceData) hop

namespace Matches

theorem deviceFree (plan : Plan) : DeviceFree (·.Matches plan) := by
  match plan with
  | .closed plots => exact Idle.deviceFree plots
  | .opened true p plots => exact Drafted.deviceFree p plots
  | .opened false p plots => exact HasPlots.deviceFree _ _ _

/-- While a definition is a draft, no threaded code runs. -/
theorem ip_eq_zero (h : m.Matches (.opened true p plots)) : m.regs.ip = 0 := by
  obtain ⟨m₀, name, d, -, hip, -, -, h⟩ := h
  exact (congrArg (·.regs.ip) h.rest).trans hip

/-- Unless a definition is a draft, the data stack may change, and so may the pointers. -/
theorem onData {α : Type} {op : StackM α} (hop : Stack.Replaces op)
    (hdraft : ∀ p plots, plan ≠ .opened true p plots) :
    Keeps (·.Matches plan) (Exec.onData op) := by
  match plan, hdraft with
  | .closed plots, _ => exact Idle.onData hop
  | .opened false p plots, _ => exact HasPlots.onData hop
  | .opened true p plots, hdraft => exact absurd rfl (hdraft p plots)

theorem withPointers (h : m.Matches plan) (hdraft : ∀ p plots, plan ≠ .opened true p plots)
    (w ip : Cell) :
    ({ m with regs := { m.regs with w := w, ip := ip } } : Machine).Matches plan := by
  match plan, hdraft with
  | .closed plots, _ => exact { h with toHasPlots := h.toHasPlots.withPointers w ip }
  | .opened false p plots, _ => exact HasPlots.withPointers h w ip
  | .opened true p plots, hdraft => exact absurd rfl (hdraft p plots)

/-- Inside of a definition, cells may be compiled. -/
theorem compileCell {orderly : Bool} (c : Cell) :
    Keeps (·.Matches (.opened orderly p plots)) (Exec.compileCell c) := by
  cases orderly with
  | true => exact Drafted.compileCell c
  | false => exact HasPlots.compileCell c

/-- A number is pushed or compiled, as it should be. -/
theorem enterNumber (c : Cell) : Keeps (·.Matches plan) (Exec.enterNumber c) := by
  intro m h
  rw [Exec.enterNumber, Exec.bind_reg]
  cases plan with
  | closed plots =>
    rw [Idle.isCompiling_eq h]
    exact Idle.onData (Stack.replaces_push c) m h
  | opened orderly p plots =>
    cases orderly with
    | true =>
      rw [Drafted.isCompiling_eq h]
      exact Drafted.compileInteger c m h
    | false =>
      exact Keeps.ite (.bind (HasPlots.compileCell _) fun _ => HasPlots.compileCell c)
        (HasPlots.onData (Stack.replaces_push c)) m h

/-- Where words are compiled, so may be the reference to one. -/
theorem compileReference (h : m.Matches plan) (hmode : m.regs.isCompiling = true) (r : Record) :
    (endState (Exec.compileReference r m)).Matches plan := by
  match plan with
  | .closed plots =>
    rw [Idle.isCompiling_eq h] at hmode
    cases hmode
  | .opened orderly p plots =>
    have hkeeps : Keeps (·.Matches (.opened orderly p plots)) (Exec.compileReference r) :=
      .bind (.observe _) fun _ => .ite (compileCell _) (compileCell _)
    exact hkeeps m h

/-- While a definition is a draft, a word that runs at once leads to its action without further
ado. -/
theorem finalAction_of_find {token : List UInt8} {r : Record} (h : m.Matches (.opened true p plots))
    (hfind : m.find token = .ok (some r)) (himmediate : r.isImmediate = true) :
    ∃ action, Exec.finalAction (UInt16.ofNat r.codeField) m =
      .ok action (m.withW (UInt16.ofNat r.codeField)) := by
  have hplots := h.hasPlots
  rw [hplots.book.presents.find] at hfind
  obtain ⟨e, he, -, link, rfl⟩ := Ledger.exists_of_lookup (Except.ok.inj hfind)
  obtain ⟨q, hq, rfl⟩ := List.mem_map.mp he
  rw [Entry.isImmediate_record] at himmediate
  obtain ⟨action, haction, hne⟩ := hplots.patient q hq himmediate
  rw [Entry.codeField_record (hplots.stands.length_name_le he)]
  refine ⟨action, (bind_of_ok (hplots.resolve_of_mem hq haction)).trans ?_⟩
  show Exec.finalWithin m.dataStack.size action _ = _
  rw [Exec.finalWithin.eq_3 _ _ (fun _ => hne) fun _ _ => hne]
  rfl

/-- What happens on the way to the action of a word does not matter, unless it meddles with a
draft. -/
theorem finalAction {xt : Cell} {action : Action} (h : m.Matches plan)
    (hdraft : ∀ p plots, plan = .opened true p plots →
      ∃ action, Exec.finalAction xt m = .ok action (m.withW xt))
    (hfinal : Exec.finalAction xt m = .ok action m') : m'.Matches plan := by
  by_cases hplan : ∃ p plots, plan = .opened true p plots
  · obtain ⟨p, plots, rfl⟩ := hplan
    obtain ⟨action', hsame⟩ := hdraft p plots rfl
    rw [hfinal] at hsame
    cases hsame
    exact Drafted.withW h xt
  · have hno (p : Plot) (plots : List Plot) : plan ≠ .opened true p plots :=
      fun heq => hplan ⟨p, plots, heq⟩
    have hkeeps := Exec.finalAction_keeps (onData Stack.drops_pop.replaces hno)
      (fun xt m h => h.withPointers hno xt m.regs.ip) xt
    exact hkeeps.of_ok hfinal h

end Matches

/-! ### One step of a run -/

/-- Performing an action accounts for itself. -/
theorem Matches.governs_conclude {action : Action} {c : Continuation} (h : m.Matches plan)
    (hok : Exec.conclude action m = .ok c m') : plan.Governs [(action, m)] m' := by
  have hstep : action.step m = .ok () m' := by
    by_cases hresume : action = .resume
    · subst hresume
      cases hok
      rfl
    · rw [Exec.conclude.eq_2 _ hresume] at hok
      obtain ⟨_, m₁, hstep, hdone⟩ := exists_of_bind_ok hok
      cases hdone
      exact hstep
  refine ⟨h, ⟨m', hstep⟩, fun plan' hplan => ?_⟩
  rw [Plan.advance_of_ok hstep] at hplan
  exact h.step hstep hplan

theorem Matches.governs_execute {xt : Cell} {c : Continuation} (h : m.Matches plan)
    (hdraft : ∀ p plots, plan = .opened true p plots →
      ∃ action, Exec.finalAction xt m = .ok action (m.withW xt))
    (hok : Exec.execute xt m = .ok c m') : plan.Governs (Exec.performed xt m) m' := by
  rw [Exec.execute_eq_finalAction] at hok
  obtain ⟨action, m₁, hfinal, hconclude⟩ := exists_of_bind_ok hok
  rw [Exec.performed, hfinal]
  exact (h.finalAction hdraft hfinal).governs_conclude hconclude

/-! ### Whole runs -/

theorem Matches.governs_runThread {steps : Nat} {u : Unit} (h : m.Matches plan)
    (hok : m.runThread steps = some (.ok u m')) : plan.Governs (m.performedInThread steps) m' := by
  -- Each step goes on from whatever plan the one before has left.
  refine runThread_induction (motive := fun steps m r => ∀ plan : Plan, m.Matches plan →
    r = .ok u m' → plan.Governs (m.performedInThread steps) m') ?_ ?_ ?_ hok plan h rfl
  · rintro steps m hip plan h ⟨⟩
    rw [performedInThread_of_eq_zero hip]
    exact h
  · intro _ _ _ _ _ _ _ _ hr
    cases hr
  · intro steps m m₁ r hip hthread ih plan h hr
    -- The pointer is not at rest, so that no definition is a draft.
    have hno (p : Plot) (plots : List Plot) : plan ≠ .opened true p plots := by
      rintro rfl
      exact hip h.ip_eq_zero
    rw [performedInThread, if_neg hip]
    cases hget : m.memory.get m.regs.ip.toNat with
    | error e =>
      rw [stepThread_of_error hget] at hthread
      cases hthread
    | ok xt =>
      rw [hthread]
      rw [stepThread_of_ok hget] at hthread
      obtain ⟨c, m₂, hexecute, hdone⟩ := exists_of_bind_ok hthread
      cases hdone
      have h₁ := h.withPointers hno m.regs.w (m.regs.ip + 1)
      have hstep := h₁.governs_execute (fun p plots heq => absurd heq (hno p plots)) hexecute
      exact hstep.append fun plan' h' => ih plan' h' hr

theorem Matches.governs_continueWith {steps : Nat} {r : EStateM.Result Fault Machine Continuation}
    {u : Unit} (h : (endState r).Matches plan) (hok : continueWith steps r = some (.ok u m')) :
    plan.Governs (performedBehind steps r) m' := by
  match r with
  | .ok .resume m => exact h.governs_runThread hok
  | .ok .done m =>
    cases hok
    exact h
  | .error e m => cases hok

/-- The action that a token performs before threaded code is run. -/
def performedAtEntry (token : List UInt8) (m : Machine) : List (Action × Machine) :=
  match m.find token with
  | .ok (some r) =>
    if m.regs.isCompiling && !r.isImmediate then [] else Exec.performed (UInt16.ofNat r.codeField) m
  | _ => []

theorem performedByToken_eq (steps : Nat) (token : List UInt8) (m : Machine) :
    m.performedByToken steps token =
      performedAtEntry token { m with token := [] } ++
        performedBehind steps (Exec.enterToken token { m with token := [] }) :=
  rfl

theorem Matches.governs_enterToken {token : List UInt8} {c : Continuation} (h : m.Matches plan)
    (hok : Exec.enterToken token m = .ok c m') : plan.Governs (performedAtEntry token m) m' := by
  unfold performedAtEntry
  obtain ⟨c, hfind, -, hnumber⟩ | ⟨r, hfind, hword⟩ := Exec.enterToken_ok_cases hok
  · rw [hfind]
    exact (Matches.enterNumber c).of_ok hnumber h
  · rw [hfind]
    obtain ⟨hcompiles, -, hcompile⟩ | ⟨hcompiles, -, _, hexecute⟩ := hword
    · simp only [hcompiles, if_true]
      have hkept := h.compileReference (Bool.and_eq_true_iff.mp hcompiles).1 r
      rw [hcompile] at hkept
      exact hkept
    · simp only [hcompiles]
      refine h.governs_execute (fun p plots hplan => ?_) hexecute
      subst hplan
      -- Inside of a draft words are compiled, so that this one runs because it is immediate.
      rw [Drafted.isCompiling_eq h, Bool.true_and] at hcompiles
      exact h.finalAction_of_find hfind (by simpa using hcompiles)

theorem Matches.restoreToken (h : m.Matches plan) (token : List UInt8) :
    (m.restoreToken token).Matches plan := by
  unfold Machine.restoreToken
  split
  · exact Matches.deviceFree plan m m.input m.output token m.journal h
  · exact h

theorem Matches.governs_interpretToken {steps : Nat} {token : List UInt8} {u : Unit}
    (h : m.Matches plan) (hok : m.interpretToken steps token = some (.ok u m')) :
    plan.Governs (m.performedByToken steps token) m' := by
  have h₀ := Matches.deviceFree plan m m.input m.output [] m.journal h
  obtain ⟨next, m₁, m₂, henter, hcontinue, rfl⟩ := exists_of_interpretToken_ok hok
  have hall := (h₀.governs_enterToken henter).append fun plan' h' =>
    Matches.governs_continueWith (r := .ok next m₁) h' hcontinue
  rw [performedByToken_eq, henter]
  exact hall.mono fun plan' h' => h'.restoreToken token

theorem Matches.governs_interpret {steps : Nat} {u : Unit} (h : m.Matches plan)
    (hok : m.interpret steps = some (.ok u m')) : plan.Governs (m.performed steps) m' := by
  have hread {m m₁ : Machine} {plan : Plan} (h : m.Matches plan)
      (hparse : Exec.parseWord m = .ok () m₁) : m₁.Matches plan :=
    (Matches.deviceFree plan).parseWord.of_ok hparse h
  induction steps generalizing m plan with
  | zero =>
    obtain ⟨hparse, -⟩ | ⟨_, _, _, hsteps, -⟩ := interpret_ok_cases hok
    · exact hread h hparse
    · cases hsteps
  | succ steps ih =>
    obtain ⟨hparse, htoken⟩ | ⟨_, m₁, m₂, hsteps, hparse, htoken, hfirst, hrest⟩ :=
      interpret_ok_cases hok
    · rw [performed_of_nil hparse htoken]
      exact hread h hparse
    · cases hsteps
      rw [performed_succ hparse htoken hfirst]
      exact ((hread h hparse).governs_interpretToken hfirst).append fun plan' h' => ih h' hrest

theorem Matches.governs_run {steps : Nat} {u : Unit} (h : m.Matches plan)
    (hpoison : m.poison? = none) (hok : m.run steps = some (.ok u m')) :
    plan.Governs (m.performed steps) m' := by
  simp only [run, hpoison] at hok
  obtain ⟨r, hinterpret, hfinish⟩ := Option.map_eq_some_iff.mp hok
  cases r with
  | error e m₁ =>
    rw [finishRun_error] at hfinish
    cases hfinish
  | ok _ m₁ =>
    rw [finishRun_ok] at hfinish
    split at hfinish
    · cases hfinish
    · cases hfinish
      exact h.governs_interpret hinterpret

/-- An action that does not hand over is performed as it is. -/
theorem Matches.governs_act {action : Action} {c : Continuation} (h : m.Matches plan)
    (hexecute : action ≠ .execute) (hok : Exec.act action m = .ok c m') :
    plan.Governs [(action, m)] m' := by
  refine h.governs_conclude (c := c) ?_
  have hact : Exec.act action m =
      (Exec.finalWithin m.dataStack.size action >>= Exec.conclude) m := by
    rw [← Exec.actWithin_eq]
    exact bind_of_ok (observe_of_ok rfl)
  rw [hact, Exec.finalWithin.eq_3 _ _ (fun _ => hexecute) fun _ _ => hexecute, pure_bind] at hok
  exact hok

end Machine

/-! ### Requests -/

/-- Is it a request to interpret something, to perform an action, or to change input or output? -/
def Request.drives : Request → Bool
  | evaluate _ | run | setText _ | setStream _ | setOutput _ => true
  | act action => action ≠ .execute
  | _ => false

namespace Request

variable {answer : Answer} {m : Machine}

theorem ok_of_ofHost {o : Option (HostResult Unit)} (h : ofHost o = some (.ok answer m)) :
    o = some (.ok () m) := by
  rcases o with _ | ⟨_, _⟩ | ⟨_, _⟩
  · cases h
  · cases h
    rfl
  · cases h

theorem ok_of_ofOutcome {o : Outcome Unit} (h : ofOutcome o = some (.ok answer m)) :
    o = some (.ok () m) := by
  rcases o with _ | ⟨_, _⟩ | ⟨_, _⟩
  · cases h
  · cases h
    rfl
  · cases h

end Request

open Machine in
theorem Machine.Matches.governs_request {m m' : Machine} {plan : Plan} {steps : Nat}
    {request : Request} {answer : Answer} (h : m.Matches plan) (hdrives : request.drives = true)
    (hok : request.perform steps m = some (.ok answer m')) :
    plan.Governs (request.performed steps m) m' := by
  have hdevices := Matches.deviceFree plan
  cases request with
  | evaluate text =>
    have htext : (m.setText text).Matches plan :=
      hdevices m (Source.ofText text) m.output m.token _ h
    rw [Request.perform, Machine.evaluate] at hok
    cases hpoison : m.poison? with
    | some f =>
      rw [hpoison] at hok
      cases hok
    | none =>
      rw [hpoison] at hok
      rw [Request.performed, hpoison]
      exact htext.governs_run hpoison (Request.ok_of_ofHost hok)
  | run =>
    rw [Request.perform] at hok
    cases hpoison : m.poison? with
    | some f =>
      rw [Machine.run, hpoison] at hok
      cases hok
    | none =>
      rw [Request.performed, hpoison]
      exact h.governs_run hpoison (Request.ok_of_ofHost hok)
  | setText text =>
    cases hok
    exact hdevices m (Source.ofText text) m.output m.token _ h
  | setStream deliveries =>
    cases hok
    exact hdevices m _ m.output m.token _ h
  | setOutput sink =>
    cases hok
    exact hdevices m m.input sink m.token _ h
  | act action =>
    have hexecute : action ≠ .execute := of_decide_eq_true hdrives
    have hrun : m.runAction steps action = some (.ok () m') := Request.ok_of_ofOutcome hok
    rw [Request.performed, Exec.finalWithin.eq_3 _ _ (fun _ => hexecute) fun _ _ => hexecute]
    unfold runAction at hrun
    cases hact : Exec.act action m with
    | error e m₁ =>
      rw [hact] at hrun
      cases hrun
    | ok c m₁ =>
      rw [hact] at hrun
      exact (h.governs_act hexecute hact).append fun plan' h' =>
        Matches.governs_continueWith (r := .ok c m₁) h' hrun
  | _ => cases hdrives

/-- The requests are answered one after the other, none is refused, and they perform the actions. -/
inductive Succession : Machine → List (Action × Machine) → Machine → Prop
  /-- Nothing is asked. -/
  | nil (m : Machine) : Succession m [] m
  /-- A request is answered, and the others follow. -/
  | cons {m m₁ m' : Machine} {steps : Nat} {request : Request} {answer : Answer}
    {xs : List (Action × Machine)} (hdrives : request.drives = true)
    (hperform : request.perform steps m = some (.ok answer m₁)) (hrest : Succession m₁ xs m') :
    Succession m (request.performed steps m ++ xs) m'

theorem Succession.governs {m m' : Machine} {xs : List (Action × Machine)} {plan : Plan}
    (h : Succession m xs m') (hm : m.Matches plan) : plan.Governs xs m' := by
  induction h generalizing plan with
  | nil => exact hm
  | cons hdrives hperform _ ih =>
    exact (hm.governs_request hdrives hperform).append fun plan' h' => ih h'

/-! ### New machines -/

/-- The plots of the built-in words, which have no cells but those of their records. -/
def Vocabulary.plots : List Plot :=
  book.ledger.map fun e => ⟨e, 0, .code⟩

/-- Records without anything behind them are plots one behind the other. -/
theorem Ledger.StandsIn.apart {es : Ledger} {memory : Memory} {bound : Nat}
    (h : es.StandsIn memory bound) : Plot.Apart bound (es.map fun e => ⟨e, 0, .code⟩) := by
  induction h with
  | nil => trivial
  | cons _ _ hcode _ _ ih => exact ⟨hcode, ih⟩

/-- The built-in words that run while compiling do not hand over to another word. -/
theorem Vocabulary.patient : ∀ e ∈ book.ledger, e.immediate = true →
    ∃ action, actions[e.code.toNat]? = some action ∧ action ≠ .execute := by
  have hall : ∀ e ∈ book.ledger, e.immediate = true →
      (actions[e.code.toNat]?).any (· ≠ .execute) = true := by decide +kernel
  intro e he himmediate
  obtain ⟨action, haction, hne⟩ := (Option.any_eq_true _ _).mp (hall e he himmediate)
  exact ⟨action, haction, of_decide_eq_true hne⟩

namespace Machine

/-- A new machine has the plots of the built-in words. -/
theorem idle_of_create {config : Config} {input : Source} {output : Sink} {verbosity : Verbosity}
    {m : Machine} (h : create config input output verbosity = .ok m) : m.Idle Vocabulary.plots := by
  have hbook := create_hasBook h
  obtain ⟨layout, -, hnew⟩ := new_of_create h
  have hledger : Plot.ledger Vocabulary.plots = Vocabulary.book.ledger := by
    rw [Plot.ledger, Vocabulary.plots, List.map_map]
    exact List.map_id _
  refine ⟨⟨?_, Nat.le_refl _, hbook.stands.apart, ?_, hnew.table, ?_⟩, ?_, ?_⟩
  · rw [hledger]
    exact hbook
  · intro p hp
    obtain ⟨e, -, rfl⟩ := List.mem_map.mp hp
    trivial
  · intro p hp
    obtain ⟨e, he, rfl⟩ := List.mem_map.mp hp
    exact Vocabulary.patient e he
  · rw [hnew.regs]
    rfl
  · intro p hp hdata
    obtain ⟨e, -, rfl⟩ := List.mem_map.mp (List.mem_of_mem_head? hp)
    cases hdata

end Machine

/-! ### Runs that go through -/

/-- An action that succeeds is a request of its own. -/
theorem Succession.act {m m₁ m' : Machine} {action : Action} {xs : List (Action × Machine)}
    (hexecute : action ≠ .execute) (hresume : action ≠ .resume) (hstep : action.step m = .ok () m₁)
    (hrest : Succession m₁ xs m') : Succession m ((action, m) :: xs) m' := by
  have hperform : (Request.act action).perform 0 m = some (.ok .done m₁) := by
    rw [Request.perform_act hexecute hresume, Request.ofExec, hstep]
  have hlog : (Request.act action).performed 0 m = [(action, m)] := by
    rw [Request.performed, Exec.act_of_step hexecute hresume, bind_of_ok hstep,
      Exec.finalWithin.eq_3 _ _ (fun _ => hexecute) fun _ _ => hexecute]
    rfl
  have hdrives : (Request.act action).drives = true := decide_eq_true hexecute
  have hall := Succession.cons hdrives hperform hrest
  rwa [hlog] at hall

namespace Machine

variable {m m₀ : Machine} {plots : List Plot}

/-- A variable is made if there is a name, and room for its cells. -/
theorem Idle.exists_variable (h : m.Idle plots) {name : List UInt8} {ts : List (List UInt8)}
    (hreads : m.input.Reads (name :: ts)) (hlen : name.length ≤ Record.maxNameLength)
    (hroom : Record.cellsFor name.length + 1 ≤ m.unused) :
    ∃ m', (Action.define .cellVariable).step m = .ok () m' ∧ m'.token = name ∧ m'.input.Reads ts ∧
      m'.regs = { m.regs with here := m'.regs.here, latest := m.regs.here } ∧
      m'.regs.here.toNat = m.regs.here.toNat + Record.cellsFor name.length + 1 ∧
      m'.Idle (⟨.ofFlags m.regs.here.toNat name Runtime.address.opcode 0, 1, .data⟩ :: plots) := by
  obtain ⟨input, hparse, hrest⟩ := Exec.parseName_of_reads hreads
  let m₁ : Machine := { m with token := name, input := input }
  have h₁ : m₁.Idle plots := Idle.deviceFree plots m input m.output name m.journal h
  have hcells : Record.cellsFor name.length ≤ m₁.unused := Nat.le_of_succ_le hroom
  obtain ⟨journal, hcreate⟩ := Exec.createRecord_of_room h₁.within.ordered Runtime.address.opcode 0
    (hreads.ne_nil name List.mem_cons_self) hlen hcells
  let m₂ := m₁.addRecord name Runtime.address.opcode 0 journal
  have h₂ : m₂.Idle _ := (h₁.createRecord hcreate .data rfl).1
  have hhere : m₂.regs.here.toNat = m.regs.here.toNat + Record.cellsFor name.length :=
    toNat_here_addRecord h₁.within Runtime.address.opcode 0 journal hcells
  have hunused : m₂.unused = m.unused - Record.cellsFor name.length := by
    show m.regs.dataBase.toNat - m₂.regs.here.toNat = m.regs.dataBase.toNat - m.regs.here.toNat - _
    omega
  have hone : [(0 : Cell)].length ≤ m₂.unused := by
    rw [hunused, List.length_singleton]
    omega
  have hmade : Exec.create m = .ok () m₂ := (bind_of_ok hparse).trans (bind_of_ok hcreate)
  have hstep : (Action.define .cellVariable).step m = .ok () (m₂.append [0]) :=
    (bind_of_ok hmade).trans (Exec.compileCell_of_room h₂.within.ordered hone)
  refine ⟨_, hstep, rfl, hrest, rfl, ?_, h.step_of_plot rfl hstep⟩
  rw [h₂.within.toNat_here_append hone, hhere, List.length_singleton]

/-- A value is pushed on top of what a definition has on the stack, if there is room for it. -/
theorem WithDefinition.step_value {name : List UInt8} {header : Cell} {code top : List Cell}
    (h : m₀.WithDefinition name header code top m) (c : Cell)
    (hroom : top.length + 1 ≤ m₀.dataStack.room) :
    (Action.value c).step m = .ok () (m.replaceData 0 [c]) ∧
      m₀.WithDefinition name header code (c :: top) (m.replaceData 0 [c]) := by
  have hfits : m.dataStack.Fits 0 [c] := (h.fits_iff (Nat.zero_le _)).mpr (by
    rw [List.length_singleton, Nat.zero_add]
    exact hroom)
  have hpos : 0 < m.dataStack.room := Nat.lt_of_lt_of_eq hfits.2 (Nat.zero_add _)
  refine ⟨Exec.onData_of_ok ?_, h.replaceData (Nat.zero_le _) hfits⟩
  rw [h.grown.after.dataStack.push_eq, if_pos hpos]

end Machine

/-- A new machine of the usual size makes the variable `x`, with room to spare and a name still to
be read. -/
theorem Succession.exists_variable :
    ∃ m₀ m₁ m : Machine, Machine.create {} Source.empty {} .off = .ok m₀ ∧
      (∀ xs m', Succession m xs m' → Succession m₀ ((.define .cellVariable, m₁) :: xs) m') ∧
      (Plan.closed Vocabulary.plots).advance (.define .cellVariable, m₁) = some (.closed
        (⟨.ofFlags 777 (Text.bytes "x") Runtime.address.opcode 0, 1, .data⟩ :: Vocabulary.plots)) ∧
      m.Idle (⟨.ofFlags 777 (Text.bytes "x") Runtime.address.opcode 0, 1, .data⟩ ::
        Vocabulary.plots) ∧
      m.regs.ip = 0 ∧ m.regs.here.toNat = 782 ∧ m.input.Reads [Text.bytes "f"] ∧ 30000 < m.unused ∧
      64 ≤ m.dataStack.room := by
  obtain ⟨m₀, hcreate, hnew, hhere, -, -, hcells, hroom⟩ :=
    Machine.create_default Source.empty {} .off
  -- The second name is for a definition that follows.
  let m₁ := m₀.setText "x f"
  have hreads : m₁.input.Reads [Text.bytes "x", Text.bytes "f"] :=
    ⟨⟨_, rfl, by decide +kernel⟩, by decide +kernel⟩
  have hx : Record.cellsFor (Text.bytes "x").length = 4 := by decide +kernel
  have hstart : m₁.regs.here.toNat = 777 := congrArg UInt16.toNat hhere
  have h₁ : m₁.Idle Vocabulary.plots :=
    Machine.Idle.deviceFree _ m₀ _ m₀.output m₀.token _ (Machine.idle_of_create hcreate)
  obtain ⟨m, hvariable, htoken, hrest, hregs, hhere', h⟩ := h₁.exists_variable hreads
    (by decide +kernel) (hx ▸ show 4 + 1 ≤ m₀.unused by omega)
  rw [hstart] at hhere' h
  rw [hx] at hhere'
  have hadvance : (Plan.closed Vocabulary.plots).advance (.define .cellVariable, m₁) = some (.closed
      (⟨.ofFlags m₁.regs.here.toNat m.token Runtime.address.opcode 0, 1, .data⟩ ::
        Vocabulary.plots)) :=
    Plan.advance_of_ok hvariable _
  rw [hstart, htoken] at hadvance
  refine ⟨m₀, m₁, m, hcreate, fun xs m' hxs => ?_, hadvance, h, ?_, hhere', hrest, ?_, ?_⟩
  · have hset : (Request.setText "x f").perform 0 m₀ = some (.ok .done m₁) := rfl
    exact .cons rfl hset (.act (by simp) (by simp) hvariable hxs)
  · rw [hregs]
    show m₀.regs.ip = 0
    rw [hnew.regs]
    rfl
  · have hunused : m.unused = m₀.regs.dataBase.toNat - m.regs.here.toNat := by
      rw [Machine.unused, hregs]
      rfl
    have hfirst : m₀.unused = m₀.regs.dataBase.toNat - m₀.regs.here.toNat := rfl
    have hend : m₀.regs.here.toNat = 777 := hstart
    omega
  · have hsame : m.dataStack.room = m₀.dataStack.room := by
      rw [Stack.room, Stack.capacity, Stack.size, Machine.dataStack, hregs]
      rfl
    rw [hsame]
    exact hroom

/-- The definition of an endless loop goes through, if there is a name, and room for its cells and
for the entries of the definition and the loop. -/
theorem Machine.Idle.exists_loop {m : Machine} {plots : List Plot} (h : m.Idle plots)
    (hip : m.regs.ip = 0) {name : List UInt8} {ts : List (List UInt8)}
    (hreads : m.input.Reads (name :: ts)) (hlen : name.length ≤ Record.maxNameLength)
    (hcells : Record.cellsFor name.length + 3 ≤ m.unused) (hitems : 4 ≤ m.dataStack.room) :
    ∃ (p : Plot) (input : Source) (header : Cell) (code : List Cell) (m' : Machine)
      (xs : List (Action × Machine)),
      (∀ ys m'', Succession m' ys m'' → Succession m (xs ++ ys) m'') ∧
      (∀ ys, Plan.run (.closed plots) (xs ++ ys) = Plan.run (.closed (p :: plots)) ys) ∧
      xs.map Prod.fst =
        [.define .colon, .control .openBegin, .control .closeAgain, .define .semicolon] ∧
      ({ m with token := name, input := input } : Machine).WithDefinition name header code
        [] m' := by
  have hdefining : m.regs.defining = 0 := Cell.eq_of_toNat_eq h.book.defining_eq
  obtain ⟨input, m₁, hbeginDefinition, h₁, -⟩ := Exec.beginDefinition_of_room h.within h.mode_eq
    hdefining hreads hlen (by omega) (by omega)
  -- The two words of the loop are run on the draft first, and the machine follows.
  let l := ({ m with token := name, input := input } : Machine).limits name
  have hroom : l.items = m.dataStack.room - 2 := rfl
  have hlimit : l.cells = m.unused - Record.cellsFor name.length := rfl
  have hbegin : ControlWord.openBegin.draft l .empty = .ok () ⟨[], [(.destination, 0)]⟩ :=
    if_pos (by rw [hroom]; show 2 * 0 + 2 ≤ _; omega)
  have hemit (c : Cell) (code : List Cell) (hcode : code.length < 3) :
      Draft.emit l c ⟨code, []⟩ = .ok () ⟨code ++ [c], []⟩ :=
    if_pos (by rw [hlimit]; show code.length < _; omega)
  have hagain : ControlWord.closeAgain.draft l ⟨[], [(.destination, 0)]⟩ =
      .ok () ⟨[Runtime.branch.opcode, Draft.offset 1 0], []⟩ :=
    (bind_of_ok (hemit Runtime.branch.opcode [] (by decide))).trans
      (hemit (Draft.offset 1 0) [Runtime.branch.opcode] (by decide))
  obtain ⟨_, m₂, hopenBegin, -, h₂⟩ := (drafts_perform .openBegin m₁ .empty h₁).of_eq_ok hbegin
  obtain ⟨_, m₃, hcloseAgain, -, h₃⟩ := (drafts_perform .closeAgain m₂ _ h₂).of_eq_ok hagain
  obtain ⟨m₄, hendDefinition, h₄, -⟩ := Exec.endDefinition_of_nil h₃ hlen
    (show 2 < l.cells by rw [hlimit]; omega)
  have hcolon : (Action.define .colon).step m = .ok () m₁ := hbeginDefinition
  have hopened : (Action.control .openBegin).step m₁ = .ok () m₂ := hopenBegin
  have hclosed : (Action.control .closeAgain).step m₂ = .ok () m₃ := hcloseAgain
  have hsemicolon : (Action.define .semicolon).step m₃ = .ok () m₄ := hendDefinition
  refine ⟨(Plot.opening m.regs.here.toNat m₁.token).completed m₄.regs.here.toNat, input, _, _, m₄,
    [(.define .colon, m), (.control .openBegin, m₁), (.control .closeAgain, m₂),
      (.define .semicolon, m₃)],
    fun ys m'' hys => ?_, fun ys => ?_, rfl, h₄⟩
  · exact .act (by simp) (by simp) hcolon (.act (by simp) (by simp) hopened
      (.act (by simp) (by simp) hclosed (.act (by simp) (by simp) hsemicolon hys)))
  · have hbuild (word : ControlWord) (p : Plot) (m m' : Machine) :
        (Plan.opened true p plots).after (.control word) m m' = some (.opened true p plots) :=
      Plan.after_of_builds rfl
    simp only [List.cons_append, List.nil_append, Plan.run_cons, Option.bind_some,
      Plan.advance_of_ok hcolon, Plan.after_colon hip, Plan.advance_of_ok hopened,
      Plan.advance_of_ok hclosed, hbuild, Plan.advance_of_ok hsemicolon, Plan.after_semicolon]

/-- **Declarations keep out of each other's way.** Let requests be answered one after the other by a
new machine, none of them with a fault, and let no definition be open in the end. The rules always
have a plan for the words that declarations are written with. Wherever they have one, every word is
found as its plot says, no two plots share a cell, words for data push the address of their own
cells, and constants push their own values. A word that stores into one cell of data changes what is
read back from that cell, as it should, and from no other; no name means anything else after that,
and no plot has changed. -/
theorem Succession.declarations_apart {config : Config} {input : Source} {output : Sink}
    {verbosity : Verbosity} {m₀ m : Machine} {xs : List (Action × Machine)}
    (hcreate : Machine.create config input output verbosity = .ok m₀) (h : Succession m₀ xs m) :
    ((∀ x ∈ xs, x.1.declares x.2 = true) → m.regs.defining = 0 →
      ∃ plots, Plan.run (.closed Vocabulary.plots) xs = some (.closed plots)) ∧
    ∀ plots, Plan.run (.closed Vocabulary.plots) xs = some (.closed plots) →
      m.Separated plots ∧
      ∀ p ∈ plots, p.content = .data → ∀ (word : StorageWord) (f : Cell → Cell → Cell),
        word.stored? = some f → ∀ address x rest, m.dataStack.items = address :: x :: rest →
        p.body ≤ address.toNat → address.toNat < p.stop →
        ∃ c m', m.memory.get address.toNat = .ok c ∧ (Action.storage word).step m = .ok () m' ∧
          m'.memory.get address.toNat = .ok (f c x) ∧
          (∀ pos, pos ≠ address.toNat → m'.memory.get pos = m.memory.get pos) ∧
          m'.Separated plots ∧ ∀ name, m'.find name = m.find name := by
  have hgoverns : (Plan.closed Vocabulary.plots).Governs xs m :=
    h.governs (Machine.idle_of_create hcreate)
  refine ⟨fun hdeclares hdefining => ?_, fun plots hrun => ?_⟩
  · obtain ⟨plan, hrun⟩ := hgoverns.exists_run rfl hdeclares
    obtain ⟨plots, rfl⟩ := (hgoverns.matches_of_run hrun).exists_closed hdefining
    exact ⟨plots, hrun⟩
  have hidle : m.Idle plots := hgoverns.matches_of_run hrun
  refine ⟨hidle.toHasPlots.separated, ?_⟩
  intro p hp hdata word f hword address x rest hitems hbody hstop
  obtain ⟨c, m', hget, hstep, hstored, hothers, hplots⟩ :=
    hidle.toHasPlots.step_of_stored hp hdata hword hitems hbody hstop
  refine ⟨c, m', hget, hstep, hstored, hothers, hplots.separated, fun name => ?_⟩
  rw [hplots.book.presents.find, hidle.book.presents.find]

/-- A variable and a definition with a loop in it are apart, and storing into the variable is
possible. -/
theorem Succession.declarations_apart_of_variable_and_loop :
    ∃ (m₀ m : Machine) (xs : List (Action × Machine)) (plots : List Plot),
      Machine.create {} Source.empty {} .off = .ok m₀ ∧ Succession m₀ xs m ∧
      xs.map Prod.fst = [.define .cellVariable, .define .colon, .control .openBegin,
        .control .closeAgain, .define .semicolon, .value 5, .value 781] ∧
      Plan.run (.closed Vocabulary.plots) xs = some (.closed plots) ∧ m.Separated plots ∧
      ∃ m', (Action.storage .store).step m = .ok () m' ∧ m'.memory.get 781 = .ok 5 ∧
        (∀ pos, pos ≠ 781 → m'.memory.get pos = m.memory.get pos) ∧ m'.Separated plots := by
  obtain ⟨m₀, m₁, m₂, hcreate, hstart, hadvance, h₂, hip, hhere, hreads, hcells, hroom⟩ :=
    Succession.exists_variable
  have hname : Record.cellsFor (Text.bytes "f").length = 4 := by decide +kernel
  obtain ⟨f, input, header, code, m₃, xs, hloop, hplan, hxs, h₃⟩ :=
    h₂.exists_loop hip hreads (by decide +kernel) (by omega) (by omega)
  obtain ⟨hvalue, h₄⟩ := h₃.step_value 5 (show 0 + 1 ≤ m₂.dataStack.room by omega)
  obtain ⟨haddress, h₅⟩ := h₄.step_value 781 (show 1 + 1 ≤ m₂.dataStack.room by omega)
  have hsuccession := hstart _ _ (hloop _ _ (.act (by simp) (by simp) hvalue
    (.act (by simp) (by simp) haddress (.nil _))))
  let x : Plot := ⟨.ofFlags 777 (Text.bytes "x") Runtime.address.opcode 0, 1, .data⟩
  have hrun : Plan.run (.closed Vocabulary.plots) ((.define .cellVariable, m₁) ::
      (xs ++ [(.value 5, m₃), (.value 781, m₃.replaceData 0 [5])])) =
      some (.closed (f :: x :: Vocabulary.plots)) := by
    rw [Plan.run_cons, hadvance, Option.bind_some, hplan, Plan.run_cons, Plan.advance_of_ok hvalue,
      Plan.after_value, Option.bind_some, Plan.run_cons, Plan.advance_of_ok haddress,
      Plan.after_value]
    rfl
  obtain ⟨hseparated, hstores⟩ := (Succession.declarations_apart hcreate hsuccession).2 _ hrun
  obtain ⟨-, m', -, hstep, hget, hothers, hafter, -⟩ := hstores x
    (List.mem_cons_of_mem _ List.mem_cons_self) rfl .store _ rfl 781 5 _ h₅.items
    (by decide +kernel) (by decide +kernel)
  refine ⟨m₀, _, _, _, hcreate, hsuccession, ?_, hrun, hseparated, m', hstep, hget, hothers, hafter⟩
  rw [List.map_cons, List.map_append, hxs]
  rfl

/-! ### Why there are rules -/

/-- Below a definition, a row of cells may be written over in both machines. -/
theorem Machine.WithDefinition.overwrite {m₀ m : Machine} {name : List UInt8} {header : Cell}
    {code top : List Cell} (h : m₀.WithDefinition name header code top m) {pos : Nat}
    {cs : List Cell} (hend : pos + cs.length ≤ m₀.regs.here.toNat) :
    ({ m₀ with memory := m₀.memory.overlay pos cs } : Machine).WithDefinition name header code top
      { m with memory := m.memory.overlay pos cs } := by
  have hsize : m.memory.size = m₀.memory.size := by
    rw [← h.grown.after.returnLimit_eq, ← h.grown.before.returnLimit_eq]
    exact congrArg (·.regs.returnLimit.toNat) h.rest
  have hbefore := h.grown.before.here_le_dataBase
  -- The row ends below the definition, so that all of the definition stays what it is.
  have hcells (i : Nat) (hle : m₀.regs.here.toNat ≤ i) :
      (m.memory.overlay pos cs).cells[i]? = m.memory.cells[i]? :=
    Memory.cells_overlay_of_le (by omega)
  have hwithin {m : Machine} (hm : m.WithinRegions) :
      ({ m with memory := m.memory.overlay pos cs } : Machine).WithinRegions :=
    (Bounded.withMemory (g := m.regions) ⟨hm, rfl⟩ (Memory.size_overlay ..)).1
  have hagree : Memory.AgreeBelow m₀.regs.here.toNat (m.memory.overlay pos cs)
      (m₀.memory.overlay pos cs) := by
    intro i hi
    rw [Memory.cells_overlay, Memory.cells_overlay, hsize, h.grown.agree i hi]
  exact
    { grown :=
        { h.grown with
          before := hwithin h.grown.before
          after := hwithin h.grown.after
          agree := hagree
          holds := h.grown.holds.congr fun i hle _ => hcells i hle }
      here := h.here
      code := h.code.congr fun i hle _ => hcells i (Nat.le_trans (Nat.le_add_right _ _) hle)
      items := by
        have hbase : m.regs.dataBase = m₀.regs.dataBase := h.dataBase_eq
        have hlow : pos + cs.length ≤ m₀.regs.dataBase.toNat := by omega
        rw [items_overlay_of_le (hbase ▸ hlow), items_overlay_of_le hlow]
        exact h.items
      rest := congrArg
        (fun m : Machine => { m with memory := m.memory.overlay pos cs }) h.rest }

namespace Machine

variable {m₀ m : Machine} {name : List UInt8} {header : Cell} {code top : List Cell}

/-- A store may write below a definition. -/
theorem WithDefinition.exists_store {address x : Cell}
    (h : m₀.WithDefinition name header code (address :: x :: top) m)
    (hend : address.toNat + 1 ≤ m₀.regs.here.toNat) :
    ∃ m', (Action.storage .store).step m = .ok () m' ∧
      ({ m₀ with memory := m₀.memory.overlay address.toNat [x] } : Machine).WithDefinition name
        header code top m' ∧
      m'.regs.mode = m.regs.mode ∧ m'.regs.defining = m.regs.defining := by
  have hlt : address.toNat < m.memory.size := by
    have hle := h.grown.before.here_le_dataBase
    have hsize := h.grown.after.dataBase_le_size
    rw [h.dataBase_eq] at hsize
    omega
  obtain ⟨c, -, hcell⟩ := Memory.get_eq_ok_of_lt hlt
  have hstore := StorageWord.step_of_stored (f := fun _ x => x) h.grown.after.ordered
    (show StorageWord.store.stored? = _ from rfl) h.items hcell
  have hwritten := h.overwrite (show address.toNat + [x].length ≤ _ from hend)
  have htwo : 2 ≤ (address :: x :: top).length := Nat.le_add_left _ _
  exact ⟨_, hstore, hwritten.replaceData htwo (hwritten.fits_nil htwo), rfl, rfl⟩

/-- In brackets, a definition that is being compiled can write below itself. -/
theorem Drafting.exists_store {d : Draft} (h : m₀.Drafting name d m) (x address : Cell)
    (hend : address.toNat + 1 ≤ m₀.regs.here.toNat)
    (hroom : 2 * d.pending.length + 4 ≤ m₀.dataStack.room) :
    ∃ (m' : Machine) (xs : List (Action × Machine)),
      (∀ ys m'', Succession m' ys m'' → Succession m (xs ++ ys) m'') ∧
      xs.map Prod.fst = [.define .leftBracket, .value x, .value address, .storage .store,
        .define .rightBracket] ∧
      ({ m₀ with memory := m₀.memory.overlay address.toNat [x] } : Machine).Drafting name d m' := by
  have hlength :
      (d.entries (m₀.codeStart name) ++ [ControlTag.definition.cell, m₀.regs.here]).length =
      2 * d.pending.length + 2 := by
    rw [List.length_append, d.length_entries]
    rfl
  -- Between the brackets the store is run. Outside of them it would be compiled.
  let m₁ : Machine := { m with regs := { m.regs with mode := .interpret } }
  have hleft : (Action.define .leftBracket).step m = .ok () m₁ :=
    bind_of_ok (observe_of_ok (demand_of_pos (by simp [Registers.isCompiling, h.mode_eq])))
  have h₁ := h.settle .interpret m.regs.defining m.journal
  obtain ⟨hvalue, h₂⟩ := h₁.step_value x (by omega)
  obtain ⟨haddress, h₃⟩ := h₂.step_value address (by
    rw [List.length_cons]
    omega)
  obtain ⟨m₄, hstore, h₄, hmode, hdefining⟩ := h₃.exists_store hend
  have hinterpret : m₄.regs.mode = .interpret := hmode
  let m₅ : Machine := { m₄ with regs := { m₄.regs with mode := .compile } }
  have hright : (Action.define .rightBracket).step m₄ = .ok () m₅ :=
    bind_of_ok (observe_of_ok (demand_of_pos (by simp [Registers.isCompiling, hinterpret])))
  refine ⟨m₅, [(.define .leftBracket, m), (.value x, m₁), (.value address, m₁.replaceData 0 [x]),
      (.storage .store, (m₁.replaceData 0 [x]).replaceData 0 [address]),
      (.define .rightBracket, m₄)],
    fun ys m' hys => ?_, rfl, h₄.settle .compile m₄.regs.defining m₄.journal, rfl,
    hdefining.trans h.defining_eq, h.places⟩
  exact .act (by simp) (by simp) hleft (.act (by simp) (by simp) hvalue
    (.act (by simp) (by simp) haddress (.act (by simp) (by simp) hstore
      (.act (by simp) (by simp) hright hys))))

end Machine

/-- A definition can break a variable. While the one here is being compiled, the code field of the
variable is written over. Before that, the word of the variable pushes its address, and when the
definition is complete it does nothing. -/
theorem Succession.exists_overwritten_variable :
    ∃ (m₀ m₁ m₂ m : Machine) (xs : List (Action × Machine)),
      Machine.create {} Source.empty {} .off = .ok m₀ ∧
      Succession m₀ [(.define .cellVariable, m₁)] m₂ ∧
      Exec.execute 780 m₂ = (Exec.push 781 >>= fun _ => pure .done) (m₂.withW 780) ∧
      Succession m₂ xs m ∧
      xs.map Prod.fst = [.define .colon, .define .leftBracket, .value 68, .value 780,
        .storage .store, .define .rightBracket, .define .semicolon] ∧
      m.regs.mode = .interpret ∧ m.regs.defining = 0 ∧
      Exec.execute 780 m = .ok .done (m.withW 780) := by
  obtain ⟨m₀, m₁, m₂, hcreate, hstart, -, h₂, -, hhere, hreads, hcells, hroom⟩ :=
    Succession.exists_variable
  have hf : Record.cellsFor (Text.bytes "f").length = 4 := by decide +kernel
  have hdefining : m₂.regs.defining = 0 := Cell.eq_of_toNat_eq h₂.book.defining_eq
  obtain ⟨input, m₃, hbeginDefinition, h₃, -⟩ := Exec.beginDefinition_of_room h₂.within h₂.mode_eq
    hdefining hreads (by decide +kernel) (by omega) (by omega)
  have hcolon : (Action.define .colon).step m₂ = .ok () m₃ := hbeginDefinition
  obtain ⟨m₄, xs, hbrackets, hxs, h₄⟩ := h₃.exists_store 68 780
    (show 780 + 1 ≤ m₂.regs.here.toNat by omega) (show 2 * 0 + 4 ≤ m₂.dataStack.room by omega)
  obtain ⟨m, hendDefinition, h, hmode, hdefining'⟩ :=
    Exec.endDefinition_of_nil h₄ (by decide +kernel)
      (show 0 < m₂.unused - Record.cellsFor (Text.bytes "f").length by omega)
  have hsemicolon : (Action.define .semicolon).step m₄ = .ok () m := hendDefinition
  have hbefore : Exec.execute 780 m₂ = (Exec.push 781 >>= fun _ => pure .done) (m₂.withW 780) :=
    h₂.toHasPlots.separated.execute_data _ List.mem_cons_self rfl
  -- The record of the variable is at 777, so that its code field is at 780. Opcode 68 does nothing.
  have hcell : m.memory.get 780 = .ok 68 := by
    have hsize := h₂.within.dataBase_le_size
    have hbase := h₂.within.here_le_dataBase
    refine Memory.get_of_some
      ((h.grown.agree 780 (show 780 < m₂.regs.here.toNat by omega)).trans ?_)
    exact (Memory.cells_overlay m₂.memory 780 [68] 780).trans
      (if_pos ⟨Nat.le_refl _, Nat.lt_succ_self _, by omega⟩)
  have htable : m.table = m₂.table := congrArg (·.table) h.rest
  have hresolve : Exec.resolve 780 m = .ok .noop (m.withW 780) := by
    refine Exec.resolve_of_address (Nat.le_trans h.grown.after.table_le (by decide)) hcell ?_
    rw [htable, ← Array.getElem?_toList, h₂.table_eq]
    decide +kernel
  have hafter : Exec.execute 780 m = .ok .done (m.withW 780) :=
    (bind_of_ok hresolve).trans (Exec.act_of_step (by simp) (by simp))
  refine ⟨m₀, m₁, m₂, m, (.define .colon, m₂) :: (xs ++ [(.define .semicolon, m₄)]), hcreate,
    hstart _ _ (.nil _), hbefore, ?_, ?_, hmode, hdefining', hafter⟩
  · exact .act (by simp) (by simp) hcolon
      (hbrackets _ _ (.act (by simp) (by simp) hsemicolon (.nil _)))
  · rw [List.map_cons, List.map_append, hxs]
    rfl

end CellForth
