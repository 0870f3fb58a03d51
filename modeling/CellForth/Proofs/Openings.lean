import CellForth.Proofs.Phases
import CellForth.Proofs.Startup
import CellForth.Proofs.Verbosity

/-!
# At most one open definition

A run performs actions one after the other, and the log of a run lists them, each with the machine
at which it was performed. Two of them are milestones: the word that opens a definition, if it
succeeds, and the word that completes one. Replaying the milestones of a log gives the record that
should be open at any point, and the register for it always holds just that (`Logged.defining_eq`):
it is not zero exactly between the opening of a definition and its completion, and no definition is
opened while another one is open.

The log is that of the two interpreters and of all other requests, and the last request may still be
running, so that runs without end are covered as far as they have come. Each step of a run accounts
for its part of the log (`Machine.Accounts`), and the parts are put together along the run.
-/

namespace CellForth

/-! ### Milestones -/

/-- What happens to definitions. -/
inductive Milestone where
  /-- The definition of a record was opened. -/
  | opened (record : Cell)
  /-- The open definition was completed. -/
  | completed
  deriving DecidableEq

namespace Milestone

/-- What it means for definitions that an action has succeeded and has led to the given machine. -/
def ofAction? (m : Machine) : Action → Option Milestone
  | .define .colon => some (.opened m.regs.latest)
  | .define .semicolon => some .completed
  | _ => none

/-- What it means for definitions that an action is performed at a machine. -/
def of? (p : Action × Machine) : Option Milestone :=
  match p.1.step p.2 with
  | .ok _ m => ofAction? m p.1
  | .error _ _ => none

/-- The record that is open behind a milestone, or zero. -/
def record : Milestone → Cell
  | opened record => record
  | completed => 0

/-- The record that is open behind an action, if it was the given one before. -/
def next (defining : Cell) (p : Action × Machine) : Cell :=
  ((of? p).map record).getD defining

/-- The record that is open behind a row of actions, if it was the given one before. -/
def replay (defining : Cell) (ps : List (Action × Machine)) : Cell :=
  ps.foldl next defining

/-- A definition is opened only if none is open, and then its record is not zero; one is completed
only if it is open. -/
def Fits (defining : Cell) : Option Milestone → Prop
  | some (opened record) => defining = 0 ∧ record ≠ 0
  | some completed => defining ≠ 0
  | none => True

/-- At every action the register holds the record that should be open, and the action fits in. -/
def Attested (defining : Cell) : List (Action × Machine) → Prop
  | [] => True
  | p :: ps => p.2.regs.defining = defining ∧ Fits defining (of? p) ∧ Attested (next defining p) ps

theorem attested_append {defining : Cell} {ps qs : List (Action × Machine)}
    (hps : Attested defining ps) (hqs : Attested (replay defining ps) qs) :
    Attested defining (ps ++ qs) := by
  induction ps generalizing defining with
  | nil => exact hqs
  | cons p ps ih => exact ⟨hps.1, hps.2.1, ih hps.2.2 hqs⟩

theorem Attested.at {defining : Cell} {before after : List (Action × Machine)}
    {p : Action × Machine} (h : Attested defining (before ++ p :: after)) :
    p.2.regs.defining = replay defining before ∧ Fits (replay defining before) (of? p) := by
  induction before generalizing defining with
  | nil => exact ⟨h.1, h.2.1⟩
  | cons q before ih => exact ih h.2.2

end Milestone

open Milestone

/-! ### Accounting for a run -/

namespace Machine

/-- The log accounts for how the machine comes to its end, if it does. -/
structure Accounts (m : Machine) (ps : List (Action × Machine)) (o : Option Machine) : Prop where
  /-- At every action the register holds the record that should be open. -/
  attested : Attested m.regs.defining ps
  /-- So it does in the end. -/
  defining : ∀ m' ∈ o, m'.regs.defining = replay m.regs.defining ps

namespace Accounts

variable {m m₁ m' : Machine} {ps qs : List (Action × Machine)} {o : Option Machine}

/-- Where no action is performed, the register stays the same. -/
theorem nil (h : ∀ m' ∈ o, m'.regs.defining = m.regs.defining) : m.Accounts [] o :=
  ⟨trivial, h⟩

theorem append (h : m.Accounts ps (some m₁)) (h' : m₁.Accounts qs o) : m.Accounts (ps ++ qs) o := by
  have hmiddle : m₁.regs.defining = replay m.regs.defining ps := h.defining m₁ rfl
  refine ⟨attested_append h.attested (hmiddle ▸ h'.attested), fun m' hm' => ?_⟩
  rw [h'.defining m' hm', hmiddle, replay, replay, replay, List.foldl_append]

/-- Where the register stays the same, the account goes on. -/
theorem congr_left (h : m.Accounts ps o) (hm : m₁.regs.defining = m.regs.defining) :
    m₁.Accounts ps o :=
  ⟨hm ▸ h.attested, hm ▸ h.defining⟩

/-- Whatever comes behind the end does not matter if it leaves the register alone. -/
theorem congr_right {o' : Option Machine} (h : m.Accounts ps o)
    (ho : ∀ m' ∈ o', ∃ m₁ ∈ o, m'.regs.defining = m₁.regs.defining) : m.Accounts ps o' := by
  refine ⟨h.attested, fun m' hm' => ?_⟩
  obtain ⟨m₁, hm₁, hsame⟩ := ho m' hm'
  exact hsame.trans (h.defining m₁ hm₁)

end Accounts

/-- The machine is within its regions, and its journal is quiet. -/
def Sound (m : Machine) : Prop :=
  m.WithinRegions ∧ m.Quiet

namespace Sound

variable {m : Machine}

theorem parseWord : Keeps Sound Exec.parseWord :=
  Elementary.withinRegions.lasting.parseWord.and Quiet.lasting.parseWord

theorem execute (xt : Cell) : Keeps Sound (Exec.execute xt) :=
  (Elementary.withinRegions.lasting.execute xt).and (Quiet.lasting.execute xt)

theorem act (action : Action) : Keeps Sound (Exec.act action) :=
  (Elementary.withinRegions.lasting.act action).and (Quiet.lasting.act action)

theorem stepThread : Keeps Sound Machine.stepThread :=
  Elementary.withinRegions.lasting.stepThread.and Quiet.lasting.stepThread

theorem enterToken (token : List UInt8) : Keeps Sound (Exec.enterToken token) :=
  (Elementary.withinRegions.lasting.enterToken token).and (Quiet.lasting.enterToken token)

theorem interpretToken {steps : Nat} {token : List UInt8} {r : EStateM.Result Fault Machine Unit}
    (h : m.Sound) (hr : m.interpretToken steps token = some r) : (endState r).Sound :=
  ⟨Elementary.withinRegions.lasting.interpretToken h.1 hr, Quiet.lasting.interpretToken h.2 hr⟩

/-- So it is wherever a token has led to. -/
theorem of_steady {α : Type} {op : Exec α}
    (hop : ∀ {K : {α : Type} → Exec α → Prop}, Steady K → K op) : Keeps Sound op :=
  (hop Elementary.withinRegions.hereditary.toSteady).and (hop Quiet.lasting.hereditary.toSteady)

end Sound

/-! ### One step of a run -/

variable {m : Machine}

/-- A word that moves the compiler as the table says moves the register with the milestones. -/
theorem fits_of_shift {m' : Machine} {action : Action}
    (hshift : action.shift m'.regs.latest m.phase = some m'.phase)
    (hrecord : action = .define .colon → m'.regs.latest ≠ 0) :
    Fits m.regs.defining (ofAction? m' action) ∧
      m'.regs.defining = ((ofAction? m' action).map Milestone.record).getD m.regs.defining := by
  have hsome {c : Prop} [Decidable c] {p q : Phase} (h : (if c then some p else none) = some q) :
      c ∧ q = p := by
    split at h
    · exact ⟨‹c›, (Option.some.inj h).symm⟩
    · cases h
  have hstays (h : some m.phase = some m'.phase) : m'.regs.defining = m.regs.defining :=
    congrArg Phase.defining (Option.some.inj h).symm
  cases action with
  | define word =>
    cases word with
    | colon =>
      obtain ⟨⟨-, hzero⟩, hphase⟩ := hsome hshift
      exact ⟨⟨hzero, hrecord rfl⟩, congrArg Phase.defining hphase⟩
    | semicolon =>
      obtain ⟨⟨-, hne⟩, hphase⟩ := hsome hshift
      exact ⟨hne, congrArg Phase.defining hphase⟩
    | leftBracket => exact ⟨trivial, congrArg Phase.defining (hsome hshift).2⟩
    | rightBracket => exact ⟨trivial, congrArg Phase.defining (hsome hshift).2⟩
    | _ => exact ⟨trivial, hstays hshift⟩
  | _ => exact ⟨trivial, hstays hshift⟩

/-- The register moves with the milestones. -/
theorem Sound.next_eq (h : m.Sound) (action : Action) :
    Fits m.regs.defining (of? (action, m)) ∧
      (endState (action.step m)).regs.defining = next m.regs.defining (action, m) := by
  have hphase := action.step_phase h.2
  unfold next of?
  dsimp only
  cases hstep : action.step m with
  | error e m' =>
    rw [hstep] at hphase
    exact ⟨trivial, congrArg Phase.defining hphase.phase⟩
  | ok _ m' =>
    rw [hstep] at hphase
    obtain ⟨hshift, -, hlatest⟩ := hphase
    refine fits_of_shift hshift fun hcolon hzero => ?_
    -- A new record stands behind the reserved cells, so its address is not that of no record.
    have hstart := h.1.start_le_here
    rw [← hlatest hcolon, hzero] at hstart
    exact absurd hstart (by decide)

theorem Sound.accounts_conclude (h : m.Sound) (action : Action) :
    m.Accounts [(action, m)] (some (endState (Exec.conclude action m))) := by
  obtain ⟨hfits, hnext⟩ := h.next_eq action
  have hend : endState (Exec.conclude action m) = endState (action.step m) := by
    by_cases hresume : action = .resume
    · subst hresume
      rfl
    · rw [Exec.conclude.eq_2 _ hresume, endState_bind_pure]
  refine ⟨⟨rfl, hfits, trivial⟩, fun m' hm' => ?_⟩
  cases hm'
  rw [hend]
  exact hnext

/-- Finding an action and performing it is accounted for by that action. -/
theorem Sound.accounts_bind_conclude {find : Exec Action} (h : m.Sound)
    (hfind : ∀ {K : {α : Type} → Exec α → Prop}, Steady K → K find) :
    m.Accounts (match find m with | .ok action m₁ => [(action, m₁)] | .error _ _ => [])
      (some (endState ((find >>= Exec.conclude) m))) := by
  have habides := hfind (Plain.abides m).steady m (.refl m)
  have hsound := of_steady hfind m h
  cases hm : find m with
  | error e m₁ =>
    rw [hm] at habides
    rw [bind_of_error hm]
    refine .nil fun m' hm' => ?_
    cases hm'
    exact congrArg Phase.defining habides.phase
  | ok action m₁ =>
    rw [hm] at habides hsound
    rw [bind_of_ok hm]
    exact (hsound.accounts_conclude action).congr_left (congrArg Phase.defining habides.phase).symm

theorem Sound.accounts_execute (h : m.Sound) (xt : Cell) :
    m.Accounts (Exec.performed xt m) (some (endState (Exec.execute xt m))) := by
  rw [Exec.execute_eq_finalAction]
  exact h.accounts_bind_conclude fun hK => Exec.finalAction_steady hK xt

theorem Sound.accounts_stepThread (h : m.Sound) :
    m.Accounts
      (match m.memory.get m.regs.ip.toNat with
        | .ok xt => Exec.performed xt { m with regs := { m.regs with ip := m.regs.ip + 1 } }
        | .error _ => [])
      (some (endState (Machine.stepThread m))) := by
  cases hget : m.memory.get m.regs.ip.toNat with
  | error e =>
    rw [stepThread_of_error hget]
    exact .nil fun m' hm' => by cases hm'; rfl
  | ok xt =>
    rw [stepThread_of_ok hget, endState_bind_pure]
    have h₁ : ({ m with regs := { m.regs with ip := m.regs.ip + 1 } } : Machine).Sound :=
      ⟨{ h.1 with }, h.2⟩
    exact (h₁.accounts_execute xt).congr_left rfl

/-! ### Whole runs -/

theorem Sound.accounts_runThread (h : m.Sound) (steps : Nat) :
    m.Accounts (m.performedInThread steps) ((m.runThread steps).map endState) := by
  induction steps generalizing m with
  | zero =>
    rw [performedInThread]
    by_cases hip : m.regs.ip = 0
    · rw [runThread_of_eq_zero _ hip]
      exact .nil fun m' hm' => by cases hm'; rfl
    · rw [runThread_zero hip]
      exact .nil fun m' hm' => by cases hm'
  | succ steps ih =>
    by_cases hip : m.regs.ip = 0
    · rw [runThread_of_eq_zero _ hip, performedInThread_of_eq_zero hip]
      exact .nil fun m' hm' => by cases hm'; rfl
    · -- One step has its own part of the log; the induction accounts for what is left of the
      -- thread.
      have hstep := h.accounts_stepThread
      have hsound := Sound.stepThread m h
      rw [runThread_succ _ hip, performedInThread, if_neg hip]
      cases hthread : Machine.stepThread m with
      | ok _ m₁ =>
        rw [hthread, endState_ok] at hstep hsound
        exact hstep.append (ih hsound)
      | error e m₁ =>
        rw [hthread] at hstep
        exact hstep.append (.nil fun m' hm' => by cases hm'; rfl)

/-- The actions that are left to perform behind a word. -/
def performedBehind (steps : Nat) :
    EStateM.Result Fault Machine Continuation → List (Action × Machine)
  | .ok .resume m => m.performedInThread steps
  | _ => []

theorem Sound.accounts_continueWith {c : EStateM.Result Fault Machine Continuation}
    (hc : (endState c).Sound) (steps : Nat) :
    (endState c).Accounts (performedBehind steps c) ((continueWith steps c).map endState) := by
  match c with
  | .ok .resume m => exact hc.accounts_runThread steps
  | .ok .done m => exact .nil fun m' hm' => by cases hm'; rfl
  | .error e m => exact .nil fun m' hm' => by cases hm'; rfl

theorem Sound.accounts_enterToken (h : m.Sound) (token : List UInt8) :
    m.Accounts
      (match m.find token with
        | .ok (some r) =>
          if m.regs.isCompiling && !r.isImmediate then []
          else Exec.performed (UInt16.ofNat r.codeField) m
        | _ => [])
      (some (endState (Exec.enterToken token m))) := by
  have hsteady := (Plain.abides m).steady
  have hnone {m' : Machine} (h : m.Abides m') : m.Accounts [] (some m') :=
    .nil fun m₁ hm₁ => by cases hm₁; exact congrArg Phase.defining h.phase
  unfold Exec.enterToken
  cases hfind : m.find token with
  | error e =>
    have hlook : observe (fun m : Machine => m.find token) m = .error e m := observe_of_error hfind
    rw [bind_of_error hlook]
    exact hnone (.refl m)
  | ok found =>
    have hlook : observe (fun m : Machine => m.find token) m = .ok found m := observe_of_ok hfind
    rw [bind_of_ok hlook]
    cases found with
    | none =>
      refine hnone ((hsteady.bind (hsteady.reg _) fun base => ?_) m (.refl m))
      split
      · exact hsteady.bind (hsteady.enterNumber _) fun _ => hsteady.pure _
      · exact hsteady.throw _
    | some r =>
      simp only [Exec.bind_reg]
      split
      · exact hnone ((hsteady.bind (hsteady.compileReference r) fun _ => hsteady.pure _) m
          (.refl m))
      · rw [endState_bind_pure]
        exact h.accounts_execute _

theorem Sound.accounts_interpretToken (h : m.Sound) (steps : Nat) (token : List UInt8) :
    m.Accounts (m.performedByToken steps token) ((m.interpretToken steps token).map endState) := by
  have h₀ : ({ m with token := [] } : Machine).Sound := ⟨{ h.1 with }, h.2⟩
  have hall := (h₀.accounts_enterToken token).append
    (Sound.accounts_continueWith (Sound.enterToken token _ h₀) steps)
  -- The log of a token is written as that of a word and of the threaded code behind it.
  have hlog : m.performedByToken steps token = _ ++ performedBehind steps _ := rfl
  rw [hlog]
  refine (hall.congr_right fun m' hm' => ?_).congr_left rfl
  rw [interpretToken_eq, Option.map_map] at hm'
  obtain ⟨r, hr, rfl⟩ := Option.map_eq_some_iff.mp hm'
  refine ⟨endState r, Option.map_eq_some_iff.mpr ⟨r, hr, rfl⟩, ?_⟩
  cases r <;> exact congrArg Registers.defining (regs_restoreToken _ _)

theorem Sound.accounts_parseWord (h : m.Sound) {r : EStateM.Result Fault Machine Unit}
    (hr : Exec.parseWord m = r) : m.Accounts [] (some (endState r)) ∧ (endState r).Sound := by
  subst hr
  refine ⟨.nil fun m' hm' => ?_, Sound.parseWord m h⟩
  cases hm'
  exact congrArg Phase.defining (Abides.parseWord m (.refl m)).phase

theorem Sound.accounts_interpret (h : m.Sound) (steps : Nat) :
    m.Accounts (m.performed steps) ((m.interpret steps).map endState) := by
  induction steps generalizing m with
  | zero =>
    rw [performed]
    cases hparse : Exec.parseWord m with
    | error e m₁ =>
      rw [interpret_of_error _ hparse]
      exact (h.accounts_parseWord hparse).1
    | ok _ m₁ =>
      by_cases htoken : m₁.token = []
      · rw [interpret_of_nil _ hparse htoken]
        exact (h.accounts_parseWord hparse).1
      · rw [interpret_zero hparse htoken]
        exact .nil fun m' hm' => by cases hm'
  | succ steps ih =>
    rw [performed]
    cases hparse : Exec.parseWord m with
    | error e m₁ =>
      rw [interpret_of_error _ hparse]
      exact (h.accounts_parseWord hparse).1
    | ok _ m₁ =>
      obtain ⟨hparsed, hsound⟩ := h.accounts_parseWord hparse
      by_cases htoken : m₁.token = []
      · rw [interpret_of_nil _ hparse htoken]
        simp only [htoken, List.isEmpty_nil, if_true]
        exact hparsed
      · -- The log is that of the token, and then that of the input behind it if there was no fault.
        have hinner := Sound.accounts_interpretToken hsound steps m₁.token
        rw [interpret_succ _ hparse htoken]
        simp only [List.isEmpty_iff, htoken, if_false]
        refine hparsed.append ?_
        rw [endState_ok] at hinner hsound ⊢
        cases htokens : m₁.interpretToken steps m₁.token with
        | none =>
          rw [htokens] at hinner
          simpa using hinner
        | some r =>
          have hnext := hsound.interpretToken htokens
          rw [htokens] at hinner
          cases r with
          | ok _ m₂ =>
            rw [endState_ok] at hnext
            exact hinner.append (ih hnext)
          | error e m₂ => simpa using hinner

theorem Sound.accounts_act (h : m.Sound) (action : Action) :
    m.Accounts
      (match Exec.finalWithin m.dataStack.size action m with
        | .ok action m₁ => [(action, m₁)]
        | .error _ _ => [])
      (some (endState (Exec.act action m))) := by
  have hact : Exec.act action m =
      (Exec.finalWithin m.dataStack.size action >>= Exec.conclude) m := by
    rw [← Exec.actWithin_eq]
    exact bind_of_ok (observe_of_ok rfl)
  rw [hact]
  exact h.accounts_bind_conclude fun hK => Exec.finalWithin_steady hK _ _

/-- Finishing a run leaves the register alone. -/
theorem defining_finishRun (r : EStateM.Result Fault Machine Unit) :
    (endState (finishRun r)).regs.defining = (endState r).regs.defining := by
  cases r with
  | error f m =>
    rw [finishRun_error]
    rfl
  | ok _ m =>
    rw [finishRun_ok]
    split <;> rfl

theorem Sound.accounts_run (h : m.Sound) (hpoison : m.poison? = none) (steps : Nat) :
    m.Accounts (m.performed steps) ((Request.ofHost (m.run steps)).map endState) := by
  refine (h.accounts_interpret steps).congr_right fun m' hm' => ?_
  simp only [run, hpoison] at hm'
  cases hrun : m.interpret steps with
  | none =>
    rw [hrun] at hm'
    cases hm'
  | some r =>
    refine ⟨endState r, rfl, ?_⟩
    rw [hrun, Option.map_some] at hm'
    have hend := defining_finishRun r
    cases hfinish : finishRun r <;> rw [hfinish] at hm' hend <;> cases hm' <;> exact hend

end Machine

/-! ### Requests -/

/-- The actions that a request performs, in order. -/
def Request.performed (steps : Nat) : Request → Machine → List (Action × Machine)
  | evaluate text, m => if m.poison?.isSome then [] else (m.setText text).performed steps
  | run, m => if m.poison?.isSome then [] else m.performed steps
  | act action, m =>
    (match Exec.finalWithin m.dataStack.size action m with
      | .ok action m₁ => [(action, m₁)]
      | .error _ _ => []) ++
    Machine.performedBehind steps (Exec.act action m)
  | executeToken xt, m => Exec.performed xt m ++ Machine.performedBehind steps (Exec.execute xt m)
  | _, _ => []

theorem Request.map_endState_ofOutcome (o : Outcome Unit) :
    (Request.ofOutcome o).map endState = o.map endState := by
  match o with
  | none | some (.ok _ _) | some (.error _ _) => rfl

open Machine in
theorem Machine.Sound.accounts_request {m : Machine} (h : m.Sound) (steps : Nat)
    (request : Request) :
    m.Accounts (request.performed steps m) ((request.perform steps m).map endState) := by
  cases hwords : request.runsWords with
  | false =>
    have hlog : request.performed steps m = [] := by
      cases request with
      | evaluate | run | act | executeToken => cases hwords
      | _ => rfl
    rw [hlog]
    refine .nil fun m' hm' => ?_
    obtain ⟨r, hr, rfl⟩ := Option.map_eq_some_iff.mp hm'
    exact congrArg Phase.defining ((Plain.abides m).perform hwords (.refl m) hr).phase
  | true =>
    cases request with
    | evaluate text =>
      have hsound : (m.setText text).Sound :=
        ⟨Elementary.withinRegions.plain.setText text h.1,
          (Plain.of_abides fun _ _ h => h.quiet).setText text h.2⟩
      cases hpoison : m.poison? with
      | some f =>
        simp only [Request.performed, Request.perform, Machine.evaluate, hpoison]
        exact .nil fun m' hm' => by cases hm'; rfl
      | none =>
        simp only [Request.performed, Request.perform, Machine.evaluate, hpoison]
        exact (hsound.accounts_run hpoison steps).congr_left rfl
    | run =>
      cases hpoison : m.poison? with
      | some f =>
        simp only [Request.performed, Request.perform, Machine.run, hpoison]
        exact .nil fun m' hm' => by cases hm'; rfl
      | none =>
        simp only [Request.performed, Request.perform, hpoison]
        exact h.accounts_run hpoison steps
    | act action =>
      rw [Request.perform, Request.map_endState_ofOutcome]
      exact (h.accounts_act action).append
        (Sound.accounts_continueWith (Sound.act action m h) steps)
    | executeToken xt =>
      rw [Request.perform, Request.map_endState_ofOutcome]
      exact (h.accounts_execute xt).append
        (Sound.accounts_continueWith (Sound.execute xt m h) steps)
    | _ => cases hwords

/-! ### Histories -/

/-- The host makes requests of the first machine, these perform the actions, and they end with the
second machine, unless the last of them is still running. -/
inductive Logged : Machine → List (Action × Machine) → Option Machine → Prop
  /-- Nothing is asked. -/
  | nil (m : Machine) : Logged m [] (some m)
  /-- A request has used some steps and has not come to its end. -/
  | running {m : Machine} {steps : Nat} {request : Request}
    (hperform : request.perform steps m = none) : Logged m (request.performed steps m) none
  /-- A request is answered or refused, and the others follow. -/
  | cons {m : Machine} {steps : Nat} {request : Request}
    {r : EStateM.Result Refusal Machine Answer} {ps : List (Action × Machine)} {o : Option Machine}
    (hperform : request.perform steps m = some r) (hrest : Logged (endState r) ps o) :
    Logged m (request.performed steps m ++ ps) o

/-- A history from a new machine with a quiet journal accounts for the register. -/
theorem Logged.accounts {config : Config} {input : Source} {output : Sink} {verbosity : Verbosity}
    {m m' : Machine} {es : List (Request × Reply)} {ps : List (Action × Machine)}
    {o : Option Machine} (hcreate : Machine.create config input output verbosity = .ok m)
    (hquiet : verbosity.admits .debug = false) (ht : Transcript m es m') (h : Logged m' ps o) :
    m'.Accounts ps o := by
  -- The transcript goes along with the induction, since it is what makes every machine on the way
  -- sound.
  have hsound {m' : Machine} {es : List (Request × Reply)} (ht : Transcript m es m') :
      m'.Sound := by
    refine ⟨Elementary.withinRegions.transcript (fun _ _ h => { h with }) ht
      (Machine.create_withinRegions hcreate), ?_⟩
    unfold Machine.Quiet Journal.admits
    rw [Machine.verbosity_of_transcript hcreate ht]
    exact hquiet
  induction h generalizing es with
  | nil => exact .nil fun m₁ hm₁ => by cases hm₁; rfl
  | @running m' steps request hperform =>
    have hrequest := (hsound ht).accounts_request steps request
    rwa [hperform] at hrequest
  | @cons m' steps request r ps o hperform _ ih =>
    have hrequest := (hsound ht).accounts_request steps request
    rw [hperform] at hrequest
    exact hrequest.append (ih (ht.append (.cons hperform (.nil _))))

/-- **The state machine of definitions.** As long as definitions are not noted in the journal, a
token moves the compiler only if it leads to one of the four words and that succeeds, and then as
the table says; where a definition is opened, its record is the newest and stands where the
dictionary has ended. A word that is out of place is refused and changes nothing. So, along every
history of a new machine, however far it has come, the register holds the record that the last
milestone has left open, or zero; no definition is opened while another one is open, and none is
completed that is not. -/
theorem Logged.definition_phases :
    (∀ (m : Machine) (xt : Cell), m.Quiet →
      ((endState (Exec.execute xt m)).phase ≠ m.phase →
        ∃ word m₁ c m', word.switches = true ∧ Exec.finalAction xt m = .ok (.define word) m₁ ∧
          Exec.execute xt m = .ok c m') ∧
      ∀ word m₁ c m', Exec.finalAction xt m = .ok (.define word) m₁ → Exec.execute xt m = .ok c m' →
        word.shift m'.regs.latest m.phase = some m'.phase ∧
          (word = .colon → m'.regs.latest = m₁.regs.here)) ∧
    (∀ (m : Machine) (word : DefiningWord) (record : Cell), word.shift record m.phase = none →
      (Action.define word).step m = .error .compilerNesting m) ∧
    ∀ config input output verbosity m,
      Machine.create config input output verbosity = .ok m → verbosity.admits .debug = false →
      ∀ ps o, Logged m ps o →
        (∀ m' ∈ o, m'.regs.defining = Milestone.replay 0 ps) ∧
        ∀ before p after, ps = before ++ p :: after →
          p.2.regs.defining = Milestone.replay 0 before ∧
          (∀ record, Milestone.of? p = some (.opened record) →
            Milestone.replay 0 before = 0 ∧ record ≠ 0) ∧
          (Milestone.of? p = some .completed → Milestone.replay 0 before ≠ 0) := by
  refine ⟨fun m xt hm => ⟨Exec.exists_of_phase_ne hm, fun word m₁ c m' hfinal hexecute => ?_⟩,
    fun m word record hshift => Action.step_of_shift_eq_none hshift,
    fun config input output verbosity m hcreate hquiet ps o hlogged => ?_⟩
  · have hends := Exec.execute_phase hm hfinal
    rw [hexecute] at hends
    exact ⟨hends.1, fun hcolon => hends.2 (congrArg Action.define hcolon)⟩
  · obtain ⟨layout, -, hnew⟩ := Machine.new_of_create hcreate
    have hzero : m.regs.defining = 0 := by
      rw [hnew.regs]
      rfl
    obtain ⟨hattested, hdefining⟩ := hlogged.accounts hcreate hquiet (.nil m)
    rw [hzero] at hattested hdefining
    refine ⟨hdefining, ?_⟩
    rintro before p after rfl
    obtain ⟨hregister, hfits⟩ := hattested.at
    refine ⟨hregister, fun record hopened => ?_, fun hcompleted => ?_⟩
    · rwa [hopened] at hfits
    · rwa [hcompleted] at hfits

/-- On a new machine of the usual size a definition is opened at the end of the dictionary, and
while it is open no other one can be. -/
theorem Logged.definition_phases_sq :
    ∃ (m m₁ m₂ : Machine), Machine.create {} Source.empty {} .off = .ok m ∧
      Logged m [(.define .colon, m₁)] (some m₂) ∧
      Milestone.of? (.define .colon, m₁) = some (.opened 777) ∧ m₂.regs.defining = 777 ∧
      Action.step (.define .colon) m₂ = .error .compilerNesting m₂ := by
  obtain ⟨m, hcreate, hnew, hhere, hmode, hdefining, hcells, hroom⟩ :=
    Machine.create_default Source.empty {} .off
  have hreads : (Source.ofText "sq").Reads [Text.bytes "sq"] :=
    ⟨⟨_, rfl, by decide +kernel⟩, by decide +kernel⟩
  have hcellsFor : Record.cellsFor (Text.bytes "sq").length = 4 := by decide +kernel
  obtain ⟨-, m₂, hbegin, -⟩ := Exec.beginDefinition_of_room (m := m.setText "sq")
    { hnew.within with } hmode hdefining hreads (by decide +kernel)
    (hcellsFor ▸ show 4 ≤ m.unused by omega) (show 2 ≤ m.dataStack.room by omega)
  have hstep : Action.step (.define .colon) (m.setText "sq") = .ok () m₂ := hbegin
  have hperform :
      (Request.act (.define .colon)).perform 0 (m.setText "sq") = some (.ok .done m₂) := by
    rw [Request.perform_act (by simp) (by simp), Request.ofExec, hstep]
  have hlog : (Request.act (.define .colon)).performed 0 (m.setText "sq") =
      [(.define .colon, m.setText "sq")] := by
    rw [Request.performed, Exec.act_of_step (by simp) (by simp), bind_of_ok hstep,
      Exec.finalWithin.eq_3 _ _ (by simp) (by simp)]
    rfl
  have hlogged : Logged m [(.define .colon, m.setText "sq")] (some m₂) := by
    have hrest := Logged.cons hperform (.nil _)
    rw [hlog] at hrest
    have hset : (Request.setText "sq").perform 0 m = some (.ok .done (m.setText "sq")) := rfl
    exact .cons hset hrest
  obtain ⟨-, hrefused, hruns⟩ := Logged.definition_phases
  have hquiet : m.Quiet := by
    unfold Machine.Quiet Journal.admits
    rw [Machine.verbosity_of_transcript hcreate (.nil m)]
    rfl
  have hphase := Action.step_phase (.define .colon)
    ((Plain.of_abides fun _ _ h => h.quiet).setText "sq" hquiet)
  rw [hstep] at hphase
  have hlatest : m₂.regs.latest = 777 := (hphase.2.2 rfl).trans hhere
  have hmilestone : Milestone.of? (.define .colon, m.setText "sq") = some (.opened 777) := by
    rw [Milestone.of?, hstep, ← hlatest]
    rfl
  have hopen : m₂.regs.defining = 777 := by
    have h := (hruns _ _ _ _ m hcreate rfl _ _ hlogged).1 m₂ rfl
    rw [Milestone.replay] at h
    simpa [Milestone.next, hmilestone, Milestone.record] using h
  refine ⟨m, _, m₂, hcreate, hlogged, hmilestone, hopen, hrefused m₂ .colon 0 ?_⟩
  have hne : (777 : Cell) ≠ 0 := by decide
  exact if_neg fun h => hne (hopen.symm.trans h.2)

end CellForth
