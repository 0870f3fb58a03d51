import CellForth.Proofs.Abreast

/-!
# The phases of the compiler

Two registers say where the compiler stands: whether words are run or compiled, and which record is
under definition. Together they are the phase of a machine. Four words move it from one phase to
another, each of them from certain phases only, and `DefiningWord.shift` is the table of their
moves.

The machine follows the table as long as it does not note definitions in its journal. A word that
succeeds has moved the phase as the table says, a word that fails has left it as it was, and a word
that is out of place changes nothing at all (`Action.step_phase`, `Action.step_of_shift_eq_none`).
All other actions leave the phase alone, since what they are made of does (`Machine.Abides`). A
token that is executed may lead through any number of `execute`; what counts is the action at the
end (`Exec.execute_phase`).
-/

namespace CellForth

/-- Where the compiler stands. -/
structure Phase where
  /-- Are words run or compiled? -/
  mode : Mode
  /-- The record under definition, or zero. -/
  defining : Cell
  deriving DecidableEq

theorem Registers.isCompiling_iff {regs : Registers} :
    regs.isCompiling = true ↔ regs.mode = .compile :=
  decide_eq_true_iff

theorem Registers.not_isCompiling_iff {regs : Registers} :
    (!regs.isCompiling) = true ↔ regs.mode = .interpret := by
  unfold isCompiling
  cases regs.mode <;> decide

/-- Where the compiler of a machine stands. -/
def Machine.phase (m : Machine) : Phase :=
  ⟨m.regs.mode, m.regs.defining⟩

/-- The phase to which a word moves the compiler, if it makes the given record, or none if the word
is out of place. -/
def DefiningWord.shift (record : Cell) (p : Phase) : DefiningWord → Option Phase
  | colon => if p.mode = .interpret ∧ p.defining = 0 then some ⟨.compile, record⟩ else none
  | semicolon => if p.mode = .compile ∧ p.defining ≠ 0 then some ⟨.interpret, 0⟩ else none
  | leftBracket => if p.mode = .compile then some { p with mode := .interpret } else none
  | rightBracket => if p.mode = .interpret then some { p with mode := .compile } else none
  | _ => some p

/-- The phase to which an action moves the compiler. -/
def Action.shift (record : Cell) (p : Phase) : Action → Option Phase
  | define word => word.shift record p
  | _ => some p

theorem Action.shift_of_switches_eq_false {action : Action} (h : action.switches = false)
    (record : Cell) (p : Phase) : action.shift record p = some p := by
  cases action with
  | define word =>
    cases word with
    | colon | semicolon | leftBracket | rightBracket => cases h
    | _ => rfl
  | _ => rfl

/-! ### What leaves the compiler where it stands -/

namespace Machine

/-- The second machine is in the phase of the first, and its journal keeps the same notices. -/
structure Abides (m m' : Machine) : Prop where
  /-- The phase is the same. -/
  phase : m'.phase = m.phase
  /-- So is the verbosity. -/
  verbosity : m'.journal.verbosity = m.journal.verbosity

namespace Abides

variable {m₀ m m' : Machine} {α : Type}

theorem refl (m : Machine) : m.Abides m := ⟨rfl, rfl⟩

theorem trans (h : m₀.Abides m) (h' : m.Abides m') : m₀.Abides m' :=
  ⟨h'.phase.trans h.phase, h'.verbosity.trans h.verbosity⟩

theorem onMemory (op : EStateM Fault Memory α) : Keeps m₀.Abides (Exec.onMemory op) := by
  intro m hm
  rw [Exec.onMemory_eq]
  cases op m.memory <;> exact ⟨hm.phase, hm.verbosity⟩

theorem onData (op : StackM α) : Keeps m₀.Abides (Exec.onData op) := by
  intro m hm
  rw [Exec.onData_eq]
  cases op m.dataStack <;> exact ⟨hm.phase, hm.verbosity⟩

theorem onReturn (op : StackM α) : Keeps m₀.Abides (Exec.onReturn op) := by
  intro m hm
  rw [Exec.onReturn_eq]
  cases op m.returnStack <;> exact ⟨hm.phase, hm.verbosity⟩

theorem setRegs {g : Registers → Registers}
    (hg : ∀ regs, (g regs).mode = regs.mode ∧ (g regs).defining = regs.defining) :
    Keeps m₀.Abides (Exec.setRegs g) := fun m hm =>
  ⟨(congrArg₂ Phase.mk (hg m.regs).1 (hg m.regs).2).trans hm.phase, hm.verbosity⟩

theorem report (m : Machine) (notice : Notice) : m.Abides (m.report notice) :=
  ⟨rfl, Journal.verbosity_record ..⟩

theorem compileCell (c : Cell) : Keeps m₀.Abides (Exec.compileCell c) :=
  .bind (.observe _) fun _ => .bind (.reg _) fun _ => .bind (onMemory _) fun _ =>
    setRegs fun _ => ⟨rfl, rfl⟩

theorem packBytes (bs : List UInt8) : Keeps m₀.Abides (Exec.packBytes bs) :=
  .bind (.reg _) fun _ => .bind (onMemory _) fun _ => setRegs fun _ => ⟨rfl, rfl⟩

theorem noteRedefinition (name : List UInt8) : Keeps m₀.Abides (Exec.noteRedefinition name) := by
  intro m hm
  obtain ⟨journal, hnote, hverbosity⟩ := Exec.reports_noteRedefinition name m
  rw [hnote]
  exact ⟨hm.phase, hverbosity.trans hm.verbosity⟩

theorem createRecord (name : List UInt8) (code flags : Cell) :
    Keeps m₀.Abides (Exec.createRecord name code flags) :=
  .bind (.settle _) fun _ => .bind (.settle _) fun _ => .bind (.observe _) fun _ =>
    .bind (noteRedefinition name) fun _ => .bind (.reg _) fun _ => .bind (.reg _) fun _ =>
      .bind (compileCell _) fun _ => .bind (compileCell _) fun _ => .bind (packBytes name) fun _ =>
        .bind (compileCell _) fun _ => .bind (setRegs fun _ => ⟨rfl, rfl⟩) fun _ => .pure _

theorem parseWord : Keeps m₀.Abides Exec.parseWord := fun m hm => by
  unfold Exec.parseWord
  split <;> exact ⟨hm.phase, hm.verbosity⟩

theorem parse (delimiter : UInt8) : Keeps m₀.Abides (Exec.parse delimiter) := fun m hm => by
  unfold Exec.parse
  split <;> exact ⟨hm.phase, hm.verbosity⟩

theorem readByte : Keeps m₀.Abides (Exec.onInput Source.read) := fun m hm => by
  unfold Exec.onInput
  split <;> exact ⟨hm.phase, hm.verbosity⟩

theorem write (bs : List UInt8) : Keeps m₀.Abides (Exec.write bs) := fun m hm => by
  unfold Exec.write
  split <;> exact ⟨hm.phase, hm.verbosity⟩

theorem addRuntime (name : String) (action : Action) :
    Keeps m₀.Abides (Exec.addRuntime name action) := fun m hm => by
  rw [Exec.addRuntime_eq]
  split
  · exact ⟨hm.phase, (Journal.verbosity_record ..).trans hm.verbosity⟩
  · exact hm

theorem keeps {P : Machine → Prop} (hP : ∀ m m', m.Abides m' → P m → P m') {op : Exec α}
    (hop : ∀ m₀ : Machine, Keeps m₀.Abides op) : Keeps P op :=
  fun m hm => hP m _ (hop m m (refl m)) hm

end Abides

end Machine

open Machine in
/-- Nothing that a host can do without running words changes the phase or the verbosity. -/
theorem Plain.of_abides {P : Machine → Prop} (hP : ∀ m m', m.Abides m' → P m → P m') : Plain P where
  steady :=
    { look _ := .observe _
      bind := .bind
      onData _ := Abides.keeps hP fun _ => Abides.onData _
      onReturn _ := Abides.keeps hP fun _ => Abides.onReturn _
      put _ _ := Abides.keeps hP fun _ => Abides.onMemory _
      compileCell c := Abides.keeps hP fun _ => Abides.compileCell c
      compileString _ := Abides.keeps hP fun _ =>
        .bind (.observe _) fun _ => .bind (Abides.compileCell _) fun _ => Abides.packBytes _
      createRecord name code flags := Abides.keeps hP fun _ => Abides.createRecord name code flags
      allot _ := Abides.keeps hP fun _ =>
        .bind (.reg _) fun _ => .bind (.observe _) fun _ => .bind (.settle _) fun _ =>
          Abides.setRegs fun _ => ⟨rfl, rfl⟩
      setIp _ := Abides.keeps hP fun _ => Abides.setRegs fun _ => ⟨rfl, rfl⟩
      setW _ := Abides.keeps hP fun _ => Abides.setRegs fun _ => ⟨rfl, rfl⟩
      setBase _ _ := Abides.keeps hP fun _ => Abides.setRegs fun _ => ⟨rfl, rfl⟩
      parseName := .bind (Abides.keeps hP fun _ => Abides.parseWord) fun _ => .observe _
      write bs := Abides.keeps hP fun _ => Abides.write bs }
  parseWord := Abides.keeps hP fun _ => Abides.parseWord
  parse delimiter := Abides.keeps hP fun _ => Abides.parse delimiter
  readByte := Abides.keeps hP fun _ => Abides.readByte
  addRuntime name action := Abides.keeps hP fun _ => Abides.addRuntime name action
  input m _ := hP m _ ⟨rfl, rfl⟩
  output m _ := hP m _ ⟨rfl, rfl⟩
  report m notice := hP m _ (Abides.report m notice)

theorem Plain.abides (m₀ : Machine) : Plain m₀.Abides :=
  .of_abides fun _ _ h h₀ => h₀.trans h

/-! ### The words that move the compiler -/

namespace Machine

/-- The journal does not keep notices of definitions. -/
def Quiet (m : Machine) : Prop :=
  m.journal.admits .debug = false

theorem Quiet.of_verbosity {m m' : Machine} (hm : m.Quiet)
    (h : m'.journal.verbosity = m.journal.verbosity) : m'.Quiet := by
  unfold Quiet Journal.admits
  rw [h]
  exact hm

theorem Abides.quiet {m m' : Machine} (h : m.Abides m') (hm : m.Quiet) : m'.Quiet :=
  hm.of_verbosity h.verbosity

end Machine

namespace Exec

variable {m : Machine}

/-- A word in its place goes on from the machine as it is. -/
theorem ends_requireNesting (p : Registers → Bool) (m : Machine) :
    Ends m.Abides (fun _ m' => m' = m ∧ p m.regs = true) (requireNesting p m) :=
  .observe (.refl m) fun _ hdemand => ⟨rfl, demand_eq_ok_iff.mp hdemand⟩

/-- A record that is created is the newest, and it stands where the dictionary has ended. -/
theorem ends_createRecord (name : List UInt8) (code flags : Cell) (m : Machine) :
    Ends m.Abides (fun r m' => m.Abides m' ∧ m'.regs.latest = m.regs.here ∧
      r.address = m.regs.here.toNat) (createRecord name code flags m) := by
  have hm := Machine.Abides.refl m
  -- The three checks in front leave the machine as it is.
  refine .bind (Q := fun _ => (· = m)) (.observe hm fun _ _ => rfl) fun _ m₁ h₁ => ?_
  refine .bind (Q := fun _ => (· = m)) (.observe (h₁ ▸ hm) fun _ _ => h₁) fun _ m₂ h₂ => ?_
  refine .bind (Q := fun _ => (· = m)) (.observe (h₂ ▸ hm) fun _ _ => h₂) fun _ m₃ h₃ => ?_
  obtain ⟨journal, hnote, hverbosity⟩ := reports_noteRedefinition name m
  rw [h₃, bind_of_ok hnote, bind_reg, bind_reg]
  have h₄ : m.Abides { m with journal := journal } := ⟨rfl, hverbosity⟩
  refine .bind ((Machine.Abides.compileCell _).ends h₄) fun _ m₅ h₅ => ?_
  refine .bind ((Machine.Abides.compileCell _).ends h₅) fun _ m₆ h₆ => ?_
  refine .bind ((Machine.Abides.packBytes _).ends h₆) fun _ m₇ h₇ => ?_
  refine .bind ((Machine.Abides.compileCell _).ends h₇) fun _ m₈ h₈ => ?_
  exact ⟨⟨h₈.phase, h₈.verbosity⟩, rfl, rfl⟩

/-- A definition is opened if none is. It is that of the newest record, which stands where the
dictionary has ended. -/
theorem ends_beginDefinition (m : Machine) :
    Ends m.Abides (fun _ m' => DefiningWord.colon.shift m'.regs.latest m.phase = some m'.phase ∧
      m'.regs.latest = m.regs.here ∧ m'.journal.verbosity = m.journal.verbosity)
      (beginDefinition m) := by
  have hname : Keeps (fun m' => m.Abides m' ∧ m'.regs = m.regs) parseName :=
    .and (Plain.abides m).steady.parseName
      (DeviceFree.parseName (P := fun m' => m'.regs = m.regs) fun _ _ _ _ _ => id)
  have hpush (address : Cell) : Keeps (fun m' => m.Abides m' ∧ m'.regs.latest = m.regs.here)
      (pushControl address .definition) := by
    refine .and (Machine.Abides.onData _) fun m' hm' => ?_
    rw [pushControl, onData_eq]
    cases Stack.pushTwo address ControlTag.definition.cell m'.dataStack <;> exact hm'
  refine .bind (ends_requireNesting _ m) fun _ m₁ ⟨h₁, hnesting⟩ => ?_
  rw [h₁]
  refine .bind ((hname.ends ⟨.refl m, rfl⟩).mono (fun _ => And.left) fun _ _ => id)
    fun name m₂ ⟨h₂, hregs⟩ => ?_
  refine .bind ((ends_createRecord _ _ _ m₂).mono (fun _ => h₂.trans) fun _ _ => id)
    fun r m₃ ⟨h₃, hlatest, haddress⟩ => ?_
  rw [hregs] at hlatest haddress
  refine .bind (((hpush _).ends ⟨h₂.trans h₃, hlatest⟩).mono (fun _ => And.left) fun _ _ => id)
    fun _ m₄ ⟨h₄, hlatest₄⟩ => ?_
  rw [bind_setRegs, haddress, UInt16.ofNat_toNat]
  refine ⟨?_, hlatest₄, (Journal.verbosity_record ..).trans h₄.verbosity⟩
  rw [Bool.and_eq_true, decide_eq_true_iff, Registers.not_isCompiling_iff] at hnesting
  refine (if_pos hnesting).trans ?_
  show some (Phase.mk .compile m₄.regs.latest) = some ⟨.compile, m.regs.here⟩
  rw [hlatest₄]

/-- A definition is completed if one is open. -/
theorem ends_endDefinition (hm : m.Quiet) :
    Ends m.Abides (fun _ m' => DefiningWord.semicolon.shift m'.regs.latest m.phase = some m'.phase ∧
      m'.journal.verbosity = m.journal.verbosity) (endDefinition m) := by
  have hsteady := (Plain.abides m).steady
  refine .bind (ends_requireNesting _ m) fun _ m₁ ⟨h₁, hnesting⟩ => ?_
  rw [h₁]
  refine .bind ((hsteady.popControl _).ends (.refl m)) fun address m₂ h₂ => ?_
  refine .bind ((Keeps.observe _).ends h₂) fun _ m₃ h₃ => ?_
  refine .bind ((hsteady.compileRuntime _).ends h₃) fun _ m₄ h₄ => ?_
  refine .bind ((hsteady.reveal _).ends h₄) fun _ m₅ h₅ => ?_
  have hquiet : ¬ m₅.journal.admits .debug = true := Bool.not_eq_true _ ▸ h₅.quiet hm
  rw [bind_setRegs, noteDefinition_eq, if_neg hquiet]
  rw [Bool.and_eq_true, decide_eq_true_iff, Registers.isCompiling_iff] at hnesting
  exact ⟨if_pos hnesting, h₅.verbosity⟩

/-- A bracket is taken in one mode, and changes nothing but the mode. -/
theorem ends_setMode (p : Registers → Bool) (mode : Mode) (m : Machine) :
    Ends m.Abides (fun _ m' => p m.regs = true ∧ m'.phase = { m.phase with mode := mode } ∧
      m'.journal.verbosity = m.journal.verbosity)
      ((requireNesting p >>= fun _ => setMode mode) m) := by
  refine .bind (ends_requireNesting p m) fun _ m₁ ⟨h₁, hnesting⟩ => ?_
  rw [h₁]
  exact ⟨hnesting, rfl, rfl⟩

theorem requireNesting_of_false {p : Registers → Bool} (h : ¬ p m.regs = true) :
    requireNesting p m = .error .compilerNesting m :=
  observe_of_error (demand_of_neg h)

end Exec

namespace Action

variable {action : Action} {m : Machine}

/-- **The compiler follows the table.** An action that succeeds has moved the compiler as the table
says, where the record of a new definition is the newest and stands where the dictionary has ended,
and an action that fails has left it where it was. -/
theorem step_phase (action : Action) (hm : m.Quiet) :
    Ends m.Abides (fun _ m' => action.shift m'.regs.latest m.phase = some m'.phase ∧
      m'.journal.verbosity = m.journal.verbosity ∧
      (action = .define .colon → m'.regs.latest = m.regs.here)) (action.step m) := by
  cases hswitches : action.switches with
  | false =>
    have hkeeps := (Plain.abides m).steady.step (Plain.abides m).outward hswitches
    refine (hkeeps.ends (.refl m)).mono (fun _ => id) fun _ m' h => ⟨?_, h.verbosity, ?_⟩
    · rw [shift_of_switches_eq_false hswitches, h.phase]
    · rintro rfl
      cases hswitches
  | true =>
    cases action with
    | define word =>
      cases word with
      | colon =>
        exact (Exec.ends_beginDefinition m).mono (fun _ => id) fun _ _ h =>
          ⟨h.1, h.2.2, fun _ => h.2.1⟩
      | semicolon =>
        exact (Exec.ends_endDefinition hm).mono (fun _ => id) fun _ _ h => ⟨h.1, h.2, nofun⟩
      | leftBracket =>
        refine (Exec.ends_setMode _ _ m).mono (fun _ => id) fun _ m' h => ⟨?_, h.2.2, nofun⟩
        rw [h.2.1]
        exact if_pos (Registers.isCompiling_iff.mp h.1)
      | rightBracket =>
        refine (Exec.ends_setMode _ _ m).mono (fun _ => id) fun _ m' h => ⟨?_, h.2.2, nofun⟩
        rw [h.2.1]
        exact if_pos (Registers.not_isCompiling_iff.mp h.1)
      | _ => cases hswitches
    | _ => cases hswitches

/-- An action that is out of place changes nothing at all. -/
theorem step_of_shift_eq_none {record : Cell} (h : action.shift record m.phase = none) :
    action.step m = .error .compilerNesting m := by
  have hplace {c : Prop} [Decidable c] {p : Phase} (hnone : (if c then some p else none) = none) :
      ¬ c := fun hc => by rw [if_pos hc] at hnone; cases hnone
  cases action with
  | define word =>
    cases word with
    | colon =>
      refine bind_of_error (Exec.requireNesting_of_false fun hnesting => hplace h ?_)
      rwa [Bool.and_eq_true, decide_eq_true_iff, Registers.not_isCompiling_iff] at hnesting
    | semicolon =>
      refine bind_of_error (Exec.requireNesting_of_false fun hnesting => hplace h ?_)
      rwa [Bool.and_eq_true, decide_eq_true_iff, Registers.isCompiling_iff] at hnesting
    | leftBracket =>
      exact bind_of_error (Exec.requireNesting_of_false fun hnesting =>
        hplace h (Registers.isCompiling_iff.mp hnesting))
    | rightBracket =>
      exact bind_of_error (Exec.requireNesting_of_false fun hnesting =>
        hplace h (Registers.not_isCompiling_iff.mp hnesting))
    | _ => cases h
  | _ => cases h

end Action

/-- That the journal is quiet lasts. -/
theorem Machine.Quiet.lasting : Lasting Quiet where
  toOutward := (Plain.of_abides fun _ _ h => h.quiet).outward
  hereditary :=
    { toSteady := (Plain.of_abides fun _ _ h => h.quiet).steady
      setMode _ _ := id
      beginDefinition m hm :=
        ((Exec.ends_beginDefinition m).mono (fun _ h => h.quiet hm) fun _ _ h =>
          hm.of_verbosity h.2.2).endState fun _ _ => id
      endDefinition _ hm :=
        ((Exec.ends_endDefinition hm).mono (fun _ h => h.quiet hm) fun _ _ h =>
          hm.of_verbosity h.2).endState fun _ _ => id }
  token _ _ := id

/-! ### Executing a token -/

namespace Exec

variable {m : Machine}

theorem ends_conclude (action : Action) (hm : m.Quiet) :
    Ends m.Abides (fun _ m' => action.shift m'.regs.latest m.phase = some m'.phase ∧
      m'.journal.verbosity = m.journal.verbosity ∧
      (action = .define .colon → m'.regs.latest = m.regs.here)) (conclude action m) := by
  by_cases hresume : action = .resume
  · subst hresume
    exact ⟨rfl, rfl, nofun⟩
  · rw [conclude.eq_2 _ hresume]
    exact .bind (action.step_phase hm) fun _ _ h => h

/-- Finding the action a token leads to leaves the compiler where it stands. -/
theorem abides_finalAction (xt : Cell) (m : Machine) : m.Abides (endState (finalAction xt m)) :=
  finalAction_steady (Plain.abides m).steady xt m (.refl m)

/-- A token moves the compiler as the action moves it that it leads to. -/
theorem execute_phase {xt : Cell} {action : Action} {m₁ : Machine} (hm : m.Quiet)
    (hfinal : finalAction xt m = .ok action m₁) :
    Ends m.Abides (fun _ m' => action.shift m'.regs.latest m.phase = some m'.phase ∧
      (action = .define .colon → m'.regs.latest = m₁.regs.here)) (execute xt m) := by
  have h₁ := abides_finalAction xt m
  rw [hfinal] at h₁
  rw [execute_eq_finalAction, bind_of_ok hfinal]
  refine (ends_conclude action (h₁.quiet hm)).mono (fun _ => h₁.trans) fun _ m' h => ⟨?_, h.2.2⟩
  exact h₁.phase ▸ h.1

/-- A token moves the compiler only if it leads to one of the four words, and if that succeeds. -/
theorem exists_of_phase_ne {xt : Cell} (hm : m.Quiet)
    (hne : (endState (execute xt m)).phase ≠ m.phase) :
    ∃ word m₁ c m', word.switches = true ∧ finalAction xt m = .ok (.define word) m₁ ∧
      execute xt m = .ok c m' := by
  cases hfinal : finalAction xt m with
  | error e m₁ =>
    have h₁ := abides_finalAction xt m
    rw [hfinal] at h₁
    rw [execute_eq_finalAction, bind_of_error hfinal] at hne
    exact absurd h₁.phase hne
  | ok action m₁ =>
    have hends := execute_phase hm hfinal
    cases hexecute : execute xt m with
    | error e m' =>
      rw [hexecute] at hends hne
      exact absurd hends.phase hne
    | ok c m' =>
      rw [hexecute] at hends hne
      cases hswitches : action.switches with
      | false =>
        have hshift := hends.1
        rw [Action.shift_of_switches_eq_false hswitches] at hshift
        exact absurd (Option.some.inj hshift).symm hne
      | true =>
        cases action with
        | define word => exact ⟨word, m₁, c, m', hswitches, rfl, rfl⟩
        | _ => cases hswitches

end Exec

end CellForth
