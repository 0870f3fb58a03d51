import CellForth.Proofs.History
import CellForth.Proofs.Plots
import CellForth.Proofs.Writes

/-!
# How words move the plots

A `Plan` tells the plots of a machine and whether a definition is open. An action that has succeeded
moves it by rules (`Plan.after`): between definitions, the words that make variables, constants and
created words add a plot, and a colon opens one; whatever adds to the dictionary enlarges the newest
plot if that is one for data, and other words leave the plan alone if they store into data only.
While a definition is open, a semicolon completes its plot.

Inside of a definition the rules ask for nothing as long as only words run that are there to build
it. These keep the open control structures on the data stack, where they find them again, and so
they never leave the definition: the machine is then a draft in the sense of `Machine.Drafting`, for
which all of this is known. When other words have run, be it in brackets, the stack may hold
anything, and from then on the rules ask that nothing is stored below the body of the definition,
that no record is made and that the dictionary does not shrink (`Action.Spares`).

`Machine.Matches` ties a plan to a machine. Every action that succeeds moves the plan that the
machine matches as the rules say, if they say anything (`Machine.Matches.step`).
-/

namespace CellForth

/-- The plots of a machine, newest first, and the definition that is open. -/
inductive Plan where
  /-- No definition is open. -/
  | closed (plots : List Plot)
  /-- The definition of the first plot is open, perhaps with nothing in disorder. -/
  | opened (orderly : Bool) (p : Plot) (plots : List Plot)
  deriving DecidableEq

/-- Is it a word that runs while compiling in order to build the definition, or a comment? -/
def Action.builds : Action → Bool
  | control _ => true
  | define .recurse | define .bracketTick | define .bracketChar => true
  | define .paren | define .backslash => true
  | output .dotQuote => true
  | _ => false

/-- Is it a word that declarations are written with, at a place for it? Between definitions these
are the words that make something and those that add cells to the dictionary, and inside of one the
words that build it. -/
def Action.declares (m : Machine) : Action → Bool
  | define .colon => m.regs.mode = .interpret && m.regs.ip = 0
  | define .create | define .cellVariable | define .constant => m.regs.mode = .interpret
  | storage .allot => m.regs.mode = .interpret && m.dataStack.items.head?.all (0 ≤ Cell.signed ·)
  | define .semicolon => true
  | action => action.builds

/-- From `m` to `m'`, the action has neither made nor completed a record, the dictionary has not
shrunk, and the cell that the action names is above the floor or is one of the data. -/
structure Action.Spares (action : Action) (floor : Nat) (plots : List Plot) (m m' : Machine) :
    Prop where
  /-- The newest record is the same. -/
  latest_eq : m'.regs.latest = m.regs.latest
  /-- The open definition is the same. -/
  defining_eq : m'.regs.defining = m.regs.defining
  /-- The dictionary has not shrunk. -/
  here_le : m.regs.here.toNat ≤ m'.regs.here.toNat
  /-- No cell of a plot is named, other than data. -/
  named : ∀ pos ∈ action.named? m, Plot.Writable floor plots pos

instance (action : Action) (floor : Nat) (plots : List Plot) (m m' : Machine) :
    Decidable (action.Spares floor plots m m') :=
  decidable_of_iff (m'.regs.latest = m.regs.latest ∧ m'.regs.defining = m.regs.defining ∧
      m.regs.here.toNat ≤ m'.regs.here.toNat ∧
      ∀ pos ∈ action.named? m, Plot.Writable floor plots pos)
    ⟨fun ⟨hlatest, hdefining, hhere, hnamed⟩ => ⟨hlatest, hdefining, hhere, hnamed⟩,
      fun ⟨hlatest, hdefining, hhere, hnamed⟩ => ⟨hlatest, hdefining, hhere, hnamed⟩⟩

namespace Plot

/-- The plot of a definition that has just been opened. -/
def opening (address : Nat) (name : List UInt8) : Plot :=
  ⟨.ofFlags address name Runtime.nest.opcode Record.hiddenBit, 0, .code⟩

/-- The plot of a definition that is completed when the dictionary ends at `here`. -/
def completed (here : Nat) (p : Plot) : Plot :=
  ⟨Mark.visible.apply p.entry, here - p.body, .code⟩

/-- The plots after the dictionary has grown by some cells. They go to the newest plot if that is
one for data, and to none otherwise. -/
def enlarge (n : Nat) : List Plot → List Plot
  | [] => []
  | p :: plots =>
    if p.content = .data then { p with size := p.size + n } :: plots else p :: plots

theorem enlarge_zero (plots : List Plot) : enlarge 0 plots = plots := by
  cases plots with
  | nil => rfl
  | cons p plots =>
    rw [enlarge]
    split
    · rfl
    · rfl

end Plot

/-- The plot that a word has made from `m` to `m'`, if it makes variables, constants or the like. -/
def Action.plot? (m m' : Machine) : Action → Option Plot
  | define .create =>
    some ⟨.ofFlags m.regs.here.toNat m'.token Runtime.address.opcode 0, 0, .data⟩
  | define .cellVariable =>
    some ⟨.ofFlags m.regs.here.toNat m'.token Runtime.address.opcode 0, 1, .data⟩
  | define .constant =>
    m.dataStack.items.head?.map fun c =>
      ⟨.ofFlags m.regs.here.toNat m'.token Runtime.constant.opcode 0, 1, .value c⟩
  | _ => none

namespace Plan

/-- Is a definition open in which anything may have run? -/
def isLoose : Plan → Bool
  | opened false _ _ => true
  | _ => false

/-- The plan after an action that has led from `m` to `m'`, if the rules have one. -/
def after (action : Action) (m m' : Machine) : Plan → Option Plan
  | closed plots =>
    if action = .define .colon then
      some (opened (m.regs.ip = 0) (.opening m.regs.here.toNat m'.token) plots)
    else
      match action.plot? m m' with
      | some p => some (closed (p :: plots))
      | none =>
        if m'.regs.mode = m.regs.mode ∧ action.Spares m.regs.here.toNat plots m m' then
          some (closed (Plot.enlarge (m'.regs.here.toNat - m.regs.here.toNat) plots))
        else none
  | opened orderly p plots =>
    if action = .define .semicolon then some (closed (p.completed m'.regs.here.toNat :: plots))
    else if orderly && action.builds then some (opened true p plots)
    else if action.Spares p.body (p :: plots) m m' then some (opened false p plots)
    else none

/-- The plan after an action is performed at a machine, if it succeeds and the rules have one. -/
def advance (plan : Plan) (x : Action × Machine) : Option Plan :=
  match x.1.step x.2 with
  | .ok _ m' => plan.after x.1 x.2 m'
  | .error _ _ => none

/-- The plan after a row of actions. -/
def run (plan : Plan) (xs : List (Action × Machine)) : Option Plan :=
  xs.foldlM advance plan

variable {plots : List Plot} {p : Plot} {action : Action} {m m' : Machine}

theorem after_colon (hip : m.regs.ip = 0) : (closed plots).after (.define .colon) m m' =
    some (opened true (.opening m.regs.here.toNat m'.token) plots) := by
  rw [after, if_pos rfl, decide_eq_true hip]

theorem after_of_plot (hcolon : action ≠ .define .colon) (hplot : action.plot? m m' = some p) :
    (closed plots).after action m m' = some (closed (p :: plots)) := by
  rw [after, if_neg hcolon, hplot]

theorem after_of_spares (hcolon : action ≠ .define .colon) (hplot : action.plot? m m' = none)
    (hmode : m'.regs.mode = m.regs.mode) (hspares : action.Spares m.regs.here.toNat plots m m') :
    (closed plots).after action m m' =
      some (closed (Plot.enlarge (m'.regs.here.toNat - m.regs.here.toNat) plots)) := by
  rw [after, if_neg hcolon, hplot]
  exact if_pos ⟨hmode, hspares⟩

theorem after_semicolon (orderly : Bool) :
    (opened orderly p plots).after (.define .semicolon) m m' =
    some (closed (p.completed m'.regs.here.toNat :: plots)) :=
  rfl

theorem after_of_builds (hbuilds : action.builds = true) :
    (opened true p plots).after action m m' = some (opened true p plots) := by
  have hsemicolon : action ≠ .define .semicolon := by
    rintro rfl
    cases hbuilds
  rw [after, if_neg hsemicolon, hbuilds]
  rfl

theorem run_cons (plan : Plan) (x : Action × Machine) (xs : List (Action × Machine)) :
    plan.run (x :: xs) = (plan.advance x).bind (·.run xs) :=
  List.foldlM_cons

theorem advance_of_ok (hstep : action.step m = .ok () m') (plan : Plan) :
    plan.advance (action, m) = plan.after action m m' := by
  rw [advance, hstep]

end Plan

/-! ### Plans and machines -/

namespace Machine

/-- No definition is open, and the newest plot can grow with the dictionary. -/
structure Idle (m : Machine) (plots : List Plot) : Prop extends
    m.HasPlots m.regs.here.toNat plots none where
  /-- Words are run. -/
  mode_eq : m.regs.mode = .interpret
  /-- If the newest plot is one for data, it ends where the dictionary does. -/
  full : ∀ p ∈ plots.head?, p.content = .data → p.stop = m.regs.here.toNat

/-- The definition of a plot is open, and its draft is all that has been added. -/
def Drafted (m : Machine) (p : Plot) (plots : List Plot) : Prop :=
  ∃ (m₀ : Machine) (name : List UInt8) (d : Draft), m₀.Idle plots ∧ m₀.regs.ip = 0 ∧
    name.length ≤ Record.maxNameLength ∧ p = .opening m₀.regs.here.toNat name ∧ m₀.Drafting name d m

/-- The machine is as the plan says. -/
def Matches (m : Machine) : Plan → Prop
  | .closed plots => m.Idle plots
  | .opened true p plots => m.Drafted p plots
  | .opened false p plots => m.HasPlots p.body (p :: plots) (some p.entry.address)

end Machine

/-! ### Words that make a plot -/

namespace Exec

variable {m m' : Machine}

/-- A name that was read is the token that was read last. -/
theorem parseName_ok {name : List UInt8} (h : parseName m = .ok name m') :
    ∃ input, m' = { m with token := name, input := input } := by
  obtain ⟨_, m₁, hword, hname⟩ := exists_of_bind_ok h
  obtain ⟨hname, rfl⟩ := observe_eq_ok_iff.mp hname
  unfold parseWord at hword
  split at hword <;> cases hword
  split at hname <;> cases hname
  exact ⟨_, rfl⟩

/-- An item that was looked at is on top. -/
theorem peek_ok (hm : m.Ordered) {c : Cell} (h : peek m = .ok c m') :
    m.dataStack.items.head? = some c ∧ m' = m := by
  cases hitems : m.dataStack.items with
  | nil =>
    have hnone : Stack.peek m.dataStack = _ :=
      hm.dataStack.pick_of_none (n := 0) (by rw [hitems]; rfl)
    rw [peek, onData_of_error hnone] at h
    cases h
  | cons top rest =>
    have hsome : Stack.peek m.dataStack = _ :=
      hm.dataStack.pick_of_some (n := 0) (by rw [hitems]; rfl)
    rw [peek, onData_of_ok hsome] at h
    cases h
    exact ⟨rfl, rfl⟩

/-- A structure that was opened had room on the stack. -/
theorem pushControl_ok (hm : m.Ordered) {address : Cell} {tag : ControlTag} {u : Unit}
    (h : pushControl address tag m = .ok u m') : 2 ≤ m.dataStack.room := by
  refine Nat.le_of_not_lt fun hlt => ?_
  have hfull : ¬m.dataStack.Fits 0 [address, tag.cell] := fun hfits => by
    have hroom : [address, tag.cell].length ≤ 0 + m.dataStack.room := hfits.2
    rw [List.length_cons, List.length_singleton] at hroom
    omega
  rw [pushControl, onData_of_error (hm.dataStack.pushTwo_of_not_fits hfull)] at h
  cases h

end Exec

namespace Machine

variable {m m' : Machine} {floor : Nat} {plots : List Plot} {opened : Option Nat} {p : Plot}

/-- A record that has been added is the newest plot. -/
theorem HasPlots.grown (h : m.HasPlots m.regs.here.toNat plots opened)
    (haddress : p.entry.address = m.regs.here.toNat)
    (hlength : p.entry.name.length ≤ Record.maxNameLength)
    (g : m.Grown m' p.entry.name p.entry.header p.entry.code)
    (hdefining : m'.regs.defining = m.regs.defining) (htable : m'.table = m.table)
    (hstop : p.stop ≤ floor) (hfloor : floor ≤ m'.regs.here.toNat) (hsuits : p.Suits m'.memory)
    (himmediate : p.entry.immediate = false) : m'.HasPlots floor (p :: plots) opened where
  book := h.book.grown haddress hlength g hdefining
  floor_le := hfloor
  apart := ⟨hstop, haddress ▸ h.apart⟩
  suits := by
    -- Older plots end below the record, where the memory is the same.
    rw [List.forall_mem_cons]
    refine ⟨hsuits, fun q hq => Plot.Suits.congr (h.suits q hq) fun _ hlt => g.agree q.body ?_⟩
    exact Nat.lt_of_lt_of_le hlt (h.apart.stop_le hq)
  table_eq := htable ▸ h.table_eq
  patient := by
    rw [List.forall_mem_cons]
    exact ⟨fun htrue => absurd (himmediate.symm.trans htrue) (by decide), h.patient⟩

namespace Idle

theorem isCompiling_eq (h : m.Idle plots) : m.regs.isCompiling = false := by
  rw [Registers.isCompiling, h.mode_eq]
  rfl

theorem deviceFree (plots : List Plot) : DeviceFree (·.Idle plots) :=
  fun m input output token journal h =>
    { h with
      toHasPlots := HasPlots.deviceFree _ _ _ m input output token journal h.toHasPlots }

theorem replaceData (h : m.Idle plots) {n : Nat} {vs : List Cell} (hfits : m.dataStack.Fits n vs) :
    (m.replaceData n vs).Idle plots :=
  { h with toHasPlots := h.toHasPlots.replaceData hfits }

end Idle

/-- The newest plot may reach up to the end of the dictionary, and be for something else. -/
theorem HasPlots.resize (h : m.HasPlots floor (p :: plots) opened) {q : Plot}
    (hentry : q.entry = p.entry) (hstop : q.stop ≤ m.regs.here.toNat) (hsuits : q.Suits m.memory) :
    m.HasPlots m.regs.here.toNat (q :: plots) opened where
  book := by
    have hledger : Plot.ledger (q :: plots) = Plot.ledger (p :: plots) := by
      rw [Plot.ledger, List.map_cons, hentry, ← List.map_cons, ← Plot.ledger]
    rw [hledger]
    exact h.book
  floor_le := Nat.le_refl _
  apart := ⟨hstop, hentry ▸ h.apart.2⟩
  suits := List.forall_mem_cons.mpr ⟨hsuits, (List.forall_mem_cons.mp h.suits).2⟩
  table_eq := h.table_eq
  patient := List.forall_mem_cons.mpr
    ⟨hentry ▸ (List.forall_mem_cons.mp h.patient).1, (List.forall_mem_cons.mp h.patient).2⟩

namespace Idle

/-- A record without anything behind it is a plot up to the end of the dictionary. -/
theorem createRecord (h : m.Idle plots) {name : List UInt8} {code : Cell} {r : Record}
    (hcreate : Exec.createRecord name code 0 m = .ok r m') (content : Content)
    (hsuits : Plot.Suits m'.memory ⟨.ofFlags m.regs.here.toNat name code 0, 0, content⟩) :
    m'.Idle (⟨.ofFlags m.regs.here.toNat name code 0, 0, content⟩ :: plots) ∧
      Plot.stop ⟨.ofFlags m.regs.here.toNat name code 0, 0, content⟩ = m'.regs.here.toNat := by
  obtain ⟨hlength, hroom, -, journal, rfl⟩ := Exec.createRecord_ok h.within.ordered hcreate
  have hhere := toNat_here_addRecord h.within code 0 journal hroom
  have g := grown_addRecord h.within code 0 journal hlength hroom
  rw [← Entry.header_ofFlags m.regs.here.toNat name code 0] at g
  have hstop : Plot.stop ⟨.ofFlags m.regs.here.toNat name code 0, 0, content⟩ =
      (m.addRecord name code 0 journal).regs.here.toNat := by
    rw [hhere]
    simp only [Plot.stop, Plot.body, Entry.codeField, Entry.ofFlags, Record.cellsFor]
    omega
  have himmediate : (Entry.ofFlags m.regs.here.toNat name code 0).immediate = false := by
    simp [Entry.ofFlags]
  have hplots := h.toHasPlots.grown (p := ⟨.ofFlags m.regs.here.toNat name code 0, 0, content⟩) rfl
    hlength g rfl rfl (Nat.le_of_eq hstop) (Nat.le_refl _) hsuits himmediate
  exact ⟨⟨hplots, h.mode_eq, fun q hq _ => by cases hq; exact hstop⟩, hstop⟩

theorem create (h : m.Idle plots) {u : Unit} (hcreate : Exec.create m = .ok u m') :
    m'.Idle (⟨.ofFlags m.regs.here.toNat m'.token Runtime.address.opcode 0, 0, .data⟩ ::
      plots) := by
  obtain ⟨name, m₁, hparse, hrest⟩ := exists_of_bind_ok hcreate
  obtain ⟨r, m₂, hrecord, hdone⟩ := exists_of_bind_ok hrest
  obtain ⟨input, rfl⟩ := Exec.parseName_ok hparse
  cases hdone
  have h₁ := deviceFree plots m input m.output name m.journal h
  have htoken : m'.token = name := by
    obtain ⟨-, -, -, journal, rfl⟩ := Exec.createRecord_ok h₁.within.ordered hrecord
    rfl
  rw [htoken]
  exact (h₁.createRecord hrecord .data rfl).1

/-- A plot up to the end of the dictionary may take in the cells that are added. -/
theorem append (h : m.Idle (p :: plots)) (hstop : p.stop = m.regs.here.toNat) {cs : List Cell}
    (hroom : cs.length ≤ m.unused) {content : Content}
    (hsuits : Plot.Suits (m.append cs).memory ⟨p.entry, p.size + cs.length, content⟩) :
    (m.append cs).Idle (⟨p.entry, p.size + cs.length, content⟩ :: plots) := by
  have hhere := h.within.toNat_here_append hroom
  have hnew : Plot.stop ⟨p.entry, p.size + cs.length, content⟩ = (m.append cs).regs.here.toNat := by
    rw [hhere, ← hstop]
    exact (Nat.add_assoc ..).symm
  exact ⟨(h.toHasPlots.append hroom).resize rfl (Nat.le_of_eq hnew) hsuits, h.mode_eq,
    fun q hq _ => by cases hq; exact hnew⟩

/-- A value behind the record of a constant belongs to it. -/
theorem append_value (h : m.Idle (p :: plots)) (hstop : p.stop = m.regs.here.toNat)
    (hsize : p.size = 0) (hcode : p.entry.code = Runtime.constant.opcode) (c : Cell)
    (hroom : [c].length ≤ m.unused) :
    (m.append [c]).Idle (⟨p.entry, p.size + 1, .value c⟩ :: plots) := by
  refine h.append hstop hroom ⟨hcode, Nat.succ_pos _, ?_⟩
  have hbody : p.body = m.regs.here.toNat := by
    rw [← hstop, Plot.stop, hsize, Nat.add_zero]
  have hunused := h.within.here_add_unused
  have hle := h.within.dataBase_le_size
  show (m.memory.overlay m.regs.here.toNat [c]).cells[p.body]? = some c
  rw [hbody]
  exact Memory.cells_overlay_add (i := 0) Nat.one_pos (by omega)

/-- The words that make variables, constants and the like add the plot that they are said to
make. -/
theorem step_of_plot (h : m.Idle plots) {action : Action} (hplot : action.plot? m m' = some p)
    (hstep : action.step m = .ok () m') : m'.Idle (p :: plots) := by
  unfold Action.plot? at hplot
  split at hplot
  · cases hplot
    exact h.create hstep
  · cases hplot
    obtain ⟨_, m₁, hcreate, hcompile⟩ := exists_of_bind_ok hstep
    have h₁ := h.create hcreate
    obtain ⟨rfl, hroom⟩ := Exec.compileCell_ok h₁.within.ordered hcompile
    exact h₁.append (h₁.full _ rfl rfl) (show [(0 : Cell)].length ≤ _ from hroom) rfl
  · obtain ⟨c, m₁, hpop, hrest⟩ := exists_of_bind_ok hstep
    obtain ⟨name, m₂, hparse, hrest⟩ := exists_of_bind_ok hrest
    obtain ⟨r, m₃, hcreate, hcompile⟩ := exists_of_bind_ok hrest
    obtain ⟨hhead, hfits, rfl⟩ := Exec.pop_ok h.within.ordered hpop
    obtain ⟨input, rfl⟩ := Exec.parseName_ok hparse
    have h₂ := deviceFree plots _ input m.output name m.journal (h.replaceData hfits)
    obtain ⟨h₃, hstop⟩ := h₂.createRecord hcreate .code trivial
    obtain ⟨-, -, -, journal, rfl⟩ := Exec.createRecord_ok h₂.within.ordered hcreate
    obtain ⟨rfl, hroom⟩ := Exec.compileCell_ok h₃.within.ordered hcompile
    rw [hhead] at hplot
    cases hplot
    exact h₃.append_value hstop rfl rfl c hroom
  · cases hplot

end Idle

/-! ### Words that leave the records alone -/

/-- An action that has succeeded has kept the regions in order. -/
theorem WithinRegions.step (h : m.WithinRegions) {action : Action}
    (hstep : action.step m = .ok () m') :
    m'.WithinRegions :=
  (Elementary.withinRegions.lasting.step action).of_ok hstep h

/-- Opcodes keep their meaning unless words are registered. -/
theorem table_of_step {action : Action} (hinstalls : action.installs = false)
    (hstep : action.step m = .ok () m') : m'.table = m.table := by
  have hbasic : Basic fun m₁ : Machine => m₁.table = m.table :=
    .of_alike fun _ _ halike heq => halike.table.trans heq
  have hdevices : DeviceFree fun m₁ : Machine => m₁.table = m.table := hbasic.devices
  have hkeeps : Keeps (fun m₁ : Machine => m₁.table = m.table) action.step := by
    cases hreads : action.reads with
    | true =>
      exact hbasic.hereditary.step_of_reads hdevices.parse hdevices.readByte
        hdevices.parseWord hreads
    | false => exact hbasic.hereditary.step_of_reads_names hreads hinstalls
  exact hkeeps.of_ok hstep rfl

/-- Every cell that an action has changed is behind the dictionary as it was, or the action names
it. -/
theorem WithinRegions.changed_step (h : m.WithinRegions) {action : Action}
    (hstep : action.step m = .ok () m') {pos : Nat} (hchanged : m.Changed m' pos) :
    m.regs.here.toNat ≤ pos ∨ action.named? m = some pos := by
  have hhere := h.here_le_dataBase
  have hreturn : m.regs.dataBase.toNat ≤ m.regs.returnBase.toNat :=
    h.dataLimit_eq ▸ Nat.le_trans h.dataBase_le_sp h.sp_le_dataLimit
  by_cases hallot : action = .storage .allot
  · subst hallot
    have hmemory := Exec.memory_step_allot h.ordered
    rw [hstep] at hmemory
    exact absurd (congrArg (fun memory : Memory => memory.cells[pos]?) hmemory) hchanged
  · have hframes := Exec.kept_step action hallot m h.ordered
    rw [hstep] at hframes
    rcases hframes.cells hchanged with (⟨hle, -⟩ | ⟨hle, -⟩ | ⟨hle, -⟩) | hnamed
    · exact .inl (by omega)
    · exact .inl (by omega)
    · exact .inl hle
    · exact .inr hnamed

/-- A word that spares the plots leaves them as they are. -/
theorem HasPlots.step (h : m.HasPlots floor plots opened) {action : Action}
    (hstep : action.step m = .ok () m') (hspares : action.Spares floor plots m m') :
    m'.HasPlots floor plots opened := by
  have hinstalls : action.installs = false := by
    cases action with
    | install set =>
      -- The words of a set have records, and the last of them would be the newest one.
      have hlatest := Exec.here_le_latest_of_install h.within.ordered hstep
      have hpos : 0 < m.regs.here.toNat := Nat.lt_of_lt_of_le (by decide) h.within.start_le_here
      rw [hspares.latest_eq, h.book.latest_eq] at hlatest
      exact absurd (h.book.stands.newest_lt hpos) (Nat.not_lt.mpr hlatest)
    | _ => rfl
  refine h.of_changed (h.within.step hstep) (table_of_step hinstalls hstep) hspares.latest_eq
    hspares.defining_eq
    (Nat.le_trans h.floor_le hspares.here_le) fun pos hchanged => ?_
  rcases h.within.changed_step hstep hchanged with hle | hnamed
  · exact .inl (Nat.le_trans h.floor_le hle)
  · exact hspares.named pos hnamed

/-- The floor may be raised to the end of the dictionary. -/
theorem HasPlots.raise (h : m.HasPlots floor plots opened) :
    m.HasPlots m.regs.here.toNat plots opened :=
  { h with floor_le := Nat.le_refl _, apart := h.apart.mono h.floor_le }

/-- What is added to the dictionary goes to the newest plot, if that is one for data. -/
theorem Idle.enlarge (h : m.Idle plots) (hafter : m'.HasPlots m.regs.here.toNat plots none)
    (hmode : m'.regs.mode = m.regs.mode) :
    m'.Idle (Plot.enlarge (m'.regs.here.toNat - m.regs.here.toNat) plots) := by
  have hle := hafter.floor_le
  have hinterpret := hmode.trans h.mode_eq
  cases plots with
  | nil => exact ⟨hafter.raise, hinterpret, by simp [Plot.enlarge]⟩
  | cons p plots =>
    rw [Plot.enlarge]
    split
    · rename_i hdata
      have hsum : p.body + p.size = m.regs.here.toNat := h.full p rfl hdata
      have hsuits : p.Suits m.memory := h.suits p List.mem_cons_self
      rw [Plot.Suits, hdata] at hsuits
      have hstop : Plot.stop ⟨p.entry, p.size + (m'.regs.here.toNat - m.regs.here.toNat), .data⟩ =
          m'.regs.here.toNat := by
        show p.body + (p.size + _) = _
        omega
      rw [hdata]
      exact ⟨hafter.resize rfl (Nat.le_of_eq hstop) hsuits, hinterpret,
        fun q hq _ => by cases hq; exact hstop⟩
    · rename_i hother
      exact ⟨hafter.raise, hinterpret, fun q hq hdata => by cases hq; exact absurd hdata hother⟩

/-! ### Opening and completing a definition -/

/-- A draft is a machine with plots, of which the newest is open. -/
theorem Drafting.hasPlots {m₀ : Machine} {name : List UInt8} {d : Draft} (h : m₀.Drafting name d m)
    (hidle : m₀.Idle plots) (hlength : name.length ≤ Record.maxNameLength) :
    m.HasPlots (Plot.opening m₀.regs.here.toNat name).body
      (.opening m₀.regs.here.toNat name :: plots) (some m₀.regs.here.toNat) := by
  let p := Plot.opening m₀.regs.here.toNat name
  have hbody : p.body = m₀.codeStart name := by
    simp only [p, Plot.opening, Plot.body, Entry.codeField, Entry.ofFlags, codeStart,
      Record.cellsFor]
    omega
  have hfloor : p.body ≤ m.regs.here.toNat := by
    rw [hbody, h.here]
    exact Nat.le_add_right _ _
  have himmediate : p.entry.immediate = false := by
    simp [p, Plot.opening, Entry.ofFlags]
    decide
  -- As long as the register names no open definition, only a record has been added.
  have hsettled := h.settle m.regs.mode m₀.regs.defining m.journal
  have g := hsettled.grown
  rw [← Entry.header_ofFlags m₀.regs.here.toNat name Runtime.nest.opcode Record.hiddenBit] at g
  have hplots := hidle.toHasPlots.grown (p := p) rfl hlength g rfl
    (show m.table = m₀.table from congrArg (·.table) h.rest) (Nat.le_refl p.body) hfloor trivial
    himmediate
  have hmem : m₀.regs.here.toNat ∈ (Plot.ledger (p :: plots)).addresses := List.mem_cons_self
  have hbook := hplots.book.openDefinition hmem m.regs.mode
  have hregister : UInt16.ofNat m₀.regs.here.toNat = m.regs.defining := by
    rw [UInt16.ofNat_toNat, h.defining_eq]
  rw [hregister] at hbook
  exact { hplots with book := hbook }

/-- A colon that has succeeded has opened a draft on what there was, the name read. -/
theorem Idle.beginDefinition (h : m.Idle plots) (hstep : Exec.beginDefinition m = .ok () m') :
    ∃ (m₀ : Machine) (name : List UInt8), m'.token = name ∧ m₀.regs = m.regs ∧ m₀.Idle plots ∧
      name.length ≤ Record.maxNameLength ∧ m₀.Drafting name .empty m' := by
  obtain ⟨_, m₁, hnesting, hnamed⟩ := exists_of_bind_ok hstep
  obtain ⟨-, rfl⟩ := observe_eq_ok_iff.mp hnesting
  obtain ⟨name, m₂, hparse, hmade⟩ := exists_of_bind_ok hnamed
  obtain ⟨r, m₃, hcreate, hopened⟩ := exists_of_bind_ok hmade
  obtain ⟨_, m₄, hpush, hdone⟩ := exists_of_bind_ok hopened
  obtain ⟨input, rfl⟩ := Exec.parseName_ok hparse
  have h₂ := deviceFree plots m₁ input m₁.output name m₁.journal h
  obtain ⟨hlength, hroom, haddress, journal, rfl⟩ := Exec.createRecord_ok h₂.within.ordered hcreate
  have hregister : UInt16.ofNat r.address = m₁.regs.here := by
    rw [haddress, UInt16.ofNat_toNat]
  simp only [hregister] at hpush hdone
  -- What the colon has pushed is the entry of the definition, which makes the machine a draft.
  have hafter :=
    (grown_addRecord h₂.within Runtime.nest.opcode Record.hiddenBit journal hlength hroom).after
  have hitems := Exec.pushControl_ok hafter.ordered hpush
  obtain ⟨m₅, hpushed, hdrafting⟩ := drafting_addRecord h₂.within journal hlength hroom hitems
  obtain rfl : m₄ = m₅ := by
    rw [hpushed] at hpush
    cases hpush
    rfl
  cases hdone
  have hdraft := hdrafting (m₄.journal.record (.defining name))
  have htoken : m₄.token = name := congrArg (·.token) hdraft.rest
  exact ⟨{ m₁ with token := name, input := input }, name, htoken, rfl, h₂, hlength, hdraft⟩

/-- After a semicolon, words are run. -/
theorem mode_of_endDefinition (hstep : Exec.endDefinition m = .ok () m') :
    m'.regs.mode = .interpret := by
  obtain ⟨_, m₁, -, hrest⟩ := exists_of_bind_ok hstep
  obtain ⟨address, m₂, -, hrest⟩ := exists_of_bind_ok hrest
  obtain ⟨_, m₃, -, hrest⟩ := exists_of_bind_ok hrest
  obtain ⟨_, m₄, -, hrest⟩ := exists_of_bind_ok hrest
  obtain ⟨_, m₅, -, hrest⟩ := exists_of_bind_ok hrest
  rw [Exec.bind_setRegs] at hrest
  have hnote : Keeps (fun m : Machine => m.regs.mode = .interpret) (Exec.noteDefinition address) :=
    .bind (.observe _) fun _ =>
      .ite (.bind (.observe _) fun _ => .bind (.reg _) fun _ => fun _ h => h) (.pure _)
  exact hnote.of_ok hrest rfl

/-- A semicolon that has succeeded has completed the plot of the open definition. -/
theorem HasPlots.endDefinition (h : m.HasPlots p.body (p :: plots) (some p.entry.address))
    (hstep : Exec.endDefinition m = .ok () m') :
    m'.Idle (p.completed m'.regs.here.toNat :: plots) := by
  have haction : (Action.define .semicolon).step m = .ok () m' := hstep
  have hle : m.regs.here.toNat ≤ m'.regs.here.toNat := by
    have hframes := Exec.kept_step (.define .semicolon) (by simp) m h.within.ordered
    rw [haction] at hframes
    exact hframes.here_le
  have hfloor := h.floor_le
  have hstop : (p.completed m'.regs.here.toNat).stop = m'.regs.here.toNat := by
    show p.body + (m'.regs.here.toNat - p.body) = m'.regs.here.toNat
    omega
  have hbook := h.book.endDefinition
  rw [hstep] at hbook
  have hledger : Ledger.mark p.entry.address .visible (Plot.ledger (p :: plots)) =
      Plot.ledger (p.completed m'.regs.here.toNat :: plots) :=
    Ledger.mark_cons_self .visible (List.nodup_cons.mp h.stands.nodup).1
  obtain ⟨-, hsuits⟩ := List.forall_mem_cons.mp h.suits
  obtain ⟨hpatient, hothers⟩ := List.forall_mem_cons.mp h.patient
  refine ⟨⟨?_, Nat.le_refl _, ⟨Nat.le_of_eq hstop, h.apart.2⟩, ?_, ?_, ?_⟩,
    mode_of_endDefinition hstep, fun q hq _ => by cases hq; exact hstop⟩
  · rw [← hledger]
    exact hbook
  · refine List.forall_mem_cons.mpr ⟨trivial, fun q hq => ?_⟩
    refine Plot.Suits.congr (hsuits q hq) fun _ hlt => not_not.mp fun hchanged => ?_
    -- Only the header of the record has changed, and what is behind the dictionary.
    have holder := h.apart.2.stop_le hq
    have hbody := p.address_lt_body
    rcases h.within.changed_step haction hchanged with hbehind | hnamed
    · omega
    · have hheader : headerAddress m.regs.defining.toNat = q.body := Option.some.inj hnamed
      rw [h.book.defining_eq] at hheader
      have haddress : p.entry.address + 1 = q.body := hheader
      omega
  · exact table_of_step rfl haction ▸ h.table_eq
  · exact List.forall_mem_cons.mpr ⟨hpatient, hothers⟩

/-! ### Building a draft -/

/-- What has been read and written, and the journal, do not matter for a definition. -/
theorem WithDefinition.devices {m₀ : Machine} {name : List UInt8} {header : Cell}
    {code top : List Cell} (h : m₀.WithDefinition name header code top m) (input : Source)
    (output : Sink) (token : List UInt8) (journal : Journal) :
    ({ m₀ with input := input, output := output, token := token } : Machine).WithDefinition name
      header code top
      { m with input := input, output := output, token := token, journal := journal } where
  grown := { h.grown with before := { h.grown.before with }, after := { h.grown.after with } }
  here := h.here
  code := h.code
  items := h.items
  rest := congrArg
    (fun m : Machine =>
      { m with input := input, output := output, token := token, journal := journal }) h.rest

namespace Drafted

theorem isCompiling_eq (h : m.Drafted p plots) : m.regs.isCompiling = true := by
  obtain ⟨m₀, name, d, -, -, -, -, h⟩ := h
  exact decide_eq_true h.mode_eq

theorem deviceFree (p : Plot) (plots : List Plot) : DeviceFree (·.Drafted p plots) := by
  rintro m input output token journal ⟨m₀, name, d, hidle, hip, hlength, rfl, h⟩
  refine ⟨{ m₀ with input := input, output := output, token := token }, name, d, ?_, hip, hlength,
    rfl, ?_⟩
  · exact Idle.deviceFree plots m₀ input output token m₀.journal hidle
  · exact ⟨h.toWithDefinition.devices input output token journal, h.mode_eq, h.defining_eq,
      h.places⟩

theorem withW (h : m.Drafted p plots) (xt : Cell) : (m.withW xt).Drafted p plots := by
  obtain ⟨m₀, name, d, hidle, hip, hlength, rfl, h⟩ := h
  have hinput : m.input = m₀.input := congrArg (·.input) h.rest
  have htoken : m.token = m₀.token := congrArg (·.token) h.rest
  -- A draft has the token and the input that its definition was begun with.
  have hsame : m.withW xt =
      { m with token := m₀.token, input := m₀.input, regs := { m.regs with w := xt } } := by
    rw [← hinput, ← htoken]
    rfl
  rw [hsame]
  exact ⟨m₀, name, d, hidle, hip, hlength, rfl, h.reread m₀.token m₀.input m₀.regs.w xt⟩

/-- Operations that are operations on drafts keep a draft. -/
theorem keeps {α β : Type} {V : α → β → Prop} {op : Exec α}
    {draft : Machine → List UInt8 → EStateM Fault Draft β}
    (hop : ∀ (m₀ : Machine) (name : List UInt8), m₀.Drafts name V op (draft m₀ name)) :
    Keeps (·.Drafted p plots) op := by
  rintro m ⟨m₀, name, d, hidle, hip, hlength, rfl, h⟩
  have hrelated := hop m₀ name m d h
  cases hrun : op m with
  | ok a m' =>
    rw [hrun] at hrelated
    obtain ⟨-, d', -, -, h'⟩ := hrelated.of_ok
    exact ⟨m₀, name, d', hidle, hip, hlength, rfl, h'⟩
  | error e m' =>
    rw [hrun] at hrelated
    obtain ⟨d', -, h'⟩ := hrelated.of_error
    exact ⟨m₀, name, d', hidle, hip, hlength, rfl, h'⟩

theorem compileCell (c : Cell) : Keeps (·.Drafted p plots) (Exec.compileCell c) :=
  keeps fun _ _ => drafts_compileCell c

theorem compileInteger (c : Cell) : Keeps (·.Drafted p plots) (Exec.compileInteger c) :=
  .bind (compileCell _) fun _ => compileCell c

theorem compileString (bs : List UInt8) : Keeps (·.Drafted p plots) (Exec.compileString bs) := by
  rintro m ⟨m₀, name, d, hidle, hip, hlength, rfl, h⟩
  rw [Exec.compileString_eq h.grown.after.ordered]
  split
  · rename_i hroom
    have hunused := h.unused_eq
    have hcode := h.length_code_le
    have hfits : d.code.length + (Memory.stringCells bs).length ≤ (m₀.limits name).cells := by
      rw [Memory.length_stringCells]
      omega
    exact ⟨m₀, name, ⟨_, d.pending⟩, hidle, hip, hlength, rfl, h.append hfits, h.mode_eq,
      h.defining_eq, h.places⟩
  · exact ⟨m₀, name, d, hidle, hip, hlength, rfl, h⟩

/-- The words that build a definition keep it a draft. -/
theorem step_of_builds {action : Action} (hbuilds : action.builds = true) :
    Keeps (·.Drafted p plots) action.step := by
  unfold Action.builds at hbuilds
  have hdevices := deviceFree p plots
  split at hbuilds
  · exact keeps fun _ _ => drafts_perform _
  · exact .bind (.observe _) fun _ => .bind (.observe _) fun _ => .bind (.observe _) fun _ =>
      compileCell _
  · exact .bind (.observe _) fun _ => .bind hdevices.parseToken fun _ => compileInteger _
  · exact .bind (.observe _) fun _ => .bind hdevices.parseChar fun _ => compileInteger _
  · exact .bind (hdevices.parse _) fun _ => .pure _
  · exact .bind (hdevices.parse _) fun _ => .pure _
  · exact .bind (hdevices.parse _) fun _ => .bind (.reg _) fun _ =>
      .ite (.bind (compileCell _) fun _ => compileString _) (hdevices.write _)
  · cases hbuilds

/-- The plots of a draft. -/
theorem hasPlots (h : m.Drafted p plots) :
    m.HasPlots p.body (p :: plots) (some p.entry.address) := by
  obtain ⟨m₀, name, d, hidle, -, hlength, rfl, h⟩ := h
  exact h.hasPlots hidle hlength

end Drafted

/-! ### Plans move with the machine -/

/-- A definition that is open is one with plots, whether it is a draft or not. -/
theorem Matches.hasPlots {orderly : Bool} (h : m.Matches (.opened orderly p plots)) :
    m.HasPlots p.body (p :: plots) (some p.entry.address) := by
  cases orderly with
  | true => exact Drafted.hasPlots h
  | false => exact h

/-- If no definition is open in the machine, none is open in the plan. -/
theorem Matches.exists_closed {plan : Plan} (h : m.Matches plan) (hdefining : m.regs.defining = 0) :
    ∃ plots, plan = .closed plots := by
  cases plan with
  | closed plots => exact ⟨plots, rfl⟩
  | opened orderly p plots =>
    have hplots := h.hasPlots
    have hopened : m.regs.defining.toNat = p.entry.address := hplots.book.defining_eq
    have hstart := (hplots.stands.mem_bounds _ (HasPlots.mem_ledger List.mem_cons_self)).1
    rw [← hopened, hdefining] at hstart
    cases hstart

/-- An action that succeeds takes the machine to one that matches what the rules say. -/
theorem Matches.step {plan plan' : Plan} (h : m.Matches plan) {action : Action}
    (hstep : action.step m = .ok () m') (hplan : plan.after action m m' = some plan') :
    m'.Matches plan' := by
  cases plan with
  | closed plots =>
    rw [Plan.after] at hplan
    split at hplan
    · rename_i hcolon
      subst hcolon
      cases hplan
      obtain ⟨m₀, _, rfl, hregs, hidle, hlength, hdraft⟩ := Idle.beginDefinition h hstep
      rw [← hregs]
      -- In threaded code, the rest of the thread will run inside of the definition.
      by_cases hip : m₀.regs.ip = 0
      · rw [decide_eq_true hip]
        exact ⟨m₀, m'.token, .empty, hidle, hip, hlength, rfl, hdraft⟩
      · rw [decide_eq_false hip]
        exact hdraft.hasPlots hidle hlength
    · split at hplan
      · rename_i hplot
        cases hplan
        exact Idle.step_of_plot h hplot hstep
      · split at hplan
        · rename_i hspares
          cases hplan
          exact Idle.enlarge h (HasPlots.step (Idle.toHasPlots h) hstep hspares.2) hspares.1
        · cases hplan
  | opened orderly p plots =>
    rw [Plan.after] at hplan
    split at hplan
    · rename_i hsemicolon
      subst hsemicolon
      cases hplan
      exact h.hasPlots.endDefinition hstep
    · split at hplan
      · rename_i hbuilds
        cases hplan
        obtain ⟨rfl, hbuilds⟩ := Bool.and_eq_true_iff.mp hbuilds
        have hkept := Drafted.step_of_builds hbuilds m h
        rw [hstep] at hkept
        exact hkept
      · split at hplan
        · rename_i hspares
          cases hplan
          exact h.hasPlots.step hstep hspares
        · cases hplan

end Machine

/-! ### Declarations are within the rules -/

namespace Action

variable {m m' : Machine} {floor : Nat} {plots : List Plot}

/-- A word that leaves the registers alone, and names no cell, spares everything. -/
theorem spares_of_regs_eq {action : Action} (hregs : m'.regs = m.regs)
    (hnamed : action.named? m = none) :
    action.Spares floor plots m m' := by
  refine ⟨by rw [hregs], by rw [hregs], by rw [hregs], fun pos hpos => ?_⟩
  rw [hnamed] at hpos
  cases hpos

/-- Adding cells to the dictionary spares everything. -/
theorem spares_allot (hm : m.Ordered) (hn : ∀ n ∈ m.dataStack.items.head?, 0 ≤ Cell.signed n)
    (hstep : (storage .allot).step m = .ok () m') :
    m'.regs.mode = m.regs.mode ∧ (storage .allot).Spares floor plots m m' := by
  obtain ⟨n, m₁, hpeek, hrest⟩ := exists_of_bind_ok hstep
  obtain ⟨_, m₂, hallot, hdrop⟩ := exists_of_bind_ok hrest
  obtain ⟨hhead, rfl⟩ := Exec.peek_ok hm hpeek
  have hpos := hn n hhead
  rw [Exec.allot_eq] at hallot
  split at hallot
  · rename_i hle
    split at hallot
    · cases hallot
      have hregs : m'.regs = { m₁.regs with
          here := UInt16.ofNat ((m₁.regs.here.toNat : Int) + Cell.signed n).toNat
          sp := m'.regs.sp } := by
        rw [Exec.onData_eq] at hdrop
        split at hdrop <;> cases hdrop
        rfl
      have hlt := m₁.regs.dataBase.toNat_lt
      have hhere : (UInt16.ofNat ((m₁.regs.here.toNat : Int) + Cell.signed n).toNat).toNat =
          ((m₁.regs.here.toNat : Int) + Cell.signed n).toNat := Cell.toNat_ofNat (by omega)
      refine ⟨by rw [hregs], by rw [hregs], by rw [hregs], ?_, by simp [named?]⟩
      rw [hregs]
      show _ ≤ (UInt16.ofNat ((m₁.regs.here.toNat : Int) + Cell.signed n).toNat).toNat
      omega
    · cases hallot
  · cases hallot

end Action

namespace Machine

variable {m m' : Machine} {plots : List Plot} {p : Plot}

/-- Between definitions, a comment or a text to be written leaves the registers alone, and the other
words that build a definition are refused. -/
theorem Idle.regs_of_builds (h : m.Idle plots) {action : Action} (hbuilds : action.builds = true)
    (hstep : action.step m = .ok () m') : m'.regs = m.regs ∧ action.named? m = none := by
  have hrefused {f : Unit → Exec Unit} (hok : (Exec.requireCompiling >>= f) m = .ok () m') :
      False := by
    obtain ⟨_, m₁, hcompiling, -⟩ := exists_of_bind_ok hok
    have hmode := demand_eq_ok_iff.mp (observe_eq_ok_iff.mp hcompiling).1
    rw [h.isCompiling_eq] at hmode
    cases hmode
  have hdevices : DeviceFree fun m₁ : Machine => m₁.regs = m.regs := fun _ _ _ _ _ heq => heq
  unfold Action.builds at hbuilds
  split at hbuilds
  · exact (hrefused hstep).elim
  · exact (hrefused hstep).elim
  · exact (hrefused hstep).elim
  · exact (hrefused hstep).elim
  · have hkeeps : Keeps (fun m₁ : Machine => m₁.regs = m.regs) (DefiningWord.paren).perform :=
      .bind (hdevices.parse _) fun _ => .pure _
    exact ⟨hkeeps.of_ok hstep rfl, rfl⟩
  · have hkeeps : Keeps (fun m₁ : Machine => m₁.regs = m.regs) (DefiningWord.backslash).perform :=
      .bind (hdevices.parse _) fun _ => .pure _
    exact ⟨hkeeps.of_ok hstep rfl, rfl⟩
  · obtain ⟨text, m₁, hparse, hwrite⟩ := exists_of_bind_ok hstep
    have hregs : m₁.regs = m.regs := (hdevices.parse _).of_ok hparse rfl
    have hmode : m₁.regs.isCompiling = false := by
      rw [hregs]
      exact h.isCompiling_eq
    rw [Exec.bind_reg, hmode] at hwrite
    exact ⟨(hdevices.write text).of_ok hwrite hregs, rfl⟩
  · cases hbuilds

/-- Between definitions, whatever declarations are written with is within the rules. -/
theorem Idle.exists_after (h : m.Idle plots) {action : Action}
    (hdeclares : action.declares m = true) (hstep : action.step m = .ok () m') :
    ∃ plan, (Plan.closed plots).after action m m' = some plan ∧ plan.isLoose = false := by
  unfold Action.declares at hdeclares
  split at hdeclares
  · simp only [Bool.and_eq_true, decide_eq_true_eq] at hdeclares
    exact ⟨_, Plan.after_colon hdeclares.2, rfl⟩
  · exact ⟨_, Plan.after_of_plot (by simp) rfl, rfl⟩
  · exact ⟨_, Plan.after_of_plot (by simp) rfl, rfl⟩
  · obtain ⟨c, m₁, hpop, -⟩ := exists_of_bind_ok hstep
    obtain ⟨hhead, -⟩ := Exec.pop_ok h.within.ordered hpop
    exact ⟨_, Plan.after_of_plot (by simp) (congrArg (Option.map _) hhead), rfl⟩
  · simp only [Bool.and_eq_true, Option.all_eq_true, decide_eq_true_eq] at hdeclares
    obtain ⟨hmode, hspares⟩ := Action.spares_allot h.within.ordered hdeclares.2 hstep
    exact ⟨_, Plan.after_of_spares (by simp) rfl hmode hspares, rfl⟩
  · -- A semicolon is refused here.
    obtain ⟨_, m₁, hnesting, -⟩ := exists_of_bind_ok hstep
    have hmet := demand_eq_ok_iff.mp (observe_eq_ok_iff.mp hnesting).1
    simp [h.isCompiling_eq] at hmet
  · -- What is left are comments and texts, which spare everything.
    obtain ⟨hregs, hnamed⟩ := h.regs_of_builds hdeclares hstep
    have hcolon : action ≠ .define .colon := by
      rintro rfl
      cases hdeclares
    have hplot : action.plot? m m' = none := by
      unfold Action.plot?
      split
      · cases hdeclares
      · cases hdeclares
      · cases hdeclares
      · rfl
    exact ⟨_, Plan.after_of_spares hcolon hplot (by rw [hregs])
      (Action.spares_of_regs_eq hregs hnamed), rfl⟩

/-- Inside of a draft, whatever declarations are written with is within the rules. -/
theorem Drafted.exists_after (h : m.Drafted p plots) {action : Action}
    (hdeclares : action.declares m = true) (hstep : action.step m = .ok () m') :
    ∃ plan, (Plan.opened true p plots).after action m m' = some plan ∧ plan.isLoose = false := by
  obtain ⟨m₀, name, d, -, -, -, -, h⟩ := h
  have hmode := h.mode_eq
  by_cases hsemicolon : action = .define .semicolon
  · subst hsemicolon
    exact ⟨_, Plan.after_semicolon true, rfl⟩
  · have hbuilds : action.builds = true := by
      unfold Action.declares at hdeclares
      rw [hmode] at hdeclares
      split at hdeclares
      · cases hdeclares
      · cases hdeclares
      · cases hdeclares
      · cases hdeclares
      · cases hdeclares
      · exact absurd rfl hsemicolon
      · exact hdeclares
    exact ⟨_, Plan.after_of_builds hbuilds, rfl⟩

end Machine

end CellForth
