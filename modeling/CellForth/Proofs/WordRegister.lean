import CellForth.Proofs.Abreast

/-!
# The register `w`

Looking up a word leaves its token in the register `w`, where the actions of colon definitions, of
created words and of constants find out which word it is that runs. Only these three read the
register, and they belong in code fields: as an instruction they are refused, and a word is looked
up before the opcode in its code field is run. So `w` has always just been set when it is read,
unless a host has registered one of the three under another opcode. In a machine where it has not
(`Machine.GuardsW`), what a word that ran earlier has left in `w` does not matter.

Two machines that agree on everything but `w` therefore stay so whatever they interpret
(`Machine.interpret_upToW`). Most operations have nothing to do with the register and are taken in
step because they commute with setting it (`Exec.WordFree`). When a word is looked up, either both
machines set `w` and are the same from there on, or the word was given by an opcode, and then its
action does not read the register.
-/

namespace CellForth

variable {α β : Type} {s t : Machine}

/-! ### Operations that have nothing to do with `w` -/

namespace Exec

/-- The operation does the same whatever is in `w`, and leaves it alone. -/
def WordFree (op : Exec α) : Prop :=
  ∀ w, Commutes (Machine.withW w) op

namespace WordFree

theorem look {f : Machine → Except Fault α} (hf : WordBlind f) : WordFree (observe f) :=
  fun w => .look (hf w)

theorem bind {x : Exec α} {f : α → Exec β} (hx : WordFree x) (hf : ∀ a, WordFree (f a)) :
    WordFree (x >>= f) :=
  fun w => (hx w).bind fun a => hf a w

theorem onMemory (op : EStateM Fault Memory α) : WordFree (onMemory op) :=
  fun w => .onMemory (g := Machine.withW w) (fun _ => rfl) (fun _ _ => rfl) op

theorem onData (op : StackM α) : WordFree (onData op) :=
  fun w => .onData (g := Machine.withW w) (fun _ => rfl) (fun _ _ => rfl) op

theorem onReturn (op : StackM α) : WordFree (onReturn op) :=
  fun w => .onReturn (g := Machine.withW w) (fun _ => rfl) (fun _ _ => rfl) op

theorem setRegs {g : Registers → Registers}
    (hg : ∀ regs w, g { regs with w := w } = { g regs with w := w }) : WordFree (setRegs g) := by
  intro w m
  have hmachine := congrArg (fun regs => { m with regs := regs }) (hg m.regs w)
  exact congrArg (EStateM.Result.ok ()) hmachine

theorem reg {f : Registers → α} (hf : ∀ regs w, f { regs with w := w } = f regs) :
    WordFree (reg f) :=
  look (f := fun m => .ok (f m.regs)) fun w m => congrArg _ (hf m.regs w)

theorem pure (a : α) : WordFree (Pure.pure a) := fun _ _ => rfl

theorem report (notice : Notice) : WordFree (report notice) := fun _ _ => rfl

theorem noteRedefinition (name : List UInt8) : WordFree (noteRedefinition name) := by
  intro w m
  have hfind : (m.withW w).find name = m.find name := rfl
  have hjournal : (m.withW w).journal = m.journal := rfl
  unfold Exec.noteRedefinition
  rw [hfind, hjournal]
  split
  · split
    · exact report _ w m
    · rfl
  · rfl

theorem noteDefinition (address : Cell) : WordFree (noteDefinition address) :=
  .bind (.look fun _ _ => rfl) fun _ =>
    Ordinary.ite
      (.bind (.look fun _ _ => rfl) fun _ => .bind (.reg fun _ _ => rfl) fun _ => .report _)
      (.pure _)

theorem compileCell (c : Cell) : WordFree (compileCell c) :=
  .bind (.look fun _ _ => rfl) fun _ => .bind (.reg fun _ _ => rfl) fun _ =>
    .bind (.onMemory _) fun _ => .setRegs fun _ _ => rfl

theorem packBytes (bs : List UInt8) : WordFree (packBytes bs) :=
  .bind (.reg fun _ _ => rfl) fun _ => .bind (.onMemory _) fun _ => .setRegs fun _ _ => rfl

theorem createRecord (name : List UInt8) (code flags : Cell) :
    WordFree (createRecord name code flags) :=
  .bind (.look fun _ _ => rfl) fun _ => .bind (.look fun _ _ => rfl) fun _ =>
    .bind (.look fun _ _ => rfl) fun _ => .bind (.noteRedefinition name) fun _ =>
    .bind (.reg fun _ _ => rfl) fun _ => .bind (.reg fun _ _ => rfl) fun _ =>
    .bind (.compileCell _) fun _ => .bind (.compileCell _) fun _ => .bind (.packBytes _) fun _ =>
    .bind (.compileCell _) fun _ => .bind (.setRegs fun _ _ => rfl) fun _ => .pure _

theorem parseWord : WordFree parseWord := by
  intro w m
  have hinput : (m.withW w).input = m.input := rfl
  unfold Exec.parseWord
  rw [hinput]
  split <;> rfl

theorem parse (delimiter : UInt8) : WordFree (parse delimiter) := by
  intro w m
  have hinput : (m.withW w).input = m.input := rfl
  unfold Exec.parse
  rw [hinput]
  split <;> rfl

theorem readByte : WordFree (onInput Source.read) := by
  intro w m
  have hinput : (m.withW w).input = m.input := rfl
  rw [onInput_read_eq, onInput_read_eq, hinput]
  split <;> rfl

theorem addRuntime (name : String) (action : Action) : WordFree (addRuntime name action) := by
  have htable : WordFree (modify fun m : Machine => { m with table := m.table.push action }) :=
    fun _ _ => rfl
  exact .bind (.look fun _ _ => rfl) fun _ => .bind (.look fun _ _ => rfl) fun _ =>
    .bind htable fun _ => .bind (.report _) fun _ => .pure _

theorem write (bs : List UInt8) : WordFree (write bs) := by
  intro w m
  have houtput : (m.withW w).output = m.output := rfl
  unfold Exec.write
  rw [houtput]
  split <;> rfl

end WordFree

/-- What words are made of has nothing to do with `w`, but for looking up a word and for the actions
that read the register. -/
theorem common_wordFree : Common fun op => WordFree op where
  glance _ hf := .look hf
  bind := .bind
  onData _ := .onData _
  onReturn _ := .onReturn _
  put _ _ := .onMemory _
  compileCell := .compileCell
  compileString bs :=
    .bind (.look fun _ _ => rfl) fun _ => .bind (.compileCell _) fun _ => .packBytes bs
  createRecord := .createRecord
  allot _ :=
    .bind (.reg fun _ _ => rfl) fun _ => .bind (.look fun _ _ => rfl) fun _ =>
      .bind (.look fun _ _ => rfl) fun _ => .setRegs fun _ _ => rfl
  moveIp f hf := .setRegs fun regs w => by rw [hf]
  setBase _ _ := .setRegs fun _ _ => rfl
  parseName := .bind .parseWord fun _ => .look fun _ _ => rfl
  write := .write

theorem outward_wordFree : Outward fun op => WordFree op where
  parse := .parse
  readByte := .readByte
  parseWord := .parseWord
  addRuntime name action _ := .addRuntime name action

theorem WordFree.step {action : Action} (hw : action.readsW = false) : WordFree action.step := by
  have h := common_wordFree
  cases hswitches : action.switches with
  | false => exact h.step outward_wordFree hswitches hw
  | true =>
    cases action with
    | define word =>
      cases word with
      | colon =>
        exact .bind (h.requireNesting _ fun _ _ => rfl) fun _ => .bind h.parseName fun _ =>
          .bind (.createRecord _ _ _) fun _ => .bind (.onData _) fun _ =>
          .bind (.setRegs fun _ _ => rfl) fun _ => .report _
      | semicolon =>
        exact .bind (h.requireNesting _ fun _ _ => rfl) fun _ => .bind (h.popControl _) fun _ =>
          .bind (.look fun _ _ => rfl) fun _ => .bind (h.compileRuntime _) fun _ =>
          .bind (h.reveal _) fun _ => .bind (.setRegs fun _ _ => rfl) fun _ => .noteDefinition _
      | leftBracket | rightBracket =>
        exact .bind (h.requireNesting _ fun _ _ => rfl) fun _ => .setRegs fun _ _ => rfl
      | _ => cases hswitches
    | _ => cases hswitches

end Exec

/-! ### Machines that differ in `w` -/

/-- The actions that read `w` are only where they are not run as instructions. -/
def Machine.GuardsW (m : Machine) : Prop :=
  ∀ (op : Cell) (action : Action), m.table[op.toNat]? = some action → action.readsW = true →
    CodeFields.standard.contains op = true

/-- Only the actions that the machine has need to be looked at. -/
theorem Machine.guardsW_of_zipIdx {m : Machine}
    (h : ∀ p ∈ m.table.toList.zipIdx, p.1.readsW = true →
      CodeFields.standard.contains (UInt16.ofNat p.2) = true) : m.GuardsW := by
  intro op action haction hreads
  have hmem : (action, op.toNat) ∈ m.table.toList.zipIdx := by
    rw [List.mk_mem_zipIdx_iff_getElem?, Array.getElem?_toList]
    exact haction
  simpa using h _ hmem hreads

/-- A new machine guards the register. -/
theorem Machine.New.guardsW {config : Config} {layout : Layout} {input : Source} {output : Sink}
    {m : Machine} (hnew : m.New config layout input output) : m.GuardsW := by
  refine guardsW_of_zipIdx ?_
  rw [hnew.table]
  decide +kernel

theorem Machine.GuardsW.push {m : Machine} (h : m.GuardsW) {action : Action}
    (hw : action.readsW = false) (journal : Journal) :
    GuardsW { m with table := m.table.push action, journal := journal } := by
  intro op other haction hreads
  rw [Array.getElem?_push] at haction
  split at haction
  · cases haction
    rw [hw] at hreads
    cases hreads
  · exact h op other haction hreads

/-- The words of a set do not read the register, so a machine that guards it still does when they
have been registered. -/
theorem Lasting.guardsW : Lasting Machine.GuardsW := by
  have hbasic : Basic Machine.GuardsW := .of_alike fun m m' halike hm => by
    unfold Machine.GuardsW
    rw [halike.table]
    exact hm
  refine hbasic.lasting fun name action hw m hm => ?_
  rw [Exec.addRuntime_eq]
  split
  · exact hm.push hw _
  · exact hm

/-- The machines agree on everything but the register `w`, and guard it. -/
structure Machine.UpToW (s t : Machine) : Prop where
  /-- The first machine guards the register, and so does the second one. -/
  guards : s.GuardsW
  /-- Apart from the register, they are the same. -/
  same : t = s.withW t.regs.w

open Machine (UpToW)

theorem Machine.UpToW.refl {m : Machine} (h : m.GuardsW) : m.UpToW m := ⟨h, rfl⟩

/-- What has nothing to do with the register is done in step. -/
theorem Exec.WordFree.related {op : Exec α} (h : WordFree op) (hkeeps : Keeps Machine.GuardsW op)
    (hst : UpToW s t) : Related UpToW Eq (op s) (op t) := by
  have hkept := hkeeps s hst.guards
  rw [hst.same, h]
  cases hop : op s with
  | ok a s' =>
    rw [hop] at hkept
    exact .ok rfl ⟨hkept, rfl⟩
  | error e s' =>
    rw [hop] at hkept
    exact .error ⟨hkept, rfl⟩

namespace Exec

/-- How the action of a token is looked up in step: both machines are the same then, or the action
does not read the register. -/
inductive LookedUp :
    EStateM.Result Fault Machine Action → EStateM.Result Fault Machine Action → Prop
  /-- Both have set the register to the token. -/
  | same {r : EStateM.Result Fault Machine Action} (h : (endState r).GuardsW) : LookedUp r r
  /-- The token was an opcode. -/
  | opcode {action : Action} {s t : Machine} (h : UpToW s t) (hw : action.readsW = false) :
    LookedUp (.ok action s) (.ok action t)
  /-- There is no action. -/
  | error {e : Fault} {s t : Machine} (h : UpToW s t) : LookedUp (.error e s) (.error e t)

theorem resolve_of_le {xt : Cell} {m : Machine} (hle : m.table.size ≤ xt.toNat) (w : Cell) :
    resolve xt (m.withW w) = resolve xt m := by
  have hnot : ¬xt.toNat < m.table.size := Nat.not_lt.mpr hle
  have hnot' : ¬xt.toNat < (m.withW w).table.size := hnot
  have hsize (m : Machine) : observe (fun m : Machine => .ok m.table.size) m =
    (.ok m.table.size m : EStateM.Result Fault Machine Nat) := rfl
  unfold resolve
  rw [bind_of_ok (hsize _), bind_of_ok (hsize _)]
  simp only [hnot, hnot', if_false]
  rfl

theorem resolve_upToW (xt : Cell) (hst : UpToW s t) : LookedUp (resolve xt s) (resolve xt t) := by
  have hguards := Lasting.guardsW.hereditary.resolve xt s hst.guards
  have htable : t.table = s.table := by
    rw [hst.same]
    rfl
  by_cases hlt : xt.toNat < s.table.size
  · cases hfield : CodeFields.standard.contains xt with
    | true =>
      rw [resolve_of_field hlt hfield, resolve_of_field (htable ▸ hlt) hfield]
      exact .error hst
    | false =>
      obtain ⟨action, haction⟩ : ∃ action, s.table[xt.toNat]? = some action :=
        ⟨_, Array.getElem?_eq_getElem hlt⟩
      have hw : action.readsW = false := by
        by_contra hreads
        have hcontains := hst.guards xt action haction (by simpa using hreads)
        rw [hfield] at hcontains
        cases hcontains
      rw [resolve_of_opcode hlt hfield haction,
        resolve_of_opcode (htable ▸ hlt) hfield (htable.symm ▸ haction)]
      exact .opcode hst hw
  · rw [hst.same, resolve_of_le (Nat.le_of_not_lt hlt)]
    exact .same hguards

/-- What follows is in step if it is for actions that do not read the register. -/
theorem LookedUp.bind {P : EStateM.Result Fault Machine α → EStateM.Result Fault Machine α → Prop}
    {x : Exec Action} {f : Action → Exec α} (hx : LookedUp (x s) (x t))
    (hkeeps : ∀ action, Keeps Machine.GuardsW (f action))
    (hsame : ∀ r, (endState r).GuardsW → P r r)
    (herror : ∀ e s t, UpToW s t → P (.error e s) (.error e t))
    (hf : ∀ action s t, UpToW s t → action.readsW = false → P (f action s) (f action t)) :
    P ((x >>= f) s) ((x >>= f) t) := by
  generalize ht : x t = r at hx
  cases hs : x s with
  | ok action s' =>
    rw [hs] at hx
    rw [bind_of_ok hs]
    cases hx with
    | same h =>
      rw [bind_of_ok ht]
      exact hsame _ (hkeeps action s' h)
    -- Only a bare opcode leaves the registers different, and then the action does not read them.
    | opcode h hw =>
      rw [bind_of_ok ht]
      exact hf action _ _ h hw
  | error e s' =>
    rw [hs] at hx
    rw [bind_of_error hs]
    cases hx with
    | same h =>
      rw [bind_of_error ht]
      exact hsame _ h
    | error h =>
      rw [bind_of_error ht]
      exact herror e _ _ h

/-- An opcode that hands over may do so any number of times. -/
theorem finalWithin_upToW (rounds : Nat) (action : Action) (hst : UpToW s t)
    (hw : action.readsW = false) :
    LookedUp (finalWithin rounds action s) (finalWithin rounds action t) := by
  have hsteady := Lasting.guardsW.hereditary.toSteady
  induction rounds, action using finalWithin.induct generalizing s t with
  | case1 => exact .error hst
  | case2 rounds ih =>
    rw [finalWithin]
    have hpop : Related UpToW Eq (pop s) (pop t) := (WordFree.onData _).related hsteady.pop hst
    cases hs : pop s with
    | ok xt s₁ =>
      obtain ⟨_, t₁, ht, rfl, hst₁⟩ := Related.of_ok (hs ▸ hpop)
      rw [bind_of_ok hs, bind_of_ok ht]
      exact (resolve_upToW xt hst₁).bind (fun action => finalWithin_steady hsteady rounds action)
        (fun _ => .same) (fun _ _ _ => .error) fun action s t hst hw => ih action hst hw
    | error e s₁ =>
      obtain ⟨t₁, ht, hst₁⟩ := Related.of_error (hs ▸ hpop)
      rw [bind_of_error hs, bind_of_error ht]
      exact .error hst₁
  | case3 rounds action hnone hsome =>
    rw [finalWithin.eq_3 _ _ hnone hsome]
    exact .opcode hst hw

theorem finalAction_upToW (xt : Cell) (hst : UpToW s t) :
    LookedUp (finalAction xt s) (finalAction xt t) := by
  have hsteady := Lasting.guardsW.hereditary.toSteady
  refine (resolve_upToW xt hst).bind (fun action => ?_) (fun _ => .same) (fun _ _ _ => .error)
    fun action s t hst hw => ?_
  · exact hsteady.bind (hsteady.look fun _ _ _ _ => rfl) fun _ => finalWithin_steady hsteady _ _
  · have hsize : t.dataStack.size = s.dataStack.size := by
      rw [hst.same]
      rfl
    show LookedUp (finalWithin s.dataStack.size action s) (finalWithin t.dataStack.size action t)
    rw [hsize]
    exact finalWithin_upToW _ action hst hw

/-- A word is run in step. -/
theorem execute_upToW (xt : Cell) (hst : UpToW s t) :
    Related UpToW Eq (execute xt s) (execute xt t) := by
  rw [execute_eq_finalAction]
  refine (finalAction_upToW xt hst).bind Lasting.guardsW.conclude (fun r hr => ?_)
    (fun _ _ _ => .error) fun action s t hst hw => ?_
  · cases r with
    | ok a m => exact .ok rfl (.refl hr)
    | error e m => exact .error (.refl hr)
  · by_cases hresume : action = .resume
    · subst hresume
      exact .ok rfl hst
    · rw [conclude.eq_2 _ hresume]
      exact (WordFree.bind (.step hw) fun _ => .pure _).related
        (.bind (Lasting.guardsW.step action) fun _ => .pure _) hst

end Exec

/-! ### Interpreting -/

theorem Exec.WordFree.tracks {op : Exec α} (h : WordFree op) (hkeeps : Keeps Machine.GuardsW op) :
    Tracks UpToW (fun _ _ _ => False) op where
  inStep hst := .of_related (h.related hkeeps hst)
  keeps _ _ _ := id

namespace Machine

theorem common_upToW : Common fun op => Tracks UpToW (fun _ _ _ => False) op := by
  have hfree := Exec.common_wordFree
  have hkept := Lasting.guardsW.hereditary.toCommon
  exact
    { glance := fun hd hw => (hfree.glance hd hw).tracks (hkept.glance hd hw)
      bind := .bind
      onData := fun hop => (hfree.onData hop).tracks (hkept.onData hop)
      onReturn := fun hop => (hfree.onReturn hop).tracks (hkept.onReturn hop)
      put := fun pos c => (hfree.put pos c).tracks (hkept.put pos c)
      compileCell := fun c => (hfree.compileCell c).tracks (hkept.compileCell c)
      compileString := fun bs => (hfree.compileString bs).tracks (hkept.compileString bs)
      createRecord := fun name code flags =>
        (hfree.createRecord name code flags).tracks (hkept.createRecord name code flags)
      allot := fun n => (hfree.allot n).tracks (hkept.allot n)
      moveIp := fun f hf => (hfree.moveIp f hf).tracks (hkept.moveIp f hf)
      setBase := fun b hb => (hfree.setBase b hb).tracks (hkept.setBase b hb)
      parseName := hfree.parseName.tracks hkept.parseName
      write := fun bs => (hfree.write bs).tracks (hkept.write bs) }

theorem UpToW.retoken (token : List UInt8) (hst : UpToW s t) :
    UpToW { s with token := token } { t with token := token } :=
  ⟨hst.guards, congrArg (fun m => { m with token := token }) hst.same⟩

theorem wordLockstep_upToW : WordLockstep UpToW (fun _ _ _ => False) fun _ _ => True where
  common := common_upToW
  lasting _ _ := .const False
  execute hst _ := .of_related (Exec.execute_upToW _ hst)
  ip_eq hst := by
    rw [hst.same]
    rfl
  token_eq hst := by
    rw [hst.same]
    rfl
  retoken := UpToW.retoken
  out_retoken _ := id

/-- **What is in `w` does not matter for what the machine will do.** Interpreting the same input,
two machines that differ only in the register come to the same end, but for the register. -/
theorem interpret_upToW (steps : Nat) (hst : UpToW s t) :
    Option.Rel (Related UpToW Eq) (s.interpret steps) (t.interpret steps) :=
  (wordLockstep_upToW.interpret steps
    (fun _ _ hst => Exec.WordFree.parseWord.related Lasting.guardsW.parseWord hst) hst
    fun _ _ => trivial).related fun _ _ _ => id

/-! ### The end of a run -/

/-- What is left of a machine without its input, its journal and the register `w`. -/
def coreButW (m : Machine) : Machine :=
  m.core.withW 0

namespace UpToW

theorem coreButW_eq (h : UpToW s t) : t.coreButW = s.coreButW := by
  rw [h.same]
  rfl

theorem poisonWith (f : Fault) (h : UpToW s t) : UpToW (s.poisonWith f) (t.poisonWith f) :=
  ⟨h.guards, congrArg (Machine.poisonWith f) h.same⟩

theorem finishRun {r r' : EStateM.Result Fault Machine Unit} (h : Related UpToW Eq r r') :
    Related UpToW Eq (Machine.finishRun r) (Machine.finishRun r') := by
  cases h with
  | error hst =>
    rw [finishRun_error, finishRun_error]
    exact .error (hst.poisonWith _)
  | @ok _ _ s t hv hst =>
    have hflush : t.output.flushFails = s.output.flushFails := by
      rw [hst.same]
      rfl
    rw [finishRun_ok, finishRun_ok, hflush]
    split
    · exact .error (hst.poisonWith _)
    · exact .ok rfl hst

/-- Machines that differ only in the register come to the same end, but for the register. -/
theorem interpret_coreButW_eq (hst : UpToW s t) (steps : Nat) :
    (t.interpret steps).map (mapState coreButW ∘ Machine.finishRun) =
      (s.interpret steps).map (mapState coreButW ∘ Machine.finishRun) := by
  have hrun := interpret_upToW steps hst
  generalize s.interpret steps = o, t.interpret steps = o' at hrun
  cases hrun with
  | none => rfl
  | some hr => exact congrArg some ((finishRun hr).mapState_eq fun _ _ => coreButW_eq)

end UpToW

/-- So do machines whose sources read alike. -/
theorem Abreast.interpret_coreButW_eq {I : Source → Source → Prop} (hI : Source.SameReading I)
    (hst : Abreast I Eq Eq s t) (steps : Nat) :
    (t.interpret steps).map (mapState coreButW ∘ Machine.finishRun) =
      (s.interpret steps).map (mapState coreButW ∘ Machine.finishRun) := by
  have hsplit : (mapState coreButW : HostResult Unit → HostResult Unit) =
      mapState (withW 0) ∘ mapState core := by
    funext r
    cases r <;> rfl
  have hcore := congrArg (Option.map (mapState (withW 0))) (hst.interpret_core_eq hI steps)
  rw [Option.map_map, Option.map_map] at hcore
  rw [hsplit]
  exact hcore

end Machine

end CellForth
