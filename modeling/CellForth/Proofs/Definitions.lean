import CellForth.Proofs.TagMachine

/-!
# Reading definitions

A definition is a colon, a name, a row of tokens and a semicolon. The interpreter accepts it exactly
when the tag machine runs through its parts and ends with nothing open. If it does not, the fault is
met at the token where the tag machine fails, be it the semicolon; and whatever the tokens are, the
items that the program had on the stack are not touched, because the entry of the definition stands
between them and the tags.

The machine must be at the top level (`Machine.AtTopLevel`) and there must be room. Of what the
tokens look like nothing is assumed, only what they denote (`Machine.ReadsDefinition`). Outside of
these bounds a definition can fail for other reasons: in threaded code a word that was interrupted
goes on behind the colon, and in a dictionary that is not intact look-up need not end.
-/

namespace CellForth

/-! ### Interpreting a definition -/

/-- What the token of a part denotes. -/
def Part.item : Part → Item
  | number c => .number c
  | reference c => .reference c
  | control word => .immediate (.control word)

namespace Machine

variable {m₀ m : Machine} {name token : List UInt8} {d : Draft}

theorem WithDefinition.retoken {header : Cell} {code top : List Cell}
    (h : m₀.WithDefinition name header code top m) (token : List UInt8) :
    ({ m₀ with token := token } : Machine).WithDefinition name header code top
      { m with token := token } := by
  have hinput : m.input = m₀.input := congrArg (·.input) h.rest
  have hnew := h.reread token m₀.input m₀.regs.w m.regs.w
  rw [← hinput] at hnew ⊢
  exact hnew

theorem Drafting.reread (h : m₀.Drafting name d m) (token : List UInt8) (input : Source)
    (w₀ w : Cell) :
    ({ m₀ with token := token, input := input, regs := { m₀.regs with w := w₀ } } :
        Machine).Drafting name d
      { m with token := token, input := input, regs := { m.regs with w := w } } :=
  ⟨h.toWithDefinition.reread token input w₀ w, h.mode_eq, h.defining_eq, h.places⟩

theorem Drafting.next (h : m₀.Drafting name d m) (token : List UInt8) (input : Source) :
    ({ m₀ with token := token, input := input } : Machine).Drafting name d
      { m with token := token, input := input } :=
  h.reread token input m₀.regs.w m.regs.w

theorem Drafting.retoken (h : m₀.Drafting name d m) (token : List UInt8) (w : Cell) :
    ({ m₀ with token := token } : Machine).Drafting name d
      { m with token := token, regs := { m.regs with w := w } } := by
  have hinput : m.input = m₀.input := congrArg (·.input) h.rest
  have hnew := h.reread token m₀.input m₀.regs.w w
  rw [← hinput] at hnew ⊢
  exact hnew

/-- While the record of a definition is hidden, tokens denote what they did before. -/
theorem WithDefinition.item?_of_hidden {code top : List Cell}
    (h : m₀.WithDefinition name (Record.makeHeader Record.hiddenBit name.length) code top m)
    (hintact : m₀.Intact) (token : List UInt8) : m.item? token = m₀.item? token := by
  refine item?_congr h.grown.before hintact ?_ h.grown.agree (congrArg (·.table) h.rest)
    (congrArg (·.regs.base) h.rest)
  rw [h.grown.find_eq hintact, Record.isHidden_makeHeader]
  rfl

theorem Drafting.item?_eq (h : m₀.Drafting name d m) (hintact : m₀.Intact) (token : List UInt8) :
    m.item? token = m₀.item? token :=
  h.toWithDefinition.item?_of_hidden hintact token

/-- Putting the token back in place is all that happens behind the work on it. -/
theorem related_restoring {token : List UInt8} {r : EStateM.Result Fault Machine Unit}
    {r' : EStateM.Result Fault Draft Unit}
    (h : Related (fun m d => ({ m₀ with token := [] } : Machine).Drafting name d m)
      (fun _ _ => True) r r') :
    Related (fun m d => ({ m₀ with token := token } : Machine).Drafting name d m)
      (fun _ _ => True) (restoring token r) r' := by
  have hrestore : ∀ {m d}, ({ m₀ with token := [] } : Machine).Drafting name d m →
      ({ m₀ with token := token } : Machine).Drafting name d (m.restoreToken token) := by
    intro m d h
    have htoken : m.token = [] := congrArg (·.token) h.rest
    unfold restoreToken
    rw [htoken]
    exact h.retoken token m.regs.w
  cases h with
  | ok _ h => exact .ok trivial (hrestore h)
  | error h => exact .error (hrestore h)

theorem drafts_perform (word : ControlWord) :
    m₀.Drafts name (fun _ _ => True) word.perform (word.draft (m₀.limits name)) := by
  intro m d h
  have hcompiling : Exec.requireCompiling m = .ok () m :=
    observe_of_ok (demand_of_pos (by simp [Registers.isCompiling, h.mode_eq]))
  rw [ControlWord.perform, bind_of_ok hcompiling]
  exact drafts_build word m d h

/-- Inside of an open definition, interpreting a token does to it what the token's part does to the
draft. -/
theorem Drafting.interpretToken (h : m₀.Drafting name d m) (hintact : m₀.Intact)
    (hip : m₀.regs.ip = 0) {p : Part} (hitem : m₀.item? token = some p.item) :
    ∃ r, (∀ steps, m.interpretToken steps token = some r) ∧
      Related (fun m d => ({ m₀ with token := token } : Machine).Drafting name d m)
        (fun _ _ => True) r (p.draft (m₀.limits name) d) := by
  rw [← h.item?_eq hintact] at hitem
  cases p with
  | number c =>
    refine ⟨_, fun steps => interpretToken_number steps hitem h.mode_eq, related_restoring ?_⟩
    exact Refines.bind (drafts_compileCell _) (fun _ _ _ => drafts_compileCell c) _ d
      (h.retoken [] m.regs.w)
  | reference c =>
    refine ⟨_, fun steps => interpretToken_reference steps hitem h.mode_eq, related_restoring ?_⟩
    exact drafts_compileCell c _ d (h.retoken [] m.regs.w)
  | control word =>
    obtain ⟨xt, hrun⟩ := interpretToken_immediate h.grown.after hitem
      ((h.grown.intact hintact).bounds_of_find_le_size h.grown.after) (by simp) (by simp)
    have hstep := drafts_perform word _ d (h.retoken [] xt)
    simp only [Action.step] at hrun
    cases hperform : word.perform { m with token := [], regs := { m.regs with w := xt } } with
    | error e m' =>
      rw [hperform] at hstep hrun
      exact ⟨_, hrun, related_restoring hstep⟩
    | ok _ m' =>
      rw [hperform] at hstep hrun
      obtain ⟨-, d', -, -, h'⟩ := hstep.of_ok
      have hzero : m'.regs.ip = 0 := (congrArg (·.regs.ip) h'.rest).trans hip
      refine ⟨_, fun steps => (hrun steps).trans ?_, related_restoring hstep⟩
      exact congrArg (Option.map (restoring token)) (runThread_of_eq_zero steps hzero)

end Machine

/-- A record that has just been added can be opened as a definition, if its entry fits on the
stack. -/
theorem Machine.drafting_addRecord {m : Machine} (h : m.WithinRegions) {name : List UInt8}
    (journal : Journal) (hlen : name.length ≤ Record.maxNameLength)
    (hcells : Record.cellsFor name.length ≤ m.unused) (hitems : 2 ≤ m.dataStack.room) :
    ∃ m₁, Exec.pushControl m.regs.here .definition
        (m.addRecord name Runtime.nest.opcode Record.hiddenBit journal) = .ok () m₁ ∧
      ∀ journal', m.Drafting name .empty
        { m₁ with
          journal := journal'
          regs := { m₁.regs with mode := .compile, defining := m.regs.here } } := by
  have hnew := withDefinition_addRecord h Record.hiddenBit journal hlen hcells
  have hfits : Stack.Fits 0 [m.regs.here, ControlTag.definition.cell] _ :=
    (hnew.fits_iff (Nat.zero_le _)).mpr (by simpa using hitems)
  refine ⟨_, Exec.onData_of_ok (hnew.grown.after.dataStack.pushTwo_of_fits hfits), ?_⟩
  have hentry := hnew.replaceData (Nat.zero_le _) hfits
  exact fun journal' =>
    ⟨hentry.settle .compile m.regs.here journal', rfl, rfl, by simp [Draft.empty]⟩

namespace Exec

variable {m₀ m : Machine} {name : List UInt8}

theorem parseName_of_reads {ts : List (List UInt8)} (hreads : m.input.Reads (name :: ts)) :
    ∃ input, parseName m = .ok name { m with token := name, input := input } ∧ input.Reads ts := by
  obtain ⟨input, hparse, hrest⟩ := parseWord_of_reads hreads
  have hne : name.isEmpty = false := by
    simpa using hreads.ne_nil name List.mem_cons_self
  refine ⟨input, ?_, hrest⟩
  unfold parseName
  rw [bind_of_ok hparse]
  exact observe_of_ok (by rw [hne]; rfl)

/-- Where no definition is open, a name and room are all that it takes to open one. -/
theorem beginDefinition_of_room (h : m.WithinRegions) (hmode : m.regs.mode = .interpret)
    (hdefining : m.regs.defining = 0) {ts : List (List UInt8)}
    (hreads : m.input.Reads (name :: ts)) (hlen : name.length ≤ Record.maxNameLength)
    (hcells : Record.cellsFor name.length ≤ m.unused) (hitems : 2 ≤ m.dataStack.room) :
    ∃ input, ∃ m' : Machine, beginDefinition m = .ok () m' ∧
      ({ m with token := name, input := input } : Machine).Drafting name .empty m' ∧
      input.Reads ts := by
  obtain ⟨input, hparse, hrest⟩ := parseName_of_reads hreads
  have hnesting :
      requireNesting (fun regs => !regs.isCompiling && regs.defining = 0) m = .ok () m :=
    observe_of_ok (demand_of_pos (by simp [Registers.isCompiling, hmode, hdefining]))
  have h₁ : ({ m with token := name, input := input } : Machine).WithinRegions := { h with }
  obtain ⟨journal, hcreate⟩ := createRecord_of_room h₁.ordered Runtime.nest.opcode Record.hiddenBit
    (hreads.ne_nil name List.mem_cons_self) hlen hcells
  obtain ⟨m₁, hpush, hdrafting⟩ := Machine.drafting_addRecord h₁ journal hlen hcells hitems
  refine ⟨input, _, ?_, hdrafting (m₁.journal.record (.defining name)), hrest⟩
  unfold beginDefinition
  rw [bind_of_ok hnesting, bind_of_ok hparse, bind_of_ok hcreate]
  simp only [UInt16.ofNat_toNat]
  rw [bind_of_ok hpush]
  rfl

/-- Reporting that the definition of a record is complete changes the journal at most. -/
theorem noteDefinition_of_holds {address link header code : Cell}
    (hlength : Record.nameLength ⟨address.toNat, link, header⟩ = name.length)
    (hholds : m.memory.Holds address.toNat (Record.cells link header name code)) :
    ∃ journal, noteDefinition address m = .ok () { m with journal := journal } := by
  have hname := Memory.getBytes_of_packed (Memory.name_of_holds hholds)
  rw [← hlength] at hname
  refine ⟨if m.journal.admits .debug then
    m.journal.record (.defined name (m.regs.here - address)) else m.journal, ?_⟩
  unfold noteDefinition
  refine Eq.trans (bind_of_ok (observe_of_ok rfl)) ?_
  cases m.journal.admits .debug with
  | false => rfl
  | true =>
    refine Eq.trans (bind_of_ok (observe_of_ok (a := name) ?_)) rfl
    rw [Memory.recordAt_of_holds hholds]
    exact hname

theorem requireNesting_of_drafting {d : Draft} (h : m₀.Drafting name d m) :
    requireNesting (fun regs => regs.isCompiling && regs.defining ≠ 0) m = .ok () m := by
  have hne : m.regs.defining ≠ 0 := by
    have hstart := h.grown.before.start_le_here
    rw [h.defining_eq, ← Cell.toNat_ne_zero_iff]
    unfold dictionaryStart at hstart
    omega
  exact observe_of_ok (demand_of_pos (by simp [Registers.isCompiling, h.mode_eq, hne]))

/-- A definition without open structures can be completed, if there is room for one more cell. -/
theorem endDefinition_of_nil {code : List Cell} (h : m₀.Drafting name ⟨code, []⟩ m)
    (hlen : name.length ≤ Record.maxNameLength) (hroom : code.length < (m₀.limits name).cells) :
    ∃ m', endDefinition m = .ok () m' ∧
      m₀.WithDefinition name (Record.makeHeader 0 name.length) (code ++ [Runtime.exit.opcode])
        [] m' ∧
      m'.regs.mode = .interpret ∧ m'.regs.defining = 0 := by
  have hpop := popControl_eq h.grown.after h.items .definition
  rw [if_pos rfl] at hpop
  have h₁ : m₀.WithDefinition name _ code [] (m.replaceData 2 []) :=
    h.replaceData (Nat.le_refl 2) (h.fits_nil (Nat.le_refl 2))
  have hexit : compileRuntime .exit (m.replaceData 2 []) = _ :=
    compileCell_of_room h₁.grown.after.ordered (by rw [h₁.unused_eq]; exact Nat.sub_pos_of_lt hroom)
  have h₂ : m₀.WithDefinition name _ (code ++ [Runtime.exit.opcode]) [] _ := h₁.append hroom
  have hreveal := updateHeader_of_grown h₂.grown (· &&& ~~~Record.hiddenBit)
  have hvisible : Record.hiddenBit &&& ~~~Record.hiddenBit = 0 := by decide
  rw [Record.makeHeader_and_not_hiddenBit, hvisible] at hreveal
  have hheader : Record.nameLength
      ⟨m₀.regs.here.toNat, m₀.regs.latest, Record.makeHeader 0 name.length⟩ = name.length :=
    Record.nameLength_makeHeader hlen _ _
  have h₃ := h₂.setHeader hheader
  have h₄ := fun journal => h₃.settle .interpret 0 journal
  have hgrown := (h₄ m.journal).grown
  obtain ⟨journal, hnote⟩ := noteDefinition_of_holds hgrown.length hgrown.holds
  refine ⟨_, ?_, h₄ journal, rfl, rfl⟩
  unfold endDefinition
  rw [bind_of_ok (requireNesting_of_drafting h), bind_of_ok hpop]
  refine Eq.trans (bind_of_ok (observe_of_ok (demand_of_pos h.defining_eq.symm))) ?_
  rw [bind_of_ok hexit]
  refine Eq.trans (bind_of_ok hreveal) ?_
  rw [bind_setRegs]
  exact hnote

/-- A definition with an open structure cannot be completed. -/
theorem endDefinition_of_cons {code : List Cell} {entry : ControlTag × Nat}
    {rest : List (ControlTag × Nat)} (h : m₀.Drafting name ⟨code, entry :: rest⟩ m) :
    endDefinition m = .error .controlMismatch m := by
  have hne : entry.1.cell ≠ ControlTag.definition.cell := fun heq =>
    (h.places entry List.mem_cons_self).ne (ControlTag.cell_inj.mp heq)
  have hpop := popControl_eq h.grown.after h.items .definition
  rw [if_neg hne] at hpop
  unfold endDefinition
  rw [bind_of_ok (requireNesting_of_drafting h), bind_of_error hpop]

end Exec

namespace Machine

variable {m₀ m : Machine} {name token : List UInt8} {ts : List (List UInt8)} {d d' : Draft}

/-- Interpreting the input starts with its first token. -/
theorem interpret_of_reads (hreads : m.input.Reads (token :: ts)) :
    ∃ input, input.Reads ts ∧ ∀ steps, m.interpret (steps + 1) =
      match ({ m with token := token, input := input } : Machine).interpretToken steps token with
      | none => none
      | some (.error e m') => some (.error e m')
      | some (.ok _ m') => m'.interpret steps := by
  obtain ⟨input, hparse, hrest⟩ := Exec.parseWord_of_reads hreads
  exact ⟨input, hrest, fun steps =>
    interpret_succ steps hparse (hreads.ne_nil token List.mem_cons_self)⟩

/-- A semicolon completes a definition without open structures. -/
theorem Drafting.interpretToken_semicolon {code : List Cell} (h : m₀.Drafting name ⟨code, []⟩ m)
    (hintact : m₀.Intact) (hip : m₀.regs.ip = 0)
    (hitem : m₀.item? token = some (.immediate (.define .semicolon)))
    (hlen : name.length ≤ Record.maxNameLength) (hroom : code.length < (m₀.limits name).cells) :
    ∃ m', (∀ steps, m.interpretToken steps token = some (.ok () m')) ∧
      ({ m₀ with token := token } : Machine).WithDefinition name (Record.makeHeader 0 name.length)
        (code ++ [Runtime.exit.opcode]) [] m' ∧
      m'.regs.mode = .interpret ∧ m'.regs.defining = 0 := by
  rw [← h.item?_eq hintact] at hitem
  obtain ⟨xt, hrun⟩ := interpretToken_immediate h.grown.after hitem
    ((h.grown.intact hintact).bounds_of_find_le_size h.grown.after) (by simp) (by simp)
  obtain ⟨m', hend, h', hmode, hdefining⟩ := Exec.endDefinition_of_nil (h.retoken [] xt) hlen hroom
  have hstep : (Action.define .semicolon).step
      { m with token := [], regs := { m.regs with w := xt } } = .ok () m' := hend
  have hzero : m'.regs.ip = 0 := (congrArg (·.regs.ip) h'.rest).trans hip
  have htoken : m'.token = [] := congrArg (·.token) h'.rest
  refine ⟨{ m' with token := token }, fun steps => ?_, h'.retoken token, hmode, hdefining⟩
  rw [hrun, hstep]
  simp only [runThread_of_eq_zero steps hzero, Option.map_some, restoring, restoreToken, htoken]
  rfl

/-- A semicolon is refused while a structure is open. -/
theorem Drafting.interpretToken_semicolon_of_ne_nil (h : m₀.Drafting name d m)
    (hintact : m₀.Intact) (hitem : m₀.item? token = some (.immediate (.define .semicolon)))
    (hpending : d.pending ≠ []) :
    ∃ m', (∀ steps, m.interpretToken steps token = some (.error .controlMismatch m')) ∧
      ({ m₀ with token := token } : Machine).Drafting name d m' := by
  obtain ⟨code, pending⟩ := d
  obtain ⟨entry, rest, rfl⟩ := List.exists_cons_of_ne_nil hpending
  rw [← h.item?_eq hintact] at hitem
  obtain ⟨xt, hrun⟩ := interpretToken_immediate h.grown.after hitem
    ((h.grown.intact hintact).bounds_of_find_le_size h.grown.after) (by simp) (by simp)
  have hstep : (Action.define .semicolon).step
      { m with token := [], regs := { m.regs with w := xt } } = .error .controlMismatch _ :=
    Exec.endDefinition_of_cons (h.retoken [] xt)
  refine ⟨_, fun steps => ?_, h.retoken token xt⟩
  rw [hrun, hstep]
  rfl

theorem Drafting.interpret_of_ok (h : m₀.Drafting name d m) (hintact : m₀.Intact)
    (hip : m₀.regs.ip = 0) (hreads : m.input.Reads (token :: ts)) {p : Part}
    (hitem : m₀.item? token = some p.item) (hdraft : p.draft (m₀.limits name) d = .ok () d') :
    ∃ input m', (∀ steps, m.interpret (steps + 1) = interpret steps m') ∧ input.Reads ts ∧
      ({ m₀ with token := token, input := input } : Machine).Drafting name d' m' := by
  obtain ⟨input, hrest, hrun⟩ := interpret_of_reads hreads
  obtain ⟨r, htoken, hrelated⟩ := (h.next token input).interpretToken hintact hip hitem
  obtain ⟨_, m', rfl, -, h'⟩ := hrelated.of_eq_ok hdraft
  refine ⟨input, m', fun steps => ?_, hrest, h'⟩
  rw [hrun, htoken]

theorem Drafting.interpret_of_error (h : m₀.Drafting name d m) (hintact : m₀.Intact)
    (hip : m₀.regs.ip = 0) (hreads : m.input.Reads (token :: ts)) {p : Part}
    (hitem : m₀.item? token = some p.item) {e : Fault}
    (hdraft : p.draft (m₀.limits name) d = .error e d') :
    ∃ input m', (∀ steps, m.interpret (steps + 1) = some (.error e m')) ∧ input.Reads ts ∧
      ({ m₀ with token := token, input := input } : Machine).Drafting name d' m' := by
  obtain ⟨input, hrest, hrun⟩ := interpret_of_reads hreads
  obtain ⟨r, htoken, hrelated⟩ := (h.next token input).interpretToken hintact hip hitem
  obtain ⟨m', rfl, h'⟩ := hrelated.of_eq_error hdraft
  refine ⟨input, m', fun steps => ?_, hrest, h'⟩
  rw [hrun, htoken]

theorem Drafting.interpret_semicolon {code : List Cell} (h : m₀.Drafting name ⟨code, []⟩ m)
    (hintact : m₀.Intact) (hip : m₀.regs.ip = 0) (hreads : m.input.Reads (token :: ts))
    (hitem : m₀.item? token = some (.immediate (.define .semicolon)))
    (hlen : name.length ≤ Record.maxNameLength) (hroom : code.length < (m₀.limits name).cells) :
    ∃ input m', (∀ steps, m.interpret (steps + 1) = interpret steps m') ∧ input.Reads ts ∧
      ({ m₀ with token := token, input := input } : Machine).WithDefinition name
        (Record.makeHeader 0 name.length) (code ++ [Runtime.exit.opcode]) [] m' ∧
      m'.regs.mode = .interpret ∧ m'.regs.defining = 0 := by
  obtain ⟨input, hrest, hrun⟩ := interpret_of_reads hreads
  obtain ⟨m', htoken, h'⟩ :=
    (h.next token input).interpretToken_semicolon hintact hip hitem hlen hroom
  refine ⟨input, m', fun steps => ?_, hrest, h'⟩
  rw [hrun, htoken]

theorem Drafting.interpret_semicolon_of_ne_nil (h : m₀.Drafting name d m) (hintact : m₀.Intact)
    (hreads : m.input.Reads (token :: ts))
    (hitem : m₀.item? token = some (.immediate (.define .semicolon))) (hpending : d.pending ≠ []) :
    ∃ input m', (∀ steps, m.interpret (steps + 1) = some (.error .controlMismatch m')) ∧
      input.Reads ts ∧
      ({ m₀ with token := token, input := input } : Machine).Drafting name d m' := by
  obtain ⟨input, hrest, hrun⟩ := interpret_of_reads hreads
  obtain ⟨m', htoken, h'⟩ :=
    (h.next token input).interpretToken_semicolon_of_ne_nil hintact hitem hpending
  refine ⟨input, m', fun steps => ?_, hrest, h'⟩
  rw [hrun, htoken]

/-- Inside of an open definition, interpreting a row of tokens does to it what their parts do to the
draft. -/
theorem Drafting.interpret_parts {tokens : List (List UInt8)} {ps : List Part}
    (h : m₀.Drafting name d m) (hintact : m₀.Intact) (hip : m₀.regs.ip = 0)
    (hreads : m.input.Reads (tokens ++ ts))
    (hitems : List.Forall₂ (fun token p => m₀.item? token = some p.item) tokens ps)
    (hdraft : ps.forM (Part.draft (m₀.limits name)) d = .ok () d') :
    ∃ token input m', (∀ steps, m.interpret (tokens.length + steps) = interpret steps m') ∧
      input.Reads ts ∧
      ({ m₀ with token := token, input := input } : Machine).Drafting name d' m' := by
  -- The base machine is generalized too: with each token, its input has been read further.
  induction ps generalizing m₀ m d tokens with
  | nil =>
    cases hitems
    cases hdraft
    have hinput : m.input = m₀.input := congrArg (·.input) h.rest
    rw [hinput] at hreads
    exact ⟨m₀.token, m₀.input, m, fun steps => by rw [List.length_nil, Nat.zero_add], hreads, h⟩
  | cons p ps ih =>
    obtain ⟨token, tokens, hitem, hrestItems, rfl⟩ := List.forall₂_cons_right_iff.mp hitems
    cases hp : p.draft (m₀.limits name) d with
    | error e d₁ =>
      have hfail : (p :: ps).forM (Part.draft (m₀.limits name)) d = .error e d₁ := bind_of_error hp
      rw [hfail] at hdraft
      cases hdraft
    | ok _ d₁ =>
      have hrest : ps.forM (Part.draft (m₀.limits name)) d₁ = .ok () d' :=
        (bind_of_ok hp).symm.trans hdraft
      obtain ⟨input, m₁, hrun, hreads₁, h₁⟩ :=
        h.interpret_of_ok hintact hip hreads hitem hp
      have hinput : m₁.input = input := congrArg (·.input) h₁.rest
      obtain ⟨token', input', m₂, hrun', hreads₂, h₂⟩ :=
        ih h₁ hintact hip (by rwa [hinput]) hrestItems hrest
      refine ⟨token', input', m₂, fun steps => ?_, hreads₂, h₂⟩
      rw [List.length_cons, Nat.add_right_comm, hrun, hrun']

/-- A colon opens a definition of the name behind it, and then runs threaded code that was
interrupted, if any. -/
theorem interpretToken_colon {colon : List UInt8} (h : m.WithinRegions)
    (hbounds : ∀ r, m.find colon = .ok (some r) →
      dictionaryStart ≤ r.address ∧ r.body ≤ m.memory.size)
    (hmode : m.regs.mode = .interpret) (hdefining : m.regs.defining = 0)
    (hcolon : m.item? colon = some (.immediate (.define .colon)))
    (hreads : m.input.Reads (name :: ts)) (hlen : name.length ≤ Record.maxNameLength)
    (hcells : Record.cellsFor name.length ≤ m.unused) (hitems : 2 ≤ m.dataStack.room) :
    ∃ input m',
      (∀ steps, m.interpretToken steps colon = (runThread steps m').map (restoring colon)) ∧
      input.Reads ts ∧
      ({ m with token := name, input := input } : Machine).Drafting name .empty m' := by
  obtain ⟨xt, htoken⟩ := interpretToken_immediate h hcolon hbounds (by simp) (by simp)
  have h₁ : ({ m with token := [], regs := { m.regs with w := xt } } : Machine).WithinRegions :=
    { h with }
  obtain ⟨input, m', hbegin, hdrafting, hrest⟩ :=
    Exec.beginDefinition_of_room h₁ hmode hdefining hreads hlen hcells hitems
  have hstep : (Action.define .colon).step
      { m with token := [], regs := { m.regs with w := xt } } = .ok () m' := hbegin
  have hname : m'.token = name := congrArg (·.token) hdrafting.rest
  have hinput : m'.input = input := congrArg (·.input) hdrafting.rest
  have hbase := hdrafting.reread name input m.regs.w m'.regs.w
  refine ⟨input, m', fun steps => ?_, hrest, ?_⟩
  · rw [htoken, hstep]
  · rw [← hname, ← hinput] at hbase ⊢
    exact hbase

/-- A colon and a name open a definition. -/
theorem interpret_colon {colon : List UInt8} (h : m.WithinRegions)
    (hbounds : ∀ r, m.find colon = .ok (some r) →
      dictionaryStart ≤ r.address ∧ r.body ≤ m.memory.size)
    (hip : m.regs.ip = 0) (hmode : m.regs.mode = .interpret) (hdefining : m.regs.defining = 0)
    (hcolon : m.item? colon = some (.immediate (.define .colon)))
    (hreads : m.input.Reads (colon :: name :: ts)) (hlen : name.length ≤ Record.maxNameLength)
    (hcells : Record.cellsFor name.length ≤ m.unused) (hitems : 2 ≤ m.dataStack.room) :
    ∃ input m', (∀ steps, m.interpret (steps + 1) = interpret steps m') ∧ input.Reads ts ∧
      ({ m with token := name, input := input } : Machine).Drafting name .empty m' := by
  obtain ⟨input, hreads₁, hrun⟩ := interpret_of_reads hreads
  have h₁ : ({ m with token := colon, input := input } : Machine).WithinRegions := { h with }
  obtain ⟨input', m', htoken, hreads₂, hdrafting⟩ := interpretToken_colon h₁ hbounds hmode hdefining
    hcolon hreads₁ hlen hcells hitems
  have hzero : m'.regs.ip = 0 := (congrArg (·.regs.ip) hdrafting.rest).trans hip
  have hname : m'.token = name := congrArg (·.token) hdrafting.rest
  have hne : name.isEmpty = false := by simpa using hreads₁.ne_nil name List.mem_cons_self
  refine ⟨input', m', fun steps => ?_, hreads₂, hdrafting⟩
  rw [hrun, htoken]
  simp only [runThread_of_eq_zero steps hzero, Option.map_some, restoring, restoreToken, hname, hne]
  rfl

end Machine

/-! ### Definitions are accepted as the tag machine accepts them -/

namespace Machine

/-- The machine runs words outside of threaded code, no definition is open, and its dictionary is
intact. -/
structure AtTopLevel (m : Machine) : Prop where
  /-- It is within its regions, as every machine is. -/
  within : m.WithinRegions
  /-- Its dictionary is intact. -/
  intact : m.Intact
  /-- It is outside of threaded code. -/
  ip_eq : m.regs.ip = 0
  /-- Words are run. -/
  mode_eq : m.regs.mode = .interpret
  /-- No definition is open. -/
  defining_eq : m.regs.defining = 0

/-- The machine is about to read a definition: a colon, the name, tokens that denote the given
parts, and a semicolon. -/
structure ReadsDefinition (m : Machine) (name : List UInt8) (tokens : List (List UInt8))
    (ps : List Part) (semicolon : List UInt8) : Prop where
  /-- The input starts with a colon, and the rest follows. -/
  reads : ∃ colon, m.item? colon = some (.immediate (.define .colon)) ∧
    m.input.Reads (colon :: name :: (tokens ++ [semicolon]))
  /-- The name is not too long. -/
  length_le : name.length ≤ Record.maxNameLength
  /-- The tokens denote the parts. -/
  items : List.Forall₂ (fun token p => m.item? token = some p.item) tokens ps
  /-- The last token denotes the word that completes a definition. -/
  semicolon : m.item? semicolon = some (.immediate (.define .semicolon))

/-- Tokens whose parts can be drafted with nothing left open make a definition, and the interpreter
goes on behind it. -/
theorem AtTopLevel.interpret_definition {m : Machine} {colon name semicolon : List UInt8}
    {tokens ts : List (List UInt8)} {ps : List Part} {code : List Cell} (h : m.AtTopLevel)
    (hcolon : m.item? colon = some (.immediate (.define .colon)))
    (hreads : m.input.Reads (colon :: name :: (tokens ++ semicolon :: ts)))
    (hlen : name.length ≤ Record.maxNameLength)
    (hparts : List.Forall₂ (fun token p => m.item? token = some p.item) tokens ps)
    (hsemicolon : m.item? semicolon = some (.immediate (.define .semicolon)))
    (hcells : Record.cellsFor name.length ≤ m.unused) (hitems : 2 ≤ m.dataStack.room)
    (hdraft : ps.forM (Part.draft (m.limits name)) .empty = .ok () ⟨code, []⟩)
    (hroom : code.length < (m.limits name).cells) :
    ∃ input m', (∀ steps, m.interpret (tokens.length + steps + 2) = interpret steps m') ∧
      input.Reads ts ∧
      ({ m with token := semicolon, input := input } : Machine).WithDefinition name
        (Record.makeHeader 0 name.length) (code ++ [Runtime.exit.opcode]) [] m' ∧
      m'.regs.mode = .interpret ∧ m'.regs.defining = 0 := by
  obtain ⟨input₁, m₁, hrun₁, hreads₁, h₁⟩ := interpret_colon h.within
    (h.intact.bounds_of_find_le_size h.within) h.ip_eq h.mode_eq h.defining_eq hcolon hreads
    hlen hcells hitems
  have hinput₁ : m₁.input = input₁ := congrArg (·.input) h₁.rest
  rw [← hinput₁] at hreads₁
  obtain ⟨token, input₂, m₂, hrun₂, hreads₂, h₂⟩ :=
    h₁.interpret_parts h.intact h.ip_eq hreads₁ hparts hdraft
  have hinput₂ : m₂.input = input₂ := congrArg (·.input) h₂.rest
  rw [← hinput₂] at hreads₂
  obtain ⟨input₃, m₃, hrun₃, hreads₃, h₃⟩ :=
    h₂.interpret_semicolon h.intact h.ip_eq hreads₂ hsemicolon hlen hroom
  exact ⟨input₃, m₃, fun steps => (hrun₁ _).trans ((hrun₂ (steps + 1)).trans (hrun₃ steps)),
    hreads₃, h₃⟩

section Definition

variable {m : Machine} {name semicolon : List UInt8} {tokens : List (List UInt8)} {ps : List Part}
  {d : Draft} (h : m.AtTopLevel) (hd : m.ReadsDefinition name tokens ps semicolon)
  (hcells : Record.cellsFor name.length ≤ m.unused) (hitems : 2 ≤ m.dataStack.room)
include h hd hcells hitems

/-- As far as parts can be drafted, the interpreter gets through their tokens. -/
theorem interpret_of_draft {n : Nat} (hn : n ≤ tokens.length)
    (hdraft : (ps.take n).forM (Part.draft (m.limits name)) .empty = .ok () d) :
    ∃ token input m', (∀ steps, m.interpret (n + steps + 1) = interpret steps m') ∧
      input.Reads ((tokens ++ [semicolon]).drop n) ∧
      ({ m with token := token, input := input } : Machine).Drafting name d m' := by
  obtain ⟨colon, hcolon, hreads⟩ := hd.reads
  obtain ⟨input₁, m₁, hrun₁, hreads₁, h₁⟩ := interpret_colon h.within
    (h.intact.bounds_of_find_le_size h.within) h.ip_eq h.mode_eq h.defining_eq hcolon hreads
    hd.length_le hcells hitems
  have hinput : m₁.input = input₁ := congrArg (·.input) h₁.rest
  have hsplit : tokens ++ [semicolon] = tokens.take n ++ (tokens ++ [semicolon]).drop n := by
    rw [List.drop_append_of_le_length hn, ← List.append_assoc, List.take_append_drop]
  rw [hsplit, ← hinput] at hreads₁
  obtain ⟨token, input, m₂, hrun₂, hreads₂, h₂⟩ :=
    h₁.interpret_parts h.intact h.ip_eq hreads₁ (List.forall₂_take n hd.items) hdraft
  rw [List.length_take_of_le hn] at hrun₂
  exact ⟨token, input, m₂, fun steps => (hrun₁ _).trans (hrun₂ steps), hreads₂, h₂⟩

/-- If all parts can be drafted with nothing left open, the definition is completed, and the code is
that of the draft. -/
theorem interpret_definition_of_draft {code : List Cell}
    (hdraft : ps.forM (Part.draft (m.limits name)) .empty = .ok () ⟨code, []⟩)
    (hroom : code.length < (m.limits name).cells) {steps : Nat}
    (hsteps : tokens.length + 2 ≤ steps) :
    ∃ m', m.interpret steps = some (.ok () m') ∧
      ({ m with token := [], input := ⟨[]⟩ } : Machine).WithDefinition name
        (Record.makeHeader 0 name.length) (code ++ [Runtime.exit.opcode]) [] m' ∧
      m'.regs.mode = .interpret ∧ m'.regs.defining = 0 := by
  obtain ⟨steps, rfl⟩ := Nat.exists_eq_add_of_le' hsteps
  obtain ⟨colon, hcolon, hreads⟩ := hd.reads
  obtain ⟨input, m', hrun, hreads', h', hmode, hdefining⟩ := h.interpret_definition hcolon hreads
    hd.length_le hd.items hd.semicolon hcells hitems hdraft hroom
  have hinput : m'.input = input := congrArg (·.input) h'.rest
  rw [← hinput] at hreads'
  have hend := interpret_of_nil steps (Exec.parseWord_of_reads_nil hreads') rfl
  refine ⟨_, ?_, h'.reread [] ⟨[]⟩ m.regs.w m'.regs.w, hmode, hdefining⟩
  rw [← hend, ← hrun]
  congr 1
  omega

end Definition

section Room

variable {m : Machine} {name semicolon : List UInt8} {tokens : List (List UInt8)} {ps : List Part}
  (h : m.AtTopLevel) (hd : m.ReadsDefinition name tokens ps semicolon)
  (hcells : Record.cellsFor name.length + Part.codeCells [] ps ≤ m.unused)
  (hitems : 2 * (1 + Part.height [] ps) ≤ m.dataStack.room)
include hcells hitems

/-- With room for what the tag machine gets to, parts can be drafted as far as it runs. -/
theorem draft_of_runTags {n : Nat} {tags : List ControlTag}
    (hrun : Part.runTags [] (ps.take n) = some tags) :
    ∃ d, (ps.take n).forM (Part.draft (m.limits name)) .empty = .ok () d ∧ d.tags = tags ∧
      d.code.length + Part.codeCells tags (ps.drop n) ≤ (m.limits name).cells := by
  have hcode : Draft.empty.code.length + Part.codeCells Draft.empty.tags
      (ps.take n ++ ps.drop n) ≤ (m.limits name).cells := by
    rw [List.take_append_drop]
    simp only [limits, Draft.empty, Draft.tags, List.map_nil, List.length_nil]
    omega
  have hopen : 2 * Part.height Draft.empty.tags (ps.take n ++ ps.drop n) ≤
      (m.limits name).items := by
    rw [List.take_append_drop]
    simp only [limits, Draft.empty, Draft.tags, List.map_nil]
    omega
  exact Part.forM_draft_of_runTags hrun hcode hopen

include h hd

/-- As far as the tag machine runs, the interpreter gets through the tokens. -/
theorem interpret_of_runTags {n : Nat} (hn : n ≤ ps.length) {tags : List ControlTag}
    (hrun : Part.runTags [] (ps.take n) = some tags) :
    ∃ d token input m', (∀ steps, m.interpret (n + steps + 1) = interpret steps m') ∧
      input.Reads ((tokens ++ [semicolon]).drop n) ∧
      ({ m with token := token, input := input } : Machine).Drafting name d m' ∧ d.tags = tags ∧
      d.code.length + Part.codeCells tags (ps.drop n) ≤ (m.limits name).cells := by
  obtain ⟨d, hdraft, htags, hleft⟩ := draft_of_runTags hcells hitems hrun
  rw [← hd.items.length_eq] at hn
  obtain ⟨token, input, m', hrun', hreads, h'⟩ :=
    interpret_of_draft h hd (by omega) (by omega) hn hdraft
  exact ⟨d, token, input, m', hrun', hreads, h', htags, hleft⟩

/-- Where the tag machine runs through, the definition is completed. -/
theorem interpret_definition_of_runTags (hrun : Part.runTags [] ps = some []) {steps : Nat}
    (hsteps : tokens.length + 2 ≤ steps) :
    ∃ m', m.interpret steps = some (.ok () m') ∧ m'.regs.mode = .interpret ∧
      m'.regs.defining = 0 ∧ m'.dataStack.items = m.dataStack.items := by
  rw [← List.take_length (l := ps)] at hrun
  obtain ⟨⟨code, pending⟩, hdraft, htags, hleft⟩ := draft_of_runTags hcells hitems hrun
  obtain rfl : pending = [] := List.map_eq_nil_iff.mp htags
  rw [List.drop_length] at hleft
  rw [List.take_length] at hdraft
  obtain ⟨m', hrun', h', hmode, hdefining⟩ :=
    interpret_definition_of_draft h hd (by omega) (by omega) hdraft hleft hsteps
  exact ⟨m', hrun', hmode, hdefining, h'.items⟩

/-- Where the tag machine meets a mismatch, so does the interpreter. -/
theorem interpret_definition_of_mismatchAt {n : Nat} (hn : n ≤ ps.length)
    (hmismatch : Part.MismatchAt [] ps n) {steps : Nat} (hsteps : tokens.length + 2 ≤ steps) :
    ∃ m', m.interpret steps = some (.error .controlMismatch m') ∧
      (tokens ++ [semicolon])[n]? = some m'.token ∧
      m'.input.Reads ((tokens ++ [semicolon]).drop (n + 1)) ∧
      ∃ top, m'.dataStack.items = top ++ m.dataStack.items := by
  have hlength := hd.items.length_eq
  obtain ⟨steps, rfl⟩ : ∃ k, steps = n + (k + 1) + 1 := ⟨steps - n - 2, by omega⟩
  obtain ⟨tags, hrun, hfail⟩ := hmismatch
  obtain ⟨d, token, input, m₁, hrun₁, hreads₁, h₁, rfl, hleft⟩ :=
    interpret_of_runTags h hd hcells hitems hn hrun
  have hinput : m₁.input = input := congrArg (·.input) h₁.rest
  have hlt : n < (tokens ++ [semicolon]).length := by
    rw [List.length_append, List.length_singleton]
    omega
  rw [List.drop_eq_getElem_cons hlt, ← hinput] at hreads₁
  have hstop : ∃ d' input' m₂,
      (∀ steps, m₁.interpret (steps + 1) = some (.error .controlMismatch m₂)) ∧
      input'.Reads ((tokens ++ [semicolon]).drop (n + 1)) ∧
      ({ m with token := (tokens ++ [semicolon])[n], input := input' } : Machine).Drafting
        name d' m₂ := by
    by_cases hpart : n < ps.length
    · -- The next token denotes a part that the tag machine refuses.
      rw [List.getElem?_eq_getElem hpart] at hfail
      have hitem : m.item? (tokens ++ [semicolon])[n] = some ps[n].item := by
        rw [List.getElem_append_left (by omega)]
        exact hd.items.get (by omega) hpart
      rw [List.drop_eq_getElem_cons hpart] at hleft
      have hspends := Part.spends_le_codeCells d.tags ps[n] (ps.drop (n + 1))
      have hroom : d.code.length + ps[n].spends d.tags ≤ (m.limits name).cells := by omega
      obtain ⟨d', hdraft⟩ := Part.draft_of_retag_eq_none hfail hroom
      exact ⟨d', h₁.interpret_of_error h.intact h.ip_eq hreads₁ hitem hdraft⟩
    · -- The semicolon meets an open structure.
      rw [List.getElem?_eq_none (by omega)] at hfail
      have hitem : m.item? (tokens ++ [semicolon])[n] = some (.immediate (.define .semicolon)) := by
        rw [List.getElem_append_right (by omega), List.getElem_singleton]
        exact hd.semicolon
      have hpending : d.pending ≠ [] := fun hnil => hfail (by rw [Draft.tags, hnil]; rfl)
      exact ⟨d, h₁.interpret_semicolon_of_ne_nil h.intact hreads₁ hitem hpending⟩
  obtain ⟨d', input', m₂, hrun₂, hreads₂, h₂⟩ := hstop
  have htoken : m₂.token = (tokens ++ [semicolon])[n] := congrArg (·.token) h₂.rest
  have hinput₂ : m₂.input = input' := congrArg (·.input) h₂.rest
  refine ⟨m₂, (hrun₁ (steps + 1)).trans (hrun₂ steps), ?_, hinput₂ ▸ hreads₂, _, h₂.items⟩
  rw [htoken, List.getElem?_eq_getElem hlt]

end Room

/-- **Definitions and the tag machine.** At the top level and with room for what the tag machine
gets to, reading a definition succeeds exactly when the machine runs through its parts and ends with
nothing open; then words are run again, no definition is open, and the data stack is as it was.
Otherwise the fault is a mismatch, it is met at the first token at which the tag machine fails, or
at the semicolon if it gets there with a structure open, and the items that were on the stack are
still at its bottom. The room is two cells of the stack for the definition and for each structure
that is open at once, and the cells of the record and of the code up to the mismatch. -/
theorem interpret_definition_iff_runTags {m : Machine} {name semicolon : List UInt8}
    {tokens : List (List UInt8)} {ps : List Part} (h : m.AtTopLevel)
    (hd : m.ReadsDefinition name tokens ps semicolon)
    (hcells : Record.cellsFor name.length + Part.codeCells [] ps ≤ m.unused)
    (hitems : 2 * (1 + Part.height [] ps) ≤ m.dataStack.room)
    {steps : Nat} (hsteps : tokens.length + 2 ≤ steps) :
    ((∃ m', m.interpret steps = some (.ok () m')) ↔ Part.runTags [] ps = some []) ∧
    (∀ m', m.interpret steps = some (.ok () m') →
      m'.regs.mode = .interpret ∧ m'.regs.defining = 0 ∧ m'.dataItems = m.dataItems) ∧
    (Part.runTags [] ps ≠ some [] →
      ∃ n ≤ ps.length, Part.MismatchAt [] ps n ∧
        ∃ m', m.interpret steps = some (.error .controlMismatch m') ∧
          (tokens ++ [semicolon])[n]? = some m'.token ∧
          m'.input.Reads ((tokens ++ [semicolon]).drop (n + 1)) ∧
          m.dataItems <+: m'.dataItems) := by
  by_cases hrun : Part.runTags [] ps = some []
  · obtain ⟨m', hok, hmode, hdefining, hstack⟩ :=
      interpret_definition_of_runTags h hd hcells hitems hrun hsteps
    refine ⟨⟨fun _ => hrun, fun _ => ⟨m', hok⟩⟩, fun m'' hm'' => ?_, fun hne => absurd hrun hne⟩
    rw [hok] at hm''
    cases hm''
    exact ⟨hmode, hdefining, List.reverse_injective hstack⟩
  · obtain ⟨n, hn, hmismatch⟩ := (Part.runTags_or_mismatchAt [] ps).resolve_left hrun
    obtain ⟨m', herror, htoken, hreads, top, hstack⟩ :=
      interpret_definition_of_mismatchAt h hd hcells hitems hn hmismatch hsteps
    have hnot : ∀ m'', m.interpret steps ≠ some (.ok () m'') := fun m'' hok => by
      rw [herror] at hok
      cases hok
    refine ⟨⟨fun ⟨m'', hok⟩ => absurd hok (hnot m''), fun hok => absurd hok hrun⟩,
      fun m'' hok => absurd hok (hnot m''),
      fun _ => ⟨n, hn, hmismatch, m', herror, htoken, hreads, top.reverse, ?_⟩⟩
    have hreverse := congrArg List.reverse hstack
    rw [List.reverse_append, Stack.items, Stack.items, List.reverse_reverse,
      List.reverse_reverse] at hreverse
    exact hreverse.symm

/-- A new machine is at the top level, whatever it reads. -/
theorem New.atTopLevel {config : Config} {layout : Layout} {input : Source} {output : Sink}
    {m : Machine} (hnew : m.New config layout input output) (source : Source) :
    ({ m with input := source } : Machine).AtTopLevel where
  within := { hnew.within with }
  intact := hnew.intact
  ip_eq := by rw [hnew.regs]; rfl
  mode_eq := by rw [hnew.regs]; rfl
  defining_eq := by rw [hnew.regs]; rfl

/-- In a new machine, a loop cannot be closed inside of a conditional. -/
theorem mismatch_at_again_inside_if :
    ∃ m : Machine, m.AtTopLevel ∧
      m.ReadsDefinition (Text.bytes "x") (["begin", "if", "again", "then"].map Text.bytes)
        ([.openBegin, .openIf, .closeAgain, .closeThen].map .control) (Text.bytes ";") ∧
      ∃ m', m.interpret 6 = some (.error .controlMismatch m') ∧ m'.token = Text.bytes "again" := by
  have hlayout : Config.layout {} = .ok ⟨32576, 32640, 32768⟩ := rfl
  obtain ⟨m, -, hnew⟩ := create_of_room hlayout (by decide +kernel) .empty {} .off
  have hitem : ∀ token item, newItem? token = some item → m.item? token = some item :=
    fun token item h => (hnew.item?_eq token).trans h
  have hd : ({ m with input := .ofText ": x begin if again then ;" } : Machine).ReadsDefinition
      (Text.bytes "x") (["begin", "if", "again", "then"].map Text.bytes)
      ([.openBegin, .openIf, .closeAgain, .closeThen].map .control) (Text.bytes ";") := by
    refine ⟨⟨Text.bytes ":", hitem _ _ ?_, ⟨_, rfl, ?_⟩, ?_⟩, ?_,
      .cons (hitem _ _ ?_) (.cons (hitem _ _ ?_) (.cons (hitem _ _ ?_)
        (.cons (hitem _ _ ?_) .nil))), hitem _ _ ?_⟩
    all_goals decide +kernel
  have htop := hnew.atTopLevel (.ofText ": x begin if again then ;")
  refine ⟨_, htop, hd, ?_⟩
  have hcells : 31000 ≤ m.unused := by
    rw [hnew.unused_eq]
    decide +kernel
  have hroom : 64 ≤ m.dataStack.room := by
    rw [hnew.room_eq]
    decide +kernel
  obtain ⟨-, -, hstop⟩ := interpret_definition_iff_runTags htop hd
    (Nat.le_trans (by decide +kernel) hcells) (Nat.le_trans (by decide +kernel) hroom)
    (Nat.le_refl 6)
  obtain ⟨n, hn, hmismatch, m', herror, htoken, -⟩ := hstop (by decide)
  have htwo : ∀ n ≤ 4, Part.MismatchAt []
      ([.openBegin, .openIf, .closeAgain, .closeThen].map .control) n → n = 2 := by decide
  obtain rfl := htwo n hn hmismatch
  exact ⟨m', herror, (Option.some.inj htoken).symm⟩

/-- A record that is written over the newest one is linked to itself, and no word is found any
more. -/
theorem Drafting.find_of_latest_eq {m₀ m : Machine} {name : List UInt8} {d : Draft}
    (h : m₀.Drafting name d m) (hlatest : m₀.regs.latest = m₀.regs.here) (token : List UInt8) :
    m.find token = .error .invalidMemoryAddress := by
  have hstart := h.grown.before.start_le_here
  let r : Record :=
    ⟨m₀.regs.here.toNat, m₀.regs.latest, Record.makeHeader Record.hiddenBit name.length⟩
  have hrecord : m.memory.recordAt r.address = .ok r := Memory.recordAt_of_holds h.grown.holds
  have hhidden : r.isHidden = true := Record.isHidden_makeHeader ..
  have hne : r.address ≠ 0 := by
    show m₀.regs.here.toNat ≠ 0
    unfold dictionaryStart at hstart
    omega
  unfold find
  rw [h.grown.latest]
  exact Memory.findFrom_of_loop hrecord hhidden (congrArg UInt16.toNat hlatest) hne token _

/-- Where the newest record starts at the free end, a definition is refused behind its name. -/
theorem interpret_definition_of_latest_eq {m : Machine} (h : m.WithinRegions)
    (hlatest : m.regs.latest = m.regs.here) (hip : m.regs.ip = 0)
    (hmode : m.regs.mode = .interpret) (hdefining : m.regs.defining = 0)
    {colon name token : List UInt8} {ts : List (List UInt8)}
    (hcolon : m.item? colon = some (.immediate (.define .colon)))
    (hbounds : ∀ r, m.find colon = .ok (some r) →
      dictionaryStart ≤ r.address ∧ r.body ≤ m.memory.size)
    (hreads : m.input.Reads (colon :: name :: token :: ts))
    (hlen : name.length ≤ Record.maxNameLength) (hcells : Record.cellsFor name.length ≤ m.unused)
    (hitems : 2 ≤ m.dataStack.room) (steps : Nat) :
    ∃ m', m.interpret (steps + 2) = some (.error .invalidMemoryAddress m') := by
  obtain ⟨input, m₁, hrun₁, hreads₁, h₁⟩ := interpret_colon h hbounds hip hmode hdefining hcolon
    hreads hlen hcells hitems
  have hinput : m₁.input = input := congrArg (·.input) h₁.rest
  rw [← hinput] at hreads₁
  obtain ⟨input₂, -, hrun₂⟩ := interpret_of_reads hreads₁
  have hfind := (h₁.next token input₂).find_of_latest_eq hlatest token
  have hstop := hrun₂ steps
  rw [interpretToken_of_error steps hfind] at hstop
  exact ⟨_, (hrun₁ (steps + 1)).trans hstop⟩

/-- Without an intact dictionary, the interpreter can refuse what the tag machine accepts. Here the
dictionary of a new machine is moved back by the six cells of its newest record; the next record is
written over that one and linked to itself, and no word is found any more. -/
theorem definition_refused_after_allot :
    ∃ m m' : Machine, create {} .empty {} .off = .ok m ∧ Exec.allot (-6) m = .ok () m' ∧
      m'.poison? = none ∧ m'.regs.mode = .interpret ∧ m'.regs.defining = 0 ∧
      31000 < m'.unused ∧ 64 ≤ m'.dataStack.room ∧ Part.runTags [] [] = some [] ∧
      ∃ m'', m'.evaluate 2 ": x ;" = some (.error (.fault .invalidMemoryAddress) m'') := by
  have hlayout : Config.layout {} = .ok ⟨32576, 32640, 32768⟩ := rfl
  obtain ⟨m, hcreate, hnew⟩ := create_of_room hlayout (by decide +kernel) .empty {} .off
  have hlast : Vocabulary.builtins.getLast? = some ⟨"max-u", .value Cell.top, false⟩ := rfl
  have hlatest : m.regs.latest.toNat + 6 = m.regs.here.toNat := hnew.latest _ hlast
  have hstart : dictionaryStart ≤ m.regs.latest.toNat := by
    have hcells : dictionaryStart + 6 ≤ dictionaryStart + Vocabulary.cells := by decide +kernel
    rw [← hnew.here] at hcells
    omega
  have hdata := hnew.within.here_le_dataBase
  have hback : (m.regs.here.toNat : Int) + -6 = m.regs.latest.toNat := by omega
  have hallot : Exec.allot (-6) m =
      .ok () { m with regs := { m.regs with here := m.regs.latest } } := by
    rw [Exec.allot_eq, hback, if_pos (by omega), if_pos (by omega), Int.toNat_natCast,
      UInt16.ofNat_toNat]
  have hunused : 31000 < m.unused := by
    rw [hnew.unused_eq]
    decide +kernel
  have hroom : 64 ≤ m.dataStack.room := by
    rw [hnew.room_eq]
    decide +kernel
  generalize hm' :
    ({ m with regs := { m.regs with here := m.regs.latest } } : Machine) = m' at hallot
  have hregs : m'.regs = { m.regs with here := m.regs.latest } := by rw [← hm']
  have hmode : m'.regs.mode = .interpret := by rw [hregs, hnew.regs]; rfl
  have hdefining : m'.regs.defining = 0 := by rw [hregs, hnew.regs]; rfl
  have hip : m'.regs.ip = 0 := by rw [hregs, hnew.regs]; rfl
  have hfault : m'.regs.fault = false := by rw [hregs, hnew.regs]; rfl
  have hpoison : m'.poison? = none := by rw [poison?, hfault]; rfl
  have hwithin : (m'.setText ": x ;").WithinRegions := by
    rw [← hm']
    have hbelow : m.regs.latest.toNat ≤ m.regs.dataBase.toNat := by omega
    exact { hnew.within with start_le_here := hstart, here_le_dataBase := hbelow }
  have hcolon : (m'.setText ": x ;").item? (Text.bytes ":") =
      some (.immediate (.define .colon)) := by
    rw [← hm']
    exact (hnew.item?_eq _).trans (by decide +kernel)
  have hreads : (m'.setText ": x ;").input.Reads [Text.bytes ":", Text.bytes "x", Text.bytes ";"] :=
    ⟨⟨_, rfl, by decide +kernel⟩, by decide +kernel⟩
  have hunused' : 31000 < m'.unused := by
    rw [← hm']
    simp only [unused] at hunused ⊢
    omega
  have hroom' : 64 ≤ m'.dataStack.room := by
    rw [← hm']
    exact hroom
  obtain ⟨m'', hrun⟩ := interpret_definition_of_latest_eq hwithin (by rw [← hm']; rfl) hip hmode
    hdefining hcolon (by rw [← hm']; exact hnew.intact.bounds_of_find_le_size hnew.within) hreads
    (by decide +kernel) (Nat.le_trans (by decide +kernel) (Nat.le_of_lt hunused'))
    (Nat.le_trans (by decide) hroom') 0
  refine ⟨m, m', hcreate, hallot, hpoison, hmode, hdefining, hunused', hroom', rfl, ?_⟩
  have hnone : (m'.setText ": x ;").poison? = none := hpoison
  simp only [evaluate, hpoison, run, hnone, hrun, Option.map_some, finishRun]
  split <;> exact ⟨_, rfl⟩

end Machine

end CellForth
