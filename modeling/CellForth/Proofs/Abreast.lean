import CellForth.Proofs.Lockstep

/-!
# Machines that differ in their devices

Two machines are abreast if they agree on everything but input, output and journal, and if these are
related in a way that is given: the inputs by `I`, the outputs by `O`, and the verbosities of the
journals by `V`. Most operations have nothing to do with devices and are taken in step by such
machines (`Exec.Inward.tracks`). The others are few: reading, writing, and reports to the journal.

All of these can put the second machine out, and what is known then may depend on what the first one
has left to read and on what it has written. With them given, `Lockstep.of_reading` puts the
machines in step. Reading does not tell the machines apart if their sources, related by `I`, answer
every read alike (`Source.SameReading`); this is `Lockstep.of_abreast`.
-/

namespace CellForth

variable {α β : Type}

/-! ### Operations that have nothing to do with devices -/

/-- The result with its state changed. -/
def mapState {ε σ τ : Type} (g : σ → τ) : EStateM.Result ε σ α → EStateM.Result ε τ α
  | .ok a s => .ok a (g s)
  | .error e s => .error e (g s)

/-- Related results are the same behind a change that forgets what sets related states apart. -/
theorem Related.mapState_eq {ε σ τ : Type} {R : σ → σ → Prop} {g : σ → τ}
    {r r' : EStateM.Result ε σ α} (h : Related R Eq r r') (hg : ∀ s t, R s t → g t = g s) :
    mapState g r' = mapState g r := by
  cases h with
  | @ok a _ s t hv hst =>
    cases hv
    exact congrArg (EStateM.Result.ok a) (hg s t hst)
  | @error e s t hst => exact congrArg (EStateM.Result.error e) (hg s t hst)

namespace Exec

/-- The operation does behind a change of the machine what it does without it. -/
def Commutes (g : Machine → Machine) (op : Exec α) : Prop :=
  ∀ m, op (g m) = mapState g (op m)

namespace Commutes

variable {g : Machine → Machine}

theorem look {f : Machine → Except Fault α} (hf : ∀ m, f (g m) = f m) : Commutes g (observe f) := by
  intro m
  simp only [observe, hf m]
  cases f m <;> rfl

theorem bind {x : Exec α} {f : α → Exec β} (hx : Commutes g x) (hf : ∀ a, Commutes g (f a)) :
    Commutes g (x >>= f) := by
  intro m
  have hfirst := hx m
  cases h : x m with
  | ok a m' =>
    rw [h] at hfirst
    rw [bind_of_ok h, bind_of_ok hfirst]
    exact hf a m'
  | error e m' =>
    rw [h] at hfirst
    rw [bind_of_error h, bind_of_error hfirst]
    rfl

theorem onMemory (hsame : ∀ m, (g m).memory = m.memory)
    (hg : ∀ m memory, { g m with memory := memory } = g { m with memory := memory })
    (op : EStateM Fault Memory α) : Commutes g (onMemory op) := by
  intro m
  rw [onMemory_eq, onMemory_eq, hsame]
  cases op m.memory with
  | ok a memory => exact congrArg (EStateM.Result.ok a) (hg m memory)
  | error e memory => exact congrArg (EStateM.Result.error e) (hg m memory)

theorem onData (hsame : ∀ m, (g m).dataStack = m.dataStack)
    (hg : ∀ m s, (g m).withDataStack s = g (m.withDataStack s)) (op : StackM α) :
    Commutes g (onData op) := by
  intro m
  rw [onData_eq, onData_eq, hsame]
  cases op m.dataStack with
  | ok a s => exact congrArg (EStateM.Result.ok a) (hg m s)
  | error e s => exact congrArg (EStateM.Result.error e) (hg m s)

theorem onReturn (hsame : ∀ m, (g m).returnStack = m.returnStack)
    (hg : ∀ m s, (g m).withReturnStack s = g (m.withReturnStack s)) (op : StackM α) :
    Commutes g (onReturn op) := by
  intro m
  rw [onReturn_eq, onReturn_eq, hsame]
  cases op m.returnStack with
  | ok a s => exact congrArg (EStateM.Result.ok a) (hg m s)
  | error e s => exact congrArg (EStateM.Result.error e) (hg m s)

end Commutes

/-- The operation does the same whatever the devices are, and leaves them alone. -/
def Inward (op : Exec α) : Prop :=
  ∀ input output journal, Commutes (Machine.withDevices input output journal) op

namespace Inward

theorem look {f : Machine → Except Fault α} (hf : DeviceBlind f) : Inward (observe f) :=
  fun input output journal => .look (hf input output journal)

theorem bind {x : Exec α} {f : α → Exec β} (hx : Inward x) (hf : ∀ a, Inward (f a)) :
    Inward (x >>= f) :=
  fun input output journal => (hx input output journal).bind fun a => hf a input output journal

theorem onMemory (op : EStateM Fault Memory α) : Inward (onMemory op) :=
  fun input output journal =>
    .onMemory (g := Machine.withDevices input output journal) (fun _ => rfl) (fun _ _ => rfl) op

theorem onData (op : StackM α) : Inward (onData op) :=
  fun input output journal =>
    .onData (g := Machine.withDevices input output journal) (fun _ => rfl) (fun _ _ => rfl) op

theorem onReturn (op : StackM α) : Inward (onReturn op) :=
  fun input output journal =>
    .onReturn (g := Machine.withDevices input output journal) (fun _ => rfl) (fun _ _ => rfl) op

theorem setRegs (f : Registers → Registers) : Inward (setRegs f) := fun _ _ _ _ => rfl

theorem reg (f : Registers → α) : Inward (reg f) := fun _ _ _ _ => rfl

theorem pure (a : α) : Inward (Pure.pure a) := fun _ _ _ _ => rfl

theorem compileCell (c : Cell) : Inward (compileCell c) :=
  .bind (.look fun _ _ _ _ => rfl) fun _ => .bind (.reg _) fun _ => .bind (.onMemory _) fun _ =>
    .setRegs _

theorem packBytes (bs : List UInt8) : Inward (packBytes bs) :=
  .bind (.reg _) fun _ => .bind (.onMemory _) fun _ => .setRegs _

theorem compileString (bs : List UInt8) : Inward (compileString bs) :=
  .bind (.look fun _ _ _ _ => rfl) fun _ => .bind (.compileCell _) fun _ => .packBytes bs

theorem allot (n : Int) : Inward (allot n) :=
  .bind (.reg _) fun _ => .bind (.look fun _ _ _ _ => rfl) fun _ =>
    .bind (.look fun _ _ _ _ => rfl) fun _ => .setRegs _

/-- The devices are those from before. -/
theorem devices_eq {op : Exec α} (h : Inward op) (m : Machine) :
    endState (op m) = (endState (op m)).withDevices m.input m.output m.journal := by
  have hsame : op m = mapState (Machine.withDevices m.input m.output m.journal) (op m) :=
    h m.input m.output m.journal m
  generalize op m = r at hsame
  cases r with
  | ok a m' => exact (EStateM.Result.ok.inj hsame).2
  | error e m' => exact (EStateM.Result.error.inj hsame).2

end Inward

end Exec

@[simp] theorem Journal.verbosity_record (notice : Notice) (journal : Journal) :
    (journal.record notice).verbosity = journal.verbosity := by
  unfold record
  split <;> rfl

namespace Exec

/-- The operation reports to the journal at most. -/
def Reports (op : Exec Unit) : Prop :=
  ∀ m, ∃ journal : Journal, op m = .ok () { m with journal := journal } ∧
    journal.verbosity = m.journal.verbosity

theorem reports_report (notice : Notice) : Reports (report notice) := fun m =>
  ⟨m.journal.record notice, rfl, m.journal.verbosity_record notice⟩

theorem reports_noteRedefinition (name : List UInt8) : Reports (noteRedefinition name) :=
  fun m => by
  unfold noteRedefinition
  split
  · split
    · exact reports_report _ m
    · exact ⟨m.journal, rfl, rfl⟩
  · exact ⟨m.journal, rfl, rfl⟩

end Exec

/-! ### Sources that read alike -/

/-- The scans have found the same, and what they have left is related. -/
structure Scan.Agree (I : Source → Source → Prop) (a b : Scan) : Prop where
  /-- The same bytes. -/
  text : b.text = a.text
  /-- The same fault, if any. -/
  fault : b.fault = a.fault
  /-- Related inputs ahead. -/
  rest : I ⟨a.rest⟩ ⟨b.rest⟩

/-- Related sources answer every read alike, and are related behind it. -/
structure Source.SameReading (I : Source → Source → Prop) : Prop where
  /-- Reading a token. -/
  word {x y : Source} : I x y → Scan.Agree I (Scan.word [] 0 x.events) (Scan.word [] 0 y.events)
  /-- Reading up to a delimiter. -/
  upTo (delimiter : UInt8) {x y : Source} :
    I x y → Scan.Agree I (Scan.upTo delimiter [] x.events) (Scan.upTo delimiter [] y.events)
  /-- Reading a byte. -/
  byte {x y : Source} : I x y →
    (readEvents y.events).1 = (readEvents x.events).1 ∧
      I ⟨(readEvents x.events).2⟩ ⟨(readEvents y.events).2⟩

/-- A source reads like itself. -/
theorem Source.SameReading.eq : SameReading Eq where
  word := by
    rintro x _ rfl
    exact ⟨rfl, rfl, rfl⟩
  upTo := by
    rintro delimiter x _ rfl
    exact ⟨rfl, rfl, rfl⟩
  byte := by
    rintro x _ rfl
    exact ⟨rfl, rfl⟩

/-! ### Machines abreast -/

/-- The machines agree on everything but their devices, and these are related. -/
structure Machine.Abreast (I : Source → Source → Prop) (O : Sink → Sink → Prop)
    (V : Verbosity → Verbosity → Prop) (s t : Machine) : Prop where
  /-- Apart from the devices, they are the same. -/
  same : t = s.withDevices t.input t.output t.journal
  /-- The inputs are related. -/
  input : I s.input t.input
  /-- The outputs are related. -/
  output : O s.output t.output
  /-- The verbosities of the journals are related. -/
  verbosity : V s.journal.verbosity t.journal.verbosity

variable {I : Source → Source → Prop} {O : Sink → Sink → Prop} {V : Verbosity → Verbosity → Prop}
  {E : Source → Sink → Fault → Machine → Prop} {s t : Machine}

open Machine (Abreast)

namespace Machine.Abreast

/-- The same change to both, as long as it is not one of the devices. -/
theorem map {g : Machine → Machine}
    (hg : ∀ input output journal m, g (m.withDevices input output journal) =
      (g m).withDevices input output journal) (h : Abreast I O V s t) :
    Abreast I O V (g s) (g t) := by
  have hself (m : Machine) : g m = (g m).withDevices m.input m.output m.journal :=
    hg m.input m.output m.journal m
  have hs := hself s
  have ht : g t = (g s).withDevices t.input t.output t.journal := by
    rw [← hg, ← h.same]
  rw [hs, ht]
  exact ⟨rfl, h.input, h.output, h.verbosity⟩

theorem retoken (token : List UInt8) (h : Abreast I O V s t) :
    Abreast I O V { s with token := token } { t with token := token } :=
  h.map (g := fun m => { m with token := token }) fun _ _ _ _ => rfl

theorem regs_eq (h : Abreast I O V s t) : t.regs = s.regs := by
  rw [h.same]
  rfl

theorem token_eq (h : Abreast I O V s t) : t.token = s.token := by
  rw [h.same]
  rfl

theorem memory_eq (h : Abreast I O V s t) : t.memory = s.memory := by
  rw [h.same]
  rfl

/-- Other inputs may be given to both. -/
theorem reinput {I' : Source → Source → Prop} {x y : Source} (h : Abreast I O V s t)
    (hxy : I' x y) :
    Abreast I' O V { s with input := x } { t with input := y } where
  same := by
    have hsame := h.same
    generalize t.output = output, t.journal = journal at hsame ⊢
    rw [hsame]
    rfl
  input := hxy
  output := h.output
  verbosity := h.verbosity

/-- So may other outputs. -/
theorem reoutput {O' : Sink → Sink → Prop} {x y : Sink} (h : Abreast I O V s t) (hxy : O' x y) :
    Abreast I O' V { s with output := x } { t with output := y } where
  same := by
    have hsame := h.same
    generalize t.input = input, t.journal = journal at hsame ⊢
    rw [hsame]
    rfl
  input := h.input
  output := hxy
  verbosity := h.verbosity

/-- And other journals. -/
theorem rejournal {V' : Verbosity → Verbosity → Prop} {journal journal' : Journal}
    (h : Abreast I O V s t) (hv : V' journal.verbosity journal'.verbosity) :
    Abreast I O V' { s with journal := journal } { t with journal := journal' } where
  same := by
    have hsame := h.same
    generalize t.input = input, t.output = output at hsame ⊢
    rw [hsame]
    rfl
  input := h.input
  output := h.output
  verbosity := hv

theorem reread {x y : Source} (token : List UInt8) (h : Abreast I O V s t) (hxy : I x y) :
    Abreast I O V { s with token := token, input := x } { t with token := token, input := y } :=
  (h.retoken token).reinput hxy

end Machine.Abreast

/-- Operations that have nothing to do with devices are taken in step. -/
theorem Exec.Inward.tracks {op : Exec α} (h : Inward op) :
    Tracks (Abreast I O V) (fun s => E s.input s.output) op where
  inStep {s t} hst := by
    -- The second machine does what the first one does, but with devices of its own.
    have hs := h.devices_eq s
    have ht := h t.input t.output t.journal s
    rw [← hst.same] at ht
    rw [ht]
    cases hop : op s with
    | ok a s' =>
      rw [hop, endState_ok] at hs
      refine .ok ⟨rfl, ?_, ?_, ?_⟩ <;> rw [hs]
      exacts [hst.input, hst.output, hst.verbosity]
    | error e s' =>
      rw [hop, endState_error] at hs
      refine .error ⟨rfl, ?_, ?_, ?_⟩ <;> rw [hs]
      exacts [hst.input, hst.output, hst.verbosity]
  keeps e t s hs := by
    rw [h.devices_eq s]
    exact hs

/-- So are reports, whether they are kept or not. -/
theorem Exec.Reports.tracks {op : Exec Unit} (h : Reports op) :
    Tracks (Abreast I O V) (fun s => E s.input s.output) op where
  inStep {s t} hst := by
    obtain ⟨journal, hs, hverbosity⟩ := h s
    obtain ⟨journal', ht, hverbosity'⟩ := h t
    rw [hs, ht]
    exact .ok (hst.rejournal (hverbosity ▸ hverbosity' ▸ hst.verbosity))
  keeps e t s hs := by
    obtain ⟨journal, hop, -⟩ := h s
    rw [hop]
    exact hs

/-! ### Operations taken in step -/

theorem Exec.tracks_createRecord (name : List UInt8) (code flags : Cell) :
    Tracks (Abreast I O V) (fun s => E s.input s.output) (createRecord name code flags) :=
  .bind (Inward.look fun _ _ _ _ => rfl).tracks fun _ =>
    .bind (Inward.look fun _ _ _ _ => rfl).tracks fun _ =>
    .bind (Inward.look fun _ _ _ _ => rfl).tracks fun _ =>
    .bind (reports_noteRedefinition name).tracks fun _ =>
    .bind (Inward.reg _).tracks fun _ => .bind (Inward.reg _).tracks fun _ =>
    .bind (Inward.compileCell _).tracks fun _ => .bind (Inward.compileCell _).tracks fun _ =>
    .bind (Inward.packBytes _).tracks fun _ => .bind (Inward.compileCell _).tracks fun _ =>
    .bind (Inward.setRegs _).tracks fun _ => (Inward.pure _).tracks

theorem Exec.tracks_addRuntime (name : String) (action : Action) :
    Tracks (Abreast I O V) (fun s => E s.input s.output) (addRuntime name action) := by
  have htable : Inward (modify fun m : Machine => { m with table := m.table.push action }) :=
    fun _ _ _ _ => rfl
  exact .bind (Inward.look fun _ _ _ _ => rfl).tracks fun _ =>
    .bind (Inward.look fun _ _ _ _ => rfl).tracks fun _ => .bind htable.tracks fun _ =>
    .bind (reports_report _).tracks fun _ => (Inward.pure _).tracks

theorem Exec.tracks_beginDefinition
    (hname : Tracks (Abreast I O V) (fun s => E s.input s.output) parseName) :
    Tracks (Abreast I O V) (fun s => E s.input s.output) beginDefinition :=
  .bind (Inward.look fun _ _ _ _ => rfl).tracks fun _ => .bind hname fun _ =>
    .bind (tracks_createRecord _ _ _) fun _ => .bind (Inward.onData _).tracks fun _ =>
    .bind (Inward.setRegs _).tracks fun _ => (reports_report _).tracks

/-- Completes the open definition but for the notice, and returns its address. -/
def Exec.closeDefinition : Exec Cell := do
  requireNesting fun regs => regs.isCompiling && regs.defining ≠ 0
  let address ← popControl .definition
  observe fun m => demand (address = m.regs.defining) .controlMismatch
  compileRuntime .exit
  reveal address.toNat
  setRegs fun regs => { regs with defining := 0, mode := .interpret }
  return address

theorem Exec.endDefinition_eq : endDefinition = closeDefinition >>= noteDefinition := by
  simp only [endDefinition, closeDefinition, bind_assoc, pure_bind]

theorem Exec.Inward.closeDefinition : Inward closeDefinition :=
  .bind (.look fun _ _ _ _ => rfl) fun _ =>
    .bind (.bind (.look fun _ _ _ _ => rfl) fun _ => .bind (.onData _) fun _ =>
      .bind (.look fun _ _ _ _ => rfl) fun _ => .bind (.onData _) fun _ => .onData _) fun _ =>
    .bind (.look fun _ _ _ _ => rfl) fun _ => .bind (.compileCell _) fun _ =>
    .bind (.bind (.look fun _ _ _ _ => rfl) fun _ => .bind (.look fun _ _ _ _ => rfl) fun _ =>
      .onMemory _) fun _ =>
    .bind (.setRegs _) fun _ => .pure _

/-- Reads the name of a definition back and reports that it is complete. -/
def Exec.reportDefinition (address : Cell) : Exec Unit := do
  let name ← observe fun m => do
    let r ← m.memory.recordAt address.toNat
    m.memory.recordName r
  let here ← reg (·.here)
  report (.defined name (here - address))

theorem Exec.noteDefinition_eq (address : Cell) (m : Machine) :
    noteDefinition address m =
      if m.journal.admits .debug then reportDefinition address m else .ok () m := by
  unfold noteDefinition
  have hwanted : observe (fun m : Machine => .ok (m.journal.admits .debug)) m =
    (.ok (m.journal.admits .debug) m : EStateM.Result Fault Machine Bool) := rfl
  rw [bind_of_ok hwanted]
  split <;> rfl

theorem Exec.tracks_reportDefinition (address : Cell) :
    Tracks (Abreast I O V) (fun s => E s.input s.output) (reportDefinition address) :=
  .bind (Inward.look fun _ _ _ _ => rfl).tracks fun _ => .bind (Inward.reg _).tracks fun _ =>
    (reports_report _).tracks

/-- Journals of one verbosity do not tell the machines apart. -/
theorem Exec.tracks_endDefinition :
    Tracks (Abreast I O Eq) (fun s => E s.input s.output) endDefinition := by
  rw [endDefinition_eq]
  refine .bind Inward.closeDefinition.tracks fun address =>
    ⟨fun {s t} hst => ?_, fun e t s hs => ?_⟩
  · have hadmits : t.journal.admits .debug = s.journal.admits .debug :=
      congrArg (fun v => Verbosity.admits v .debug) hst.verbosity.symm
    rw [noteDefinition_eq, noteDefinition_eq, hadmits]
    split
    · exact (tracks_reportDefinition address).inStep hst
    · exact .ok hst
  · rw [noteDefinition_eq]
    split
    · exact (tracks_reportDefinition (I := I) (O := O) (V := Eq) address).keeps e t s hs
    · exact hs

/-- Bytes are written in step to one sink. -/
theorem Exec.tracks_write {E : Source → Fault → Machine → Prop} (bs : List UInt8) :
    Tracks (Abreast I Eq V) (fun s => E s.input) (write bs) where
  inStep {s t} hst := by
    unfold write
    rw [← hst.output]
    cases Sink.write bs s.output with
    | ok _ sink => exact .ok (hst.reoutput rfl)
    | error _ sink => exact .error (hst.reoutput rfl)
  keeps _ _ m h := by
    unfold write
    cases Sink.write bs m.output <;> exact h

/-! ### Reading in step -/

theorem Exec.onInput_read_eq (m : Machine) :
    onInput Source.read m =
      match Source.readEvents m.input.events with
      | (.ok b, rest) => .ok b { m with input := ⟨rest⟩ }
      | (.error e, rest) => .error e { m with input := ⟨rest⟩ } := by
  have hread : Source.read m.input =
      match Source.readEvents m.input.events with
      | (.ok b, rest) => .ok b ⟨rest⟩
      | (.error e, rest) => .error e ⟨rest⟩ := rfl
  rw [onInput, hread]
  obtain ⟨read, rest⟩ := Source.readEvents m.input.events
  cases read <;> rfl

namespace Machine.Abreast

theorem parseWord (hst : Abreast I O V s t)
    (hscan : Scan.Agree I (Scan.word [] 0 s.input.events) (Scan.word [] 0 t.input.events)) :
    Related (Abreast I O V) Eq (Exec.parseWord s) (Exec.parseWord t) := by
  unfold Exec.parseWord
  obtain ⟨htext, hfault, hrest⟩ := hscan
  generalize Scan.word [] 0 s.input.events = a,
    Scan.word [] 0 t.input.events = b at htext hfault hrest
  obtain ⟨text, rest, fault⟩ := a
  obtain ⟨text', rest', fault'⟩ := b
  cases htext
  cases hfault
  cases fault with
  | none => exact .ok rfl (hst.reread text hrest)
  | some f => exact .error (hst.reread text hrest)

theorem parse (delimiter : UInt8) (hst : Abreast I O V s t)
    (hscan : Scan.Agree I (Scan.upTo delimiter [] s.input.events)
      (Scan.upTo delimiter [] t.input.events)) :
    Related (Abreast I O V) Eq (Exec.parse delimiter s) (Exec.parse delimiter t) := by
  unfold Exec.parse
  obtain ⟨htext, hfault, hrest⟩ := hscan
  generalize Scan.upTo delimiter [] s.input.events = a, Scan.upTo delimiter [] t.input.events = b
    at htext hfault hrest
  obtain ⟨text, rest, fault⟩ := a
  obtain ⟨text', rest', fault'⟩ := b
  cases htext
  cases hfault
  cases fault with
  | none => exact .ok rfl (hst.reinput hrest)
  | some f => exact .error (hst.reinput hrest)

theorem readByte (hst : Abreast I O V s t)
    (hread : (Source.readEvents t.input.events).1 = (Source.readEvents s.input.events).1)
    (hrest : I ⟨(Source.readEvents s.input.events).2⟩ ⟨(Source.readEvents t.input.events).2⟩) :
    Related (Abreast I O V) Eq (Exec.onInput Source.read s) (Exec.onInput Source.read t) := by
  rw [Exec.onInput_read_eq, Exec.onInput_read_eq]
  generalize Source.readEvents s.input.events = a,
    Source.readEvents t.input.events = b at hread hrest
  obtain ⟨read, rest⟩ := a
  obtain ⟨read', rest'⟩ := b
  cases hread
  cases read with
  | ok b => exact .ok rfl (hst.reinput hrest)
  | error e => exact .error (hst.reinput hrest)

end Machine.Abreast

/-- The property of sources is kept by reading. -/
structure Source.KeptReading (Q : Source → Prop) : Prop where
  /-- Reading a token. -/
  word {x : Source} : Q x → Q ⟨(Scan.word [] 0 x.events).rest⟩
  /-- Reading up to a delimiter. -/
  upTo (delimiter : UInt8) {x : Source} : Q x → Q ⟨(Scan.upTo delimiter [] x.events).rest⟩
  /-- Reading a byte. -/
  byte {x : Source} : Q x → Q ⟨(readEvents x.events).2⟩

theorem Source.KeptReading.const (p : Prop) : KeptReading fun _ => p := ⟨id, fun _ => id, id⟩

namespace Exec

theorem endState_parseWord (m : Machine) : endState (parseWord m) =
    { m with token := (Scan.word [] 0 m.input.events).text,
             input := ⟨(Scan.word [] 0 m.input.events).rest⟩ } := by
  unfold parseWord
  rcases Scan.word [] 0 m.input.events with ⟨text, rest, _ | f⟩ <;> rfl

theorem endState_parse (delimiter : UInt8) (m : Machine) : endState (parse delimiter m) =
    { m with input := ⟨(Scan.upTo delimiter [] m.input.events).rest⟩ } := by
  unfold parse
  rcases Scan.upTo delimiter [] m.input.events with ⟨text, rest, _ | f⟩ <;> rfl

theorem endState_readByte (m : Machine) : endState (onInput Source.read m) =
    { m with input := ⟨(Source.readEvents m.input.events).2⟩ } := by
  rw [onInput_read_eq]
  rcases Source.readEvents m.input.events with ⟨_ | _, rest⟩ <;> rfl

end Exec

section KeptReading

variable {Q : Source → Sink → Prop} (hQ : ∀ sink, Source.KeptReading (Q · sink))
include hQ

theorem Source.KeptReading.keeps_parseWord :
    Keeps (fun m => Q m.input m.output) Exec.parseWord := by
  intro m hm
  rw [Exec.endState_parseWord]
  exact (hQ m.output).word hm

theorem Source.KeptReading.keeps_parse (delimiter : UInt8) :
    Keeps (fun m => Q m.input m.output) (Exec.parse delimiter) := by
  intro m hm
  rw [Exec.endState_parse]
  exact (hQ m.output).upTo delimiter hm

theorem Source.KeptReading.keeps_readByte :
    Keeps (fun m => Q m.input m.output) (Exec.onInput Source.read) := by
  intro m hm
  rw [Exec.endState_readByte]
  exact (hQ m.output).byte hm

end KeptReading

/-- What words are made of is taken in step if names are read so, if bytes are written so, and if
definitions are completed so. A property of the second machine may be carried along. -/
theorem Machine.Abreast.hereditary_and {P : Machine → Prop} (hP : Hereditary fun op => Keeps P op)
    (hname : Tracks (Abreast I O V) (fun s => E s.input s.output) Exec.parseName)
    (hwrite : ∀ bs, Tracks (Abreast I O V) (fun s => E s.input s.output) (Exec.write bs))
    (hend : Tracks (fun s t => Abreast I O V s t ∧ P t) (fun s => E s.input s.output)
      Exec.endDefinition) :
    Hereditary fun op =>
      Tracks (fun s t => Abreast I O V s t ∧ P t) (fun s => E s.input s.output) op where
  look hf := (Exec.Inward.look hf).tracks.and (hP.look hf)
  bind := .bind
  onData hop := (Exec.Inward.onData _).tracks.and (hP.onData hop)
  onReturn hop := (Exec.Inward.onReturn _).tracks.and (hP.onReturn hop)
  put pos c := (Exec.Inward.onMemory _).tracks.and (hP.put pos c)
  compileCell c := (Exec.Inward.compileCell c).tracks.and (hP.compileCell c)
  compileString bs := (Exec.Inward.compileString bs).tracks.and (hP.compileString bs)
  createRecord name code flags :=
    (Exec.tracks_createRecord name code flags).and (hP.createRecord name code flags)
  allot n := (Exec.Inward.allot n).tracks.and (hP.allot n)
  setIp f := (Exec.Inward.setRegs _).tracks.and (hP.setIp f)
  setW xt := (Exec.Inward.setRegs _).tracks.and (hP.setW xt)
  setBase b hb := (Exec.Inward.setRegs _).tracks.and (hP.setBase b hb)
  setMode mode := (Exec.Inward.setRegs _).tracks.and (hP.setMode mode)
  beginDefinition := (Exec.tracks_beginDefinition hname).and hP.beginDefinition
  endDefinition := hend
  parseName := hname.and hP.parseName
  write bs := (hwrite bs).and (hP.write bs)

theorem Lasting.const (p : Prop) : Lasting fun _ => p where
  hereditary :=
    { toOrdinary := by constructor <;> intros <;> exact fun _ hp => hp
      look _ _ := id
      setIp _ _ := id
      setW _ _ := id
      setMode _ _ := id
      beginDefinition _ := id
      endDefinition _ := id }
  parseWord _ := id
  parse _ _ := id
  readByte _ := id
  addRuntime _ _ _ _ := id
  token _ _ := id

theorem Machine.Abreast.hereditary
    (hname : Tracks (Abreast I O V) (fun s => E s.input s.output) Exec.parseName)
    (hwrite : ∀ bs, Tracks (Abreast I O V) (fun s => E s.input s.output) (Exec.write bs))
    (hend : Tracks (Abreast I O V) (fun s => E s.input s.output) Exec.endDefinition) :
    Hereditary fun op => Tracks (Abreast I O V) (fun s => E s.input s.output) op := by
  have htrue : (fun s t => Abreast I O V s t ∧ True) = Abreast I O V := by simp only [and_true]
  have h := hereditary_and (P := fun _ => True) (Lasting.const True).hereditary hname hwrite
    (htrue.symm ▸ hend)
  rwa [htrue] at h

/-- What is known of input and output when the second machine is out lasts if reading and writing
leave it alone. -/
theorem Hereditary.lasting_out {R : Machine → Machine → Prop}
    (hread : ∀ sink e t, Source.KeptReading (E · sink e t))
    (h : Hereditary fun op => Tracks R (fun s => E s.input s.output) op) (e : Fault) (t : Machine) :
    Lasting fun s => E s.input s.output e t where
  hereditary := h.keeps_out e t
  parseWord := Source.KeptReading.keeps_parseWord (Q := fun x sink => E x sink e t) (hread · e t)
  parse := Source.KeptReading.keeps_parse (Q := fun x sink => E x sink e t) (hread · e t)
  readByte := Source.KeptReading.keeps_readByte (Q := fun x sink => E x sink e t) (hread · e t)
  addRuntime name action _ :=
    (Exec.tracks_addRuntime (I := Eq) (O := Eq) (V := Eq) (E := E) name action).keeps e t
  token _ _ := id

/-- Machines that read and write in step, and complete definitions so, do everything in step. -/
theorem Lockstep.of_reading {P : Machine → Prop} (hP : Lasting P)
    (hkept : ∀ sink e t, Source.KeptReading (E · sink e t))
    (hword : Tracks (Abreast I O V) (fun s => E s.input s.output) Exec.parseWord)
    (hparse : ∀ d, Tracks (Abreast I O V) (fun s => E s.input s.output) (Exec.parse d))
    (hbyte : Tracks (Abreast I O V) (fun s => E s.input s.output) (Exec.onInput Source.read))
    (hwrite : ∀ bs, Tracks (Abreast I O V) (fun s => E s.input s.output) (Exec.write bs))
    (hend : Tracks (fun s t => Abreast I O V s t ∧ P t) (fun s => E s.input s.output)
      Exec.endDefinition)
    (hE : ∀ x sink e t token, E x sink e t → E x sink e { t with token := token }) :
    Lockstep (fun s t => Abreast I O V s t ∧ P t) (fun s => E s.input s.output)
      fun _ _ => True := by
  have hname : Tracks (Abreast I O V) (fun s => E s.input s.output) Exec.parseName :=
    .bind hword fun _ => (Exec.Inward.look fun _ _ _ _ => rfl).tracks
  have hereditary := Machine.Abreast.hereditary_and hP.hereditary hname hwrite hend
  -- Of all actions, only those that read the input themselves or register words are left.
  have outward : Outward fun op =>
      Tracks (fun s t => Abreast I O V s t ∧ P t) (fun s => E s.input s.output) op :=
    { parse := fun d => (hparse d).and (hP.parse d)
      readByte := hbyte.and hP.readByte
      parseWord := hword.and hP.parseWord
      addRuntime := fun name _ hw =>
        (Exec.tracks_addRuntime name _).and (hP.addRuntime name hw) }
  exact
    { hereditary := hereditary
      lasting := hereditary.lasting_out hkept
      step := fun hst _ => (hereditary.step outward _).inStep hst
      regs_eq := fun hst => hst.1.regs_eq
      token_eq := fun hst => hst.1.token_eq
      retoken := fun token hst => ⟨hst.1.retoken token, hP.token _ token hst.2⟩
      out_retoken := hE _ _ _ _ }

/-- So do machines whose sources read alike. -/
theorem Lockstep.of_abreast_and {E : Sink → Fault → Machine → Prop} {P : Machine → Prop}
    (hP : Lasting P) (hI : Source.SameReading I)
    (hwrite : ∀ bs, Tracks (Abreast I O V) (fun s => E s.output) (Exec.write bs))
    (hend : Tracks (fun s t => Abreast I O V s t ∧ P t) (fun s => E s.output) Exec.endDefinition)
    (hE : ∀ sink e t token, E sink e t → E sink e { t with token := token }) :
    Lockstep (fun s t => Abreast I O V s t ∧ P t) (fun s => E s.output) fun _ _ => True := by
  have hconst (p : Prop) := Source.KeptReading.const p
  refine of_reading (E := fun _ => E) hP (fun _ _ _ => hconst _) ⟨fun hst => ?_, fun e t => ?_⟩
    (fun d => ⟨fun hst => ?_, fun e t => ?_⟩) ⟨fun hst => ?_, fun e t => ?_⟩ hwrite hend fun _ => hE
  · exact .of_related (hst.parseWord (hI.word hst.input))
  · exact Source.KeptReading.keeps_parseWord (Q := fun _ sink => E sink e t) fun _ => hconst _
  · exact .of_related (hst.parse d (hI.upTo d hst.input))
  · exact Source.KeptReading.keeps_parse (Q := fun _ sink => E sink e t) (fun _ => hconst _) d
  · exact .of_related (hst.readByte (hI.byte hst.input).1 (hI.byte hst.input).2)
  · exact Source.KeptReading.keeps_readByte (Q := fun _ sink => E sink e t) fun _ => hconst _

theorem Lockstep.of_and_true {R : Machine → Machine → Prop} {Out : Machine → Fault → Machine → Prop}
    {C : Action → Machine → Prop} (h : Lockstep (fun s t => R s t ∧ True) Out C) :
    Lockstep R Out C := by
  simpa only [and_true] using h

theorem Lockstep.of_abreast {E : Sink → Fault → Machine → Prop} (hI : Source.SameReading I)
    (hwrite : ∀ bs, Tracks (Abreast I O V) (fun s => E s.output) (Exec.write bs))
    (hend : Tracks (Abreast I O V) (fun s => E s.output) Exec.endDefinition)
    (hE : ∀ sink e t token, E sink e t → E sink e { t with token := token }) :
    Lockstep (Abreast I O V) (fun s => E s.output) fun _ _ => True :=
  of_and_true (of_abreast_and (.const True) hI hwrite (by simpa only [and_true] using hend) hE)

/-! ### The end of a run -/

theorem Exec.flush_eq (m : Machine) :
    flush m = if m.output.flushFails then .error .outputFailure m else .ok () m := by
  unfold flush Sink.flush
  by_cases h : m.output.flushFails = true
  · rw [if_pos h, if_pos h]
  · rw [if_neg h, if_neg h]

namespace Machine

/-- What is left of a machine without its input and its journal. -/
def core (m : Machine) : Machine :=
  m.withDevices .empty m.output {}

theorem Abreast.core_eq (h : Abreast I Eq V s t) : t.core = s.core := by
  unfold core
  rw [h.same, ← h.output]
  rfl

theorem Abreast.mapState_core_eq {ε : Type} {r r' : EStateM.Result ε Machine α}
    (h : Related (Abreast I Eq V) Eq r r') : mapState core r' = mapState core r :=
  h.mapState_eq fun _ _ => core_eq

theorem finishRun_error (f : Fault) (m : Machine) :
    finishRun (.error f m) = .error (.fault f) (m.poisonWith f) := by
  rw [finishRun, Exec.flush_eq]
  cases m.output.flushFails <;> rfl

theorem finishRun_ok (m : Machine) :
    finishRun (.ok () m) =
      if m.output.flushFails then .error (.fault .outputFailure) (m.poisonWith .outputFailure)
      else .ok () m := by
  rw [finishRun, Exec.flush_eq]
  cases m.output.flushFails <;> rfl

namespace Abreast

theorem poisonWith (f : Fault) (h : Abreast I O V s t) :
    Abreast I O V (s.poisonWith f) (t.poisonWith f) := by
  have hfault := h.map
    (g := fun m => { m with regs := { m.regs with fault := true }, lastFault := some f })
    fun _ _ _ _ => rfl
  exact hfault.rejournal (by simpa using h.verbosity)

theorem poison?_eq (h : Abreast I O V s t) : t.poison? = s.poison? := by
  rw [h.same]
  rfl

/-- Both may be given the same text. -/
theorem setText (text : String) (h : Abreast Eq O V s t) :
    Abreast Eq O V (s.setText text) (t.setText text) :=
  (h.reinput rfl).rejournal (by simpa [report] using h.verbosity)

/-- Runs in step end alike, if one sink can be flushed exactly if the other can. -/
theorem finishRun (hflush : ∀ {x y : Sink}, O x y → y.flushFails = x.flushFails)
    {r r' : EStateM.Result Fault Machine Unit} (h : Related (Abreast I O V) Eq r r') :
    Related (Abreast I O V) Eq (Machine.finishRun r) (Machine.finishRun r') := by
  cases h with
  | error hst =>
    rw [finishRun_error, finishRun_error]
    exact .error (hst.poisonWith _)
  | ok hv hst =>
    rw [finishRun_ok, finishRun_ok, hflush hst.output]
    split
    · exact .error (hst.poisonWith _)
    · exact .ok rfl hst

/-- Machines whose sources read alike come to the same end, input and journal apart. -/
theorem interpret_core_eq (hI : Source.SameReading I) (hst : Abreast I Eq Eq s t) (steps : Nat) :
    (t.interpret steps).map (mapState core ∘ Machine.finishRun) =
      (s.interpret steps).map (mapState core ∘ Machine.finishRun) := by
  have hlockstep : Lockstep (Abreast I Eq Eq) (fun _ _ _ => False) fun _ _ => True :=
    .of_abreast (E := fun _ _ _ => False) hI (Exec.tracks_write (E := fun _ _ _ => False))
      (Exec.tracks_endDefinition (E := fun _ _ _ _ => False)) fun _ _ _ _ => id
  have hrun := (hlockstep.interpret steps (fun s t hst => hst.parseWord (hI.word hst.input)) hst
    fun _ _ => trivial).related fun _ _ _ => id
  generalize s.interpret steps = o, t.interpret steps = o' at hrun
  cases hrun with
  | none => rfl
  | some hr =>
    have hend := Abreast.finishRun (by rintro x _ rfl; rfl) hr
    exact congrArg some (mapState_core_eq hend)

end Abreast

/-- A text is evaluated by interpreting it, if the machine is not poisoned. -/
theorem evaluate_eq_of_poison?_eq_none {m : Machine} (h : m.poison? = none) (steps : Nat)
    (text : String) :
    m.evaluate steps text = ((m.setText text).interpret steps).map Machine.finishRun := by
  have h' : (m.setText text).poison? = none := h
  simp only [evaluate, run, h, h']

/-! ### A small machine -/

/-- A small machine that knows `exit` and the given words. -/
def knowing (words : List Builtin) (verbosity : Verbosity) : Machine :=
  endState ((do
    Vocabulary.runtimes.forM fun (name, r) => do
      let _ ← Exec.addRuntime name (.runtime r)
      return ()
    Exec.addBuiltin ⟨"exit", .runtime .exit, false⟩
    words.forM Exec.addBuiltin) (bare 400 ⟨320, 340, 400⟩ .empty {} verbosity))

/-- The error of a call, if there is one. -/
def error? : HostResult α → Option HostError
  | .ok _ _ => none
  | .error e _ => some e

theorem exists_ok_of_error?_eq_none {o : Option (HostResult Unit)} (h : o.map error? = some none) :
    ∃ m, o = some (.ok () m) := by
  obtain ⟨r, rfl, hr⟩ := Option.map_eq_some_iff.mp h
  cases r with
  | ok _ m => exact ⟨m, rfl⟩
  | error e m => cases hr

end Machine

end CellForth
