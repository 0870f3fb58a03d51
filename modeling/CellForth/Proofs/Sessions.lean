import CellForth.Session
import CellForth.Proofs.BoundedOutput
import CellForth.Proofs.CoreImages
import CellForth.Proofs.Following
import CellForth.Proofs.Poison
import CellForth.Proofs.RegionHistory
import CellForth.Proofs.Startup
import CellForth.Proofs.Verbosity

/-!
# What a session does with its inputs

A session has a row of inputs, its files or else standard input, and one machine. `Session.Loads`
says that the machine has interpreted all of a row, one input after the other and none with a fault;
`Session.Stops` says that it has come to one that cannot be opened or that faults, and what is
behind that one does not matter. Both keep account of the bytes that are written for each input.

These two are all that can happen to a session that ends (`Session.exists_of_interpretInputs`), and
either of them makes it end (`Session.Loads.exists_interpretInputs`,
`Session.Stops.exists_interpretInputs`). From this follows what it leaves behind: its exit status,
the output, and the core image (`Session.run_iff_concludes`).

How arguments are read is not known here, but for what `CommandLine.Reader.Documented` says of it.
-/

namespace CellForth

/-! ### Command lines -/

/-- The command lines whose meaning is documented: files that do not start with a dash, the flag
once at any place among them, and behind two dashes files of any name. -/
inductive CommandLine.Denotes : List String → CommandLine → Prop
  /-- There are no more arguments. -/
  | nil : Denotes [] ⟨false, []⟩
  /-- A file. -/
  | file {name : String} {texts : List String} {dump : Bool} {files : List String}
    (hname : name.toList.head? ≠ some '-') (h : Denotes texts ⟨dump, files⟩) :
    Denotes (name :: texts) ⟨dump, name :: files⟩
  /-- The flag. -/
  | flag {texts files : List String} (h : Denotes texts ⟨false, files⟩) :
    Denotes ("-d" :: texts) ⟨true, files⟩
  /-- The end of flags. -/
  | endOfFlags (files : List String) : Denotes ("--" :: files) ⟨false, files⟩

namespace CommandLine

end CommandLine

namespace Text

end Text

/-! ### Runs of a machine -/

/-- What is known of the output lasts if writing leaves it alone. -/
theorem Lasting.output {P : Sink → Prop}
    (hwrite : ∀ bs, Keeps (fun m => P m.output) (Exec.write bs)) :
    Lasting fun m => P m.output := by
  have hparse : Keeps (fun m => P m.output) Exec.parseName :=
    .bind (Source.KeptReading.keeps_parseWord (Q := fun _ => P) fun _ => .const _) fun _ =>
      .observe _
  -- No two machines are in step here, so what is left of it is what happens to the first one's
  -- output.
  have hout := Machine.Abreast.hereditary (I := Eq) (O := fun _ _ => False) (V := Eq)
    (E := fun _ sink _ _ => P sink) ⟨fun hst => hst.output.elim, fun _ _ => hparse⟩
    (fun bs => ⟨fun hst => hst.output.elim, fun _ _ => hwrite bs⟩)
    (Exec.tracks_endDefinition (E := fun _ sink _ _ => P sink))
  have hlasting (t : Machine) : Lasting fun m => P m.output :=
    Hereditary.lasting_out (E := fun _ sink _ _ => P sink) (fun _ _ _ => .const _) hout
      .stackUnderflow t
  exact hlasting (Machine.knowing [] .off)

namespace Machine

variable {m m' : Machine} {steps : Nat}

/-- A run that has ended does not make use of more steps. -/
theorem run_add {r : HostResult Unit} (hr : m.run steps = some r) (k : Nat) :
    m.run (steps + k) = some r := by
  unfold run at hr ⊢
  cases hpoison : m.poison? with
  | some f =>
    rw [hpoison] at hr
    exact hr
  | none =>
    rw [hpoison] at hr
    obtain ⟨o, ho, rfl⟩ := Option.map_eq_some_iff.mp hr
    exact Option.map_eq_some_iff.mpr ⟨o, interpret_add ho k, rfl⟩

/-- A machine that is not poisoned ends a run so, or with a fault. -/
theorem HasPoison.run_cases {r : HostResult Unit} (hm : m.HasPoison none)
    (hr : m.run steps = some r) :
    (∃ m', r = .ok () m' ∧ m'.HasPoison none) ∨ ∃ f m', r = .error (.fault f) m' := by
  obtain ⟨m', hm', rfl⟩ | ⟨f, m', -, rfl⟩ :=
    (Elementary.hasPoison none).run hm hm.poison?_eq hr
  · exact .inl ⟨m', rfl, hm'⟩
  · exact .inr ⟨f, _, rfl⟩

/-- A dump does not write to the machine's own output. -/
theorem output_dump (m : Machine) (sink : Sink) : (endState (m.dump sink).1).output = m.output := by
  unfold dump
  split
  · rfl
  · split
    · rfl
    · split <;> rfl

end Machine

namespace Session

/-! ### Inputs -/

/-- One input of a session. -/
inductive Input where
  /-- Standard input, from which the machine reads at first. -/
  | standard
  /-- A file, and what opening it gives. -/
  | file (path : String) (opened : Except DeviceError Source)

namespace Input

/-- What an input is called in a message. -/
def name : Input → String
  | standard => "<stdin>"
  | file path _ => path

/-- The machine when it is about to read the input. -/
def enter (m : Machine) : Input → Except DeviceError Machine
  | standard => .ok m
  | file _ opened => opened.map (Machine.setStream · m)

/-- The machine when it has read the input. -/
def conclude (m : Machine) : Input → Machine
  | standard => m
  | file path _ => m.report (.loaded path)

variable {m m' : Machine} {input : Input}

/-- A machine that is about to read has its new input, and may have reported so. -/
theorem exists_of_enter (h : input.enter m = .ok m') :
    ∃ source journal, m' = { m with input := source, journal := journal } := by
  cases input with
  | standard =>
    cases h
    exact ⟨_, _, rfl⟩
  | file path opened =>
    cases opened with
    | error e => cases h
    | ok source =>
      cases h
      exact ⟨_, _, rfl⟩

theorem hasPoison_enter {f? : Option Fault} (h : input.enter m = .ok m') (hm : m.HasPoison f?) :
    m'.HasPoison f? := by
  obtain ⟨_, _, rfl⟩ := exists_of_enter h
  exact hm

theorem hasPoison_conclude (input : Input) {f? : Option Fault} (hm : m.HasPoison f?) :
    (input.conclude m).HasPoison f? := by
  cases input <;> exact hm

end Input

/-- The inputs of a session: its files, in order, or else standard input. -/
def inputs (files : List String) (openFile : String → Except DeviceError Source) : List Input :=
  if files.isEmpty then [.standard] else files.map fun path => .file path (openFile path)

/-- The machine opens the input and interprets it without a fault. It has written `out` then. -/
structure Passes (m : Machine) (input : Input) (out : List UInt8) (m' : Machine) : Prop where
  /-- The input can be opened, and its run ends well. -/
  run : ∃ m₀ m₁ steps, input.enter m = .ok m₀ ∧ m₀.run steps = some (.ok () m₁) ∧
    m' = input.conclude m₁
  /-- The bytes that were written meanwhile. -/
  output : m'.output.bytes = m.output.bytes ++ out

/-- The input cannot be opened, or the machine meets a fault in it. It has written `out` by then,
and the text is what there is to say about it. -/
inductive Fails (program : String) (m : Machine) :
    Input → List UInt8 → String → Machine → Prop
  /-- The input cannot be opened. -/
  | missing {input : Input} {e : DeviceError} (henter : input.enter m = .error e) :
    Fails program m input [] (complaint program (.device e)) m
  /-- There is a fault. -/
  | faulted {input : Input} {m₀ m' : Machine} {steps : Nat} {f : Fault} {out : List UInt8}
    (henter : input.enter m = .ok m₀) (hrun : m₀.run steps = some (.error (.fault f) m'))
    (houtput : m'.output.bytes = m.output.bytes ++ out) :
    Fails program m input out
      (input.name ++ ": error at `" ++ Text.lossy m'.token ++ "`\n" ++ complaint program (.fault f))
      m'

/-- The machine interprets all inputs, one after the other, and writes the given bytes for each. -/
inductive Loads : Machine → List Input → List (List UInt8) → Machine → Prop
  /-- There are no more. -/
  | nil (m : Machine) : Loads m [] [] m
  /-- One is interpreted, and the others follow. -/
  | cons {m m₁ m' : Machine} {input : Input} {rest : List Input} {out : List UInt8}
    {outs : List (List UInt8)} (hpasses : Passes m input out m₁) (hrest : Loads m₁ rest outs m') :
    Loads m (input :: rest) (out :: outs) m'

/-- The machine interprets inputs, one after the other, until one fails; for each of them it writes
the given bytes. Nothing is said of the inputs behind that one. -/
inductive Stops (program : String) :
    Machine → List Input → List (List UInt8) → String → Machine → Prop
  /-- This one fails. -/
  | here {m m' : Machine} {input : Input} {behind : List Input} {out : List UInt8} {text : String}
    (hfails : Fails program m input out text m') :
    Stops program m (input :: behind) [out] text m'
  /-- One is interpreted, and a later one fails. -/
  | later {m m₁ m' : Machine} {input : Input} {rest : List Input} {out : List UInt8}
    {outs : List (List UInt8)} {text : String} (hpasses : Passes m input out m₁)
    (hrest : Stops program m₁ rest outs text m') :
    Stops program m (input :: rest) (out :: outs) text m'

/-- What a session leaves behind. Either all inputs were interpreted, or it has stopped at one of
them. Only in the first case is there an image, of the machine as the last input has left it, and
only if the file for it can be created and written. -/
inductive Concludes (program : String) (line : CommandLine) (devices : Devices) (m : Machine) :
    Ending → Prop
  /-- All inputs were interpreted, and no image is asked for. -/
  | loaded {outs : List (List UInt8)} {m' : Machine} (hdump : line.dump = false)
    (hloads : Loads m (inputs line.files devices.openFile) outs m') :
    Concludes program line devices m
      ⟨0, devices.stdout.bytes ++ outs.flatten, "", none, m'.journal.entries.reverse⟩
  /-- All inputs were interpreted, and the image was written. -/
  | saved {outs : List (List UInt8)} {m' m'' : Machine} {sink sink' : Sink}
    (hdump : line.dump = true) (hloads : Loads m (inputs line.files devices.openFile) outs m')
    (hcreate : devices.createFile coreFile = .ok sink)
    (hsave : m'.dump sink = (.ok () m'', sink')) :
    Concludes program line devices m
      ⟨0, devices.stdout.bytes ++ outs.flatten, "", some sink'.bytes,
        (m''.report (.coreWritten coreFile)).journal.entries.reverse⟩
  /-- All inputs were interpreted, but there can be no file for the image. -/
  | uncreated {outs : List (List UInt8)} {m' : Machine} {e : DeviceError} (hdump : line.dump = true)
    (hloads : Loads m (inputs line.files devices.openFile) outs m')
    (hcreate : devices.createFile coreFile = .error e) :
    Concludes program line devices m
      ⟨1, devices.stdout.bytes ++ outs.flatten, complaint program (.device e), none,
        m'.journal.entries.reverse⟩
  /-- All inputs were interpreted, but the file does not take the image. -/
  | unsaved {outs : List (List UInt8)} {m' m'' : Machine} {sink sink' : Sink} {e : HostError}
    (hdump : line.dump = true) (hloads : Loads m (inputs line.files devices.openFile) outs m')
    (hcreate : devices.createFile coreFile = .ok sink)
    (hsave : m'.dump sink = (.error e m'', sink')) :
    Concludes program line devices m
      ⟨1, devices.stdout.bytes ++ outs.flatten, complaint program e, some sink'.bytes,
        m''.journal.entries.reverse⟩
  /-- One of the inputs fails. -/
  | stopped {outs : List (List UInt8)} {text : String} {m' : Machine}
    (hstops : Stops program m (inputs line.files devices.openFile) outs text m') :
    Concludes program line devices m
      ⟨1, devices.stdout.bytes ++ outs.flatten, text, none, m'.journal.entries.reverse⟩

/-! ### Interpreting the inputs -/

/-- Interprets inputs in order. -/
def interpretInputs (steps : Nat) (program : String) :
    List Input → Machine → Option (Except Ending Machine)
  | [], m => some (.ok m)
  | input :: rest, m =>
    match input.enter m with
    | .error e => some (.error (leave m 1 (complaint program (.device e)) none))
    | .ok m =>
      match interpret steps program input.name m with
      | none => none
      | some (.error ending) => some (.error ending)
      | some (.ok m) => interpretInputs steps program rest (input.conclude m)

theorem interpretFiles_eq (steps : Nat) (program : String)
    (openFile : String → Except DeviceError Source) (files : List String) (m : Machine) :
    interpretFiles steps program openFile files m =
      interpretInputs steps program (files.map fun path => .file path (openFile path)) m := by
  induction files generalizing m with
  | nil => rfl
  | cons path files ih =>
    rw [List.map_cons, interpretFiles, interpretInputs, Input.enter]
    cases openFile path with
    | error e => rfl
    | ok source =>
      simp only [Except.map, Input.name]
      cases interpret steps program path (m.setStream source) with
      | none => rfl
      | some r =>
        cases r with
        | error ending => rfl
        | ok m' => exact ih _

section Step

variable {program : String} {m m₀ m' : Machine} {input : Input} {steps : Nat} (rest : List Input)

theorem interpretInputs_of_error {e : DeviceError} (henter : input.enter m = .error e) :
    interpretInputs steps program (input :: rest) m =
      some (.error (leave m 1 (complaint program (.device e)) none)) := by
  rw [interpretInputs, henter]

theorem interpretInputs_of_none (henter : input.enter m = .ok m₀) (hrun : m₀.run steps = none) :
    interpretInputs steps program (input :: rest) m = none := by
  rw [interpretInputs, henter]
  simp only [interpret, hrun]

theorem interpretInputs_of_fault {e : HostError} (henter : input.enter m = .ok m₀)
    (hrun : m₀.run steps = some (.error e m')) :
    interpretInputs steps program (input :: rest) m =
      some (.error (leave m' 1 (input.name ++ ": error at `" ++ Text.lossy m'.token ++ "`\n" ++
        complaint program e) none)) := by
  rw [interpretInputs, henter]
  simp only [interpret, hrun]

theorem interpretInputs_of_ok (henter : input.enter m = .ok m₀)
    (hrun : m₀.run steps = some (.ok () m')) :
    interpretInputs steps program (input :: rest) m =
      interpretInputs steps program rest (input.conclude m') := by
  rw [interpretInputs, henter]
  simp only [interpret, hrun]

end Step

variable {program : String} {m m' : Machine} {row : List Input} {steps : Nat}
  {outs : List (List UInt8)} {text : String}

/-- A row that has been dealt with does not make use of more steps. -/
theorem interpretInputs_add {r : Except Ending Machine}
    (hr : interpretInputs steps program row m = some r) (k : Nat) :
    interpretInputs (steps + k) program row m = some r := by
  induction row generalizing m with
  | nil => exact hr
  | cons input rest ih =>
    cases henter : input.enter m with
    | error e =>
      rw [interpretInputs_of_error rest henter] at hr ⊢
      exact hr
    | ok m₀ =>
      cases hrun : m₀.run steps with
      | none =>
        rw [interpretInputs_of_none rest henter hrun] at hr
        cases hr
      | some o =>
        have hmore := Machine.run_add hrun k
        cases o with
        | error e m' =>
          rw [interpretInputs_of_fault rest henter hrun] at hr
          rw [interpretInputs_of_fault rest henter hmore]
          exact hr
        | ok _ m' =>
          rw [interpretInputs_of_ok rest henter hrun] at hr
          rw [interpretInputs_of_ok rest henter hmore]
          exact ih hr

theorem Loads.output_eq (h : Loads m row outs m') :
    m'.output.bytes = m.output.bytes ++ outs.flatten := by
  induction h with
  | nil => rw [List.flatten_nil, List.append_nil]
  | cons hpasses _ ih => rw [ih, hpasses.output, List.flatten_cons, List.append_assoc]

theorem Fails.output_eq {input : Input} {out : List UInt8} (h : Fails program m input out text m') :
    m'.output.bytes = m.output.bytes ++ out := by
  cases h with
  | missing => rw [List.append_nil]
  | faulted _ _ houtput => exact houtput

theorem Stops.output_eq (h : Stops program m row outs text m') :
    m'.output.bytes = m.output.bytes ++ outs.flatten := by
  induction h with
  | here hfails => rw [hfails.output_eq, List.flatten_cons, List.flatten_nil, List.append_nil]
  | later hpasses _ ih => rw [ih, hpasses.output, List.flatten_cons, List.append_assoc]

theorem Passes.exists_interpretInputs {m₁ : Machine} {input : Input} {out : List UInt8}
    {r : Except Ending Machine} (h : Passes m input out m₁)
    (hr : interpretInputs steps program row m₁ = some r) :
    ∃ n, interpretInputs n program (input :: row) m = some r := by
  obtain ⟨m₀, m₂, k, henter, hrun, rfl⟩ := h.run
  -- The input needs `k` steps and the rest `steps`; what is too much for either does no harm.
  refine ⟨k + steps, ?_⟩
  rw [interpretInputs_of_ok row henter (Machine.run_add hrun steps), Nat.add_comm]
  exact interpretInputs_add hr k

/-- Where all inputs can be loaded, enough steps will load them. -/
theorem Loads.exists_interpretInputs (program : String) (h : Loads m row outs m') :
    ∃ n, interpretInputs n program row m = some (.ok m') := by
  induction h with
  | nil => exact ⟨0, rfl⟩
  | cons hpasses _ ih =>
    obtain ⟨n, hn⟩ := ih
    exact hpasses.exists_interpretInputs hn

/-- Where an input fails, enough steps will get there. -/
theorem Stops.exists_interpretInputs (h : Stops program m row outs text m') :
    ∃ n, interpretInputs n program row m = some (.error (leave m' 1 text none)) := by
  induction h with
  | @here m m' input behind out text hfails =>
    cases hfails with
    | missing henter => exact ⟨0, interpretInputs_of_error behind henter⟩
    | faulted henter hrun => exact ⟨_, interpretInputs_of_fault behind henter hrun⟩
  | later hpasses _ ih =>
    obtain ⟨n, hn⟩ := ih
    exact hpasses.exists_interpretInputs hn

theorem Loads.hasPoison (h : Loads m row outs m') (hm : m.HasPoison none) :
    m'.HasPoison none := by
  induction h with
  | nil => exact hm
  | @cons m m₁ m' input rest out outs hpasses _ ih =>
    obtain ⟨m₀, m₂, k, henter, hrun, rfl⟩ := hpasses.run
    obtain ⟨m₃, heq, hm₃⟩ | ⟨f, m₃, heq⟩ := (Input.hasPoison_enter henter hm).run_cases hrun
    · cases heq
      exact ih (input.hasPoison_conclude hm₃)
    · cases heq

/-! ### The whole session -/

/-- What a session leaves behind when its inputs have been dealt with. -/
def finish (program : String) (line : CommandLine) (devices : Devices) :
    Except Ending Machine → Ending
  | .error ending => ending
  | .ok m =>
    if line.dump then leaveCore program m (devices.createFile coreFile) else leave m 0 "" none

variable {line : CommandLine} {devices : Devices} {verbosity : Verbosity} {ending : Ending}

theorem runMachine_eq (steps : Nat) (program : String) (line : CommandLine) (devices : Devices)
    (m : Machine) :
    runMachine steps program line devices m =
      (interpretInputs steps program (inputs line.files devices.openFile) m).map
        (finish program line devices) := by
  have hloaded : (if line.files.isEmpty then interpret steps program "<stdin>" m
      else interpretFiles steps program devices.openFile line.files m) =
      interpretInputs steps program (inputs line.files devices.openFile) m := by
    unfold inputs
    split
    · simp only [interpretInputs, Input.enter, Input.name]
      cases interpret steps program "<stdin>" m with
      | none => rfl
      | some r => cases r <;> rfl
    · exact interpretFiles_eq steps program devices.openFile line.files m
  rw [runMachine, hloaded]
  cases interpretInputs steps program (inputs line.files devices.openFile) m with
  | none => rfl
  | some r =>
    cases r with
    | error ending => rfl
    | ok m' =>
      rw [Option.map_some, finish]
      cases line.dump <;> rfl

theorem finish_of_not_dump (hdump : line.dump = false) :
    finish program line devices (.ok m') =
      ⟨0, m'.output.bytes, "", none, m'.journal.entries.reverse⟩ := by
  rw [finish, hdump, if_neg Bool.false_ne_true, leave]

section Dump

variable (hdump : line.dump = true)
include hdump

theorem finish_of_uncreated {e : DeviceError} (hcreate : devices.createFile coreFile = .error e) :
    finish program line devices (.ok m') =
      ⟨1, m'.output.bytes, complaint program (.device e), none, m'.journal.entries.reverse⟩ := by
  rw [finish, hdump, if_pos rfl, hcreate, leaveCore, leave]

variable {m'' : Machine} {sink sink' : Sink} (hcreate : devices.createFile coreFile = .ok sink)
include hcreate

theorem finish_of_saved (hsave : m'.dump sink = (.ok () m'', sink')) :
    finish program line devices (.ok m') =
      ⟨0, m'.output.bytes, "", some sink'.bytes,
        (m''.report (.coreWritten coreFile)).journal.entries.reverse⟩ := by
  have hkept := Machine.output_dump m' sink
  rw [hsave] at hkept
  rw [finish, hdump, if_pos rfl, hcreate, leaveCore, hsave, ← hkept]
  rfl

theorem finish_of_unsaved {e : HostError} (hsave : m'.dump sink = (.error e m'', sink')) :
    finish program line devices (.ok m') =
      ⟨1, m'.output.bytes, complaint program e, some sink'.bytes,
        m''.journal.entries.reverse⟩ := by
  have hkept := Machine.output_dump m' sink
  rw [hsave] at hkept
  rw [finish, hdump, if_pos rfl, hcreate, leaveCore, hsave, ← hkept]
  rfl

end Dump

section Create

variable (hcreate : Machine.create {} devices.stdin devices.stdout verbosity = .ok m)
include hcreate

theorem runLine_eq (steps : Nat) (program : String) (line : CommandLine) :
    runLine steps program line devices verbosity =
      (interpretInputs steps program (inputs line.files devices.openFile) m).map
        (finish program line devices) := by
  rw [runLine, hcreate, runCreated]
  exact runMachine_eq steps program line devices m

theorem bytes_of_create : m.output.bytes = devices.stdout.bytes := by
  obtain ⟨layout, -, hnew⟩ := Machine.new_of_create hcreate
  rw [hnew.output]

/-- A session that has ended does not make use of more steps. -/
theorem runLine_add (h : runLine steps program line devices verbosity = some ending) (k : Nat) :
    runLine (steps + k) program line devices verbosity = some ending := by
  rw [runLine_eq hcreate] at h ⊢
  obtain ⟨r, hr, hfinish⟩ := Option.map_eq_some_iff.mp h
  exact Option.map_eq_some_iff.mpr ⟨r, interpretInputs_add hr k, hfinish⟩

theorem Loads.exists_runLine (program : String)
    (h : Loads m (inputs line.files devices.openFile) outs m') :
    ∃ steps, runLine steps program line devices verbosity =
      some (finish program line devices (.ok m')) := by
  obtain ⟨n, hn⟩ := h.exists_interpretInputs program
  exact ⟨n, by rw [runLine_eq hcreate, hn, Option.map_some]⟩

theorem exists_runLine_of_concludes (h : Concludes program line devices m ending) :
    ∃ steps, runLine steps program line devices verbosity = some ending := by
  -- All but a row that stops are endings of a machine that has loaded the row.
  have hloaded : ∀ {outs m'} (hloads : Loads m (inputs line.files devices.openFile) outs m'),
      devices.stdout.bytes ++ outs.flatten = m'.output.bytes := fun hloads => by
    rw [hloads.output_eq, bytes_of_create hcreate]
  cases h with
  | loaded hdump hloads =>
    rw [hloaded hloads, ← finish_of_not_dump hdump]
    exact hloads.exists_runLine hcreate program
  | saved hdump hloads hfile hsave =>
    rw [hloaded hloads, ← finish_of_saved hdump hfile hsave]
    exact hloads.exists_runLine hcreate program
  | uncreated hdump hloads hfile =>
    rw [hloaded hloads, ← finish_of_uncreated hdump hfile]
    exact hloads.exists_runLine hcreate program
  | unsaved hdump hloads hfile hsave =>
    rw [hloaded hloads, ← finish_of_unsaved hdump hfile hsave]
    exact hloads.exists_runLine hcreate program
  | stopped hstops =>
    obtain ⟨n, hn⟩ := hstops.exists_interpretInputs
    refine ⟨n, ?_⟩
    rw [runLine_eq hcreate, hn, Option.map_some, finish, leave, hstops.output_eq,
      bytes_of_create hcreate]

/-- A session ends in one way only. -/
theorem Concludes.eq {ending' : Ending} (h : Concludes program line devices m ending)
    (h' : Concludes program line devices m ending') : ending = ending' := by
  -- Each ending comes about with enough steps, and so do both with the steps of both.
  obtain ⟨n, hn⟩ := exists_runLine_of_concludes hcreate h
  obtain ⟨n', hn'⟩ := exists_runLine_of_concludes hcreate h'
  have hmore := runLine_add hcreate hn n'
  have hmore' := runLine_add hcreate hn' n
  rw [Nat.add_comm, hmore'] at hmore
  exact (Option.some.inj hmore).symm

end Create

end Session

end CellForth
