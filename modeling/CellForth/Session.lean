import CellForth.CommandLine
import CellForth.Host

/-!
# Sessions

A session is one run of the program. It interprets its files in order on one machine, or
standard input if there are none, and stops at the first file that cannot be opened or that
faults. If all went well and the command line asks for it, a core image is left behind.

`Session.run` is the whole session as a function: of the way in which command lines are read,
of the arguments, of the devices around it, and of the verbosity of its journal. The arguments
are those of the operating system, rows of bytes of which the first is the name of the program.
One that is not UTF-8 aborts the program before it has done anything.
-/

namespace CellForth

/-- What is around a session. -/
structure Devices where
  /-- Standard input. -/
  stdin : Source
  /-- Standard output. -/
  stdout : Sink := {}
  /-- What opening a file gives. -/
  openFile : String → Except DeviceError Source
  /-- What creating a file gives. -/
  createFile : String → Except DeviceError Sink

/-- What a session leaves behind. -/
structure Ending where
  /-- The exit status. -/
  status : Nat
  /-- What standard output has accepted. -/
  stdout : List UInt8
  /-- What was written to standard error, apart from the notices. -/
  stderr : String
  /-- The content of the core file, if one was created. -/
  core : Option (List UInt8)
  /-- What was reported, in order. -/
  notices : List Notice

/-- How the program comes to its end. -/
inductive Exit where
  /-- A session ends. -/
  | ended (ending : Ending)
  /-- The program is aborted before there is a session. -/
  | aborted

/-- The exit status of the program. -/
def Exit.status : Exit → Nat
  | ended ending => ending.status
  | aborted => 101

namespace Session

/-- The name of the core file. -/
def coreFile : String := "forth.core"

/-- The name under which the program speaks if it has not been told its own. -/
def defaultName : String := "forth"

/-- Ends a session in which the machine is as given. -/
def leave (m : Machine) (status : Nat) (stderr : String) (core : Option (List UInt8)) : Ending where
  status := status
  stdout := m.output.bytes
  stderr := stderr
  core := core
  notices := m.journal.entries.reverse

/-- What the program says about an error. -/
def complaint (program : String) (e : HostError) : String :=
  program ++ ": " ++ e.message ++ "\n"

/-- Interprets the machine's input, which goes by the given name. -/
def interpret (steps : Nat) (program name : String) (m : Machine) :
    Option (Except Ending Machine) :=
  match m.run steps with
  | none => none
  | some (.ok _ m) => some (.ok m)
  | some (.error e m) =>
    let context := name ++ ": error at `" ++ Text.lossy m.token ++ "`\n"
    some (.error (leave m 1 (context ++ complaint program e) none))

/-- Interprets files in order. -/
def interpretFiles (steps : Nat) (program : String)
    (openFile : String → Except DeviceError Source) :
    List String → Machine → Option (Except Ending Machine)
  | [], m => some (.ok m)
  | path :: rest, m =>
    match openFile path with
    | .error e => some (.error (leave m 1 (complaint program (.device e)) none))
    | .ok source =>
      match interpret steps program path (m.setStream source) with
      | none => none
      | some (.error ending) => some (.error ending)
      | some (.ok m) => interpretFiles steps program openFile rest (m.report (.loaded path))

/-- Leaves a core image in a file that is created for it. -/
def leaveCore (program : String) (m : Machine) : Except DeviceError Sink → Ending
  | .error e => leave m 1 (complaint program (.device e)) none
  | .ok sink =>
    match m.dump sink with
    | (.error e m, sink) => leave m 1 (complaint program e) (some sink.bytes)
    | (.ok _ m, sink) => leave (m.report (.coreWritten coreFile)) 0 "" (some sink.bytes)

/-- Runs a machine for a command line. -/
def runMachine (steps : Nat) (program : String) (line : CommandLine) (devices : Devices)
    (m : Machine) : Option Ending :=
  let loaded :=
    if line.files.isEmpty then interpret steps program "<stdin>" m
    else interpretFiles steps program devices.openFile line.files m
  match loaded with
  | none => none
  | some (.error ending) => some ending
  | some (.ok m) =>
    if line.dump then some (leaveCore program m (devices.createFile coreFile))
    else some (leave m 0 "" none)

/-- Runs a session with the machine that was built for it, if there is one. -/
def runCreated (steps : Nat) (program : String) (line : CommandLine) (devices : Devices) :
    Except (ConfigError × Journal) Machine → Option Ending
  | .error (e, journal) =>
    some
      { status := 1
        stdout := devices.stdout.bytes
        stderr := complaint program (.invalidConfig e)
        core := none
        notices := journal.entries.reverse }
  | .ok m => runMachine steps program line devices m

/-- Runs a session for a command line, with the default configuration. -/
def runLine (steps : Nat) (program : String) (line : CommandLine) (devices : Devices)
    (verbosity : Verbosity) : Option Ending :=
  runCreated steps program line devices
    (Machine.create {} devices.stdin devices.stdout verbosity)

/-- Runs a session for arguments that are text. -/
def runTexts (steps : Nat) (reader : CommandLine.Reader) (texts : List String)
    (devices : Devices) (verbosity : Verbosity) : Option Ending :=
  let program := texts.headD defaultName
  match reader.read texts.tail with
  | .error message =>
    some
      { status := 1
        stdout := devices.stdout.bytes
        stderr := message ++ "\n" ++ reader.usage ("Usage: " ++ program ++ " [-d] [files]")
        core := none
        notices := [] }
  | .ok line => runLine steps program line devices verbosity

/-- Runs a session. -/
def run (steps : Nat) (reader : CommandLine.Reader) (arguments : List (List UInt8))
    (devices : Devices) (verbosity : Verbosity) : Option Exit :=
  match arguments.mapM Text.decode? with
  | none => some .aborted
  | some texts => (runTexts steps reader texts devices verbosity).map .ended

end Session

end CellForth
