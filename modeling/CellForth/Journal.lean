import CellForth.Cell
import CellForth.Fault
import CellForth.Text.Utf8

/-!
# The journal

A machine reports what it does in a journal, and so does a session that works with it. A notice
says what happened; it has a severity and a wording. A journal keeps the notices that its
verbosity admits.
-/

namespace CellForth

/-- How grave a notice is. -/
inductive Severity where
  /-- A fault. -/
  | error
  /-- A stage that was reached. -/
  | info
  /-- A change that its user may want to know of. -/
  | debug
  /-- A detail. -/
  | trace
  deriving DecidableEq

/-- Which notices a journal keeps. -/
inductive Verbosity where
  /-- None. -/
  | off
  /-- Errors. -/
  | error
  /-- Errors and warnings. -/
  | warn
  /-- All but debugging notices and traces. -/
  | info
  /-- All but traces. -/
  | debug
  /-- All. -/
  | trace
  deriving DecidableEq

/-- Does a journal of this verbosity keep notices of that severity? -/
def Verbosity.admits : Verbosity → Severity → Bool
  | off, _ => false
  | error, s | warn, s => s = .error
  | info, s => s = .error ∨ s = .info
  | debug, s => s ≠ .trace
  | trace, _ => true

/-- What a machine reports. -/
inductive Notice where
  /-- An action took its place in the table. -/
  | opcode (index : Nat) (name : String)
  /-- The machine is complete. -/
  | created (cells : Nat) (here : Cell)
  /-- Input comes from a text from now on. -/
  | textInput (length : Nat)
  /-- Input comes from a stream from now on. -/
  | streamInput
  /-- Output goes elsewhere from now on. -/
  | outputSwitched
  /-- A core image was written. -/
  | dumped (length : Nat)
  /-- A name is about to be defined again. -/
  | redefined (name : List UInt8) (previous : Nat)
  /-- A definition was begun. -/
  | defining (name : List UInt8)
  /-- A definition was completed. -/
  | defined (name : List UInt8) (cells : Cell)
  /-- A fault poisoned the machine. -/
  | poisoned (f : Fault) (token : List UInt8)
  /-- A file was interpreted. -/
  | loaded (path : String)
  /-- A core image was left in a file. -/
  | coreWritten (path : String)
  deriving DecidableEq

namespace Notice

/-- The severity of a notice. -/
def severity : Notice → Severity
  | opcode .. | created .. | textInput _ | streamInput | outputSwitched | dumped _ => .trace
  | redefined .. | defining _ | defined .. => .debug
  | poisoned .. => .error
  | loaded _ | coreWritten _ => .info

/-- The wording of a notice. -/
def message : Notice → String
  | opcode index name => "opcode " ++ toString index ++ " is " ++ name
  | created cells here =>
    "created vm: " ++ toString cells ++ " cells, dictionary at " ++ toString here.toNat
  | textInput length => "input switched to " ++ toString length ++ " bytes of text"
  | streamInput => "input switched to stream"
  | outputSwitched => "output switched"
  | dumped length => "dumped " ++ toString length ++ " bytes"
  | redefined name previous =>
    "redefined " ++ Text.lossy name ++ " (previous record at " ++ toString previous ++ ")"
  | defining name => "defining " ++ Text.lossy name
  | defined name cells =>
    "defined " ++ Text.lossy name ++ " (" ++ toString cells.toNat ++ " cells)"
  | poisoned f token =>
    f.message ++ " (" ++ toString f.code ++ ") at `" ++ Text.lossy token ++
      "`, machine poisoned"
  | loaded path => "loaded " ++ path
  | coreWritten path => "core written to " ++ path

end Notice

/-- The notices kept so far, and which ones to keep. -/
structure Journal where
  /-- Which notices to keep. -/
  verbosity : Verbosity := .off
  /-- The notices kept, the last one first. -/
  entries : List Notice := []
  deriving DecidableEq

namespace Journal

/-- Does the journal keep notices of this severity? -/
def admits (journal : Journal) (s : Severity) : Bool :=
  journal.verbosity.admits s

/-- Keeps a notice if it is to be kept. -/
def record (notice : Notice) (journal : Journal) : Journal :=
  if journal.admits notice.severity then
    { journal with entries := notice :: journal.entries }
  else journal

/-- Hands over the notices in order and forgets them. -/
def drain (journal : Journal) : List Notice × Journal :=
  (journal.entries.reverse, { journal with entries := [] })

end Journal

end CellForth
