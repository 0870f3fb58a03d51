import CellForth.Boot
import CellForth.Image
import CellForth.Interpreter

/-!
# The host's interface

A host feeds text to a machine with `Machine.evaluate`, or switches its input and calls
`Machine.run`. The first fault of such a call poisons the machine: registers, stacks and
memory stay as they are, and from then on the machine refuses to run and to dump.

A run may not end, so it takes a number of steps that it may use, and answers `none` when they
are used up.
-/

namespace CellForth

/-- How a call of the host ends: with a value or an error, and with the machine. -/
abbrev HostResult (α : Type) := EStateM.Result HostError Machine α

namespace Machine

/-- Has a fault poisoned the machine? -/
def isPoisoned (m : Machine) : Bool :=
  m.regs.fault

/-- The fault for which the machine refuses to run. -/
def poison? (m : Machine) : Option Fault :=
  if m.regs.fault then m.lastFault else none

/-- Reports a notice. -/
def report (notice : Notice) (m : Machine) : Machine :=
  { m with journal := m.journal.record notice }

/-- Reads a text from now on. -/
def setText (text : String) (m : Machine) : Machine :=
  { m.report (.textInput (Text.bytes text).length) with input := Source.ofText text }

/-- Reads a stream from now on. -/
def setStream (source : Source) (m : Machine) : Machine :=
  { m.report .streamInput with input := source }

/-- Writes to another sink from now on. -/
def setOutput (sink : Sink) (m : Machine) : Machine :=
  { m.report .outputSwitched with output := sink }

/-- Poisons the machine. -/
def poisonWith (f : Fault) (m : Machine) : Machine :=
  let m := { m with regs := { m.regs with fault := true }, lastFault := some f }
  m.report (.poisoned f m.token)

/-- Ends a run: the output is flushed, and a fault, be it of the run or of the flush, poisons
the machine. -/
def finishRun : EStateM.Result Fault Machine Unit → HostResult Unit
  | .error f m =>
    match Exec.flush m with
    | .ok _ m | .error _ m => .error (.fault f) (m.poisonWith f)
  | .ok _ m =>
    match Exec.flush m with
    | .ok _ m => .ok () m
    | .error f m => .error (.fault f) (m.poisonWith f)

/-- Interprets the input until it is used up. -/
def run (steps : Nat) (m : Machine) : Option (HostResult Unit) :=
  match m.poison? with
  | some f => some (.error (.poisoned f) m)
  | none => (m.interpret steps).map finishRun

/-- Interprets a text. -/
def evaluate (steps : Nat) (text : String) (m : Machine) : Option (HostResult Unit) :=
  match m.poison? with
  | some f => some (.error (.poisoned f) m)
  | none => (m.setText text).run steps

/-- Writes the machine's image to a sink. A poisoned machine refuses. -/
def dump (sink : Sink) (m : Machine) : HostResult Unit × Sink :=
  match m.poison? with
  | some f => (.error (.poisoned f) m, sink)
  | none =>
    match Sink.write m.image sink with
    | .error e sink => (.error (.device e) m, sink)
    | .ok _ sink =>
      match Sink.flush sink with
      | .error e sink => (.error (.device e) m, sink)
      | .ok _ sink => (.ok () (m.report (.dumped m.image.length)), sink)

/-- Hands over the output and the notices so far and forgets them. -/
def drain (m : Machine) : List UInt8 × List Notice × Machine :=
  let (out, output) := m.output.drain
  let (notices, journal) := m.journal.drain
  (out, notices, { m with output := output, journal := journal })

end Machine

end CellForth
