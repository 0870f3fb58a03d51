import CellForth.Dictionary.Registering

/-!
# Building a machine

A new machine has empty stacks and knows the built-in words.
-/

namespace CellForth

namespace Exec

/-- Registers all built-in words. -/
def addVocabulary : Exec Unit := do
  Vocabulary.runtimes.forM fun (name, r) => do
    let _ ← addRuntime name (.runtime r)
    return ()
  Vocabulary.builtins.forM addBuiltin

end Exec

namespace Machine

/-- A machine without words. -/
def bare (size : Nat) (layout : Layout) (input : Source) (output : Sink)
    (verbosity : Verbosity) : Machine where
  memory := Memory.zeroed size
  regs := Registers.initial layout
  table := #[]
  input := input
  output := output
  token := []
  lastFault := none
  journal := { verbosity }

/-- Builds a machine that reads from `input` and writes to `output`. A refusal comes with the
notices up to it. -/
def create (config : Config) (input : Source) (output : Sink) (verbosity : Verbosity) :
    Except (ConfigError × Journal) Machine :=
  match config.layout with
  | .error e => .error (e, { verbosity })
  | .ok layout =>
    match Exec.addVocabulary (bare config.coreSize layout input output verbosity) with
    | .error _ m => .error (.vocabularyDoesNotFit, m.journal)
    | .ok _ m =>
      .ok { m with journal := m.journal.record (.created m.memory.size m.regs.here) }

end Machine

end CellForth
