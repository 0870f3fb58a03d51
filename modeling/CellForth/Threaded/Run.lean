import CellForth.Threaded.Dispatch

/-!
# Running threaded code

Threaded code runs until the instruction pointer is zero, and that may be never. The functions
here take a number of steps that they may use, and answer `none` when it is used up; an answer
that is there does not depend on that number.

An `Action.resume` that is met inside threaded code asks for what is being done anyway, so the
run goes on as if it were nothing.
-/

namespace CellForth

/-- How an operation that may not end has ended: within the steps it had, or not. -/
abbrev Outcome (α : Type) := Option (EStateM.Result Fault Machine α)

namespace Machine

/-- Fetches the next cell of threaded code and runs its word. -/
def stepThread : Exec Unit := do
  let ip ← Exec.reg (·.ip)
  let xt ← Exec.fetch ip.toNat
  Exec.jump (ip + 1)
  let _ ← Exec.execute xt
  return ()

/-- Runs threaded code until the outermost definition returns. -/
def runThread : (steps : Nat) → Machine → Outcome Unit
  | steps, m =>
    if m.regs.ip = 0 then some (.ok () m)
    else
      match steps with
      | 0 => none
      | steps + 1 =>
        match stepThread m with
        | .ok _ m => runThread steps m
        | .error e m => some (.error e m)

/-- Does what is left to do after a word. -/
def continueWith (steps : Nat) : EStateM.Result Fault Machine Continuation → Outcome Unit
  | .ok .done m => some (.ok () m)
  | .ok .resume m => runThread steps m
  | .error e m => some (.error e m)

/-- Runs an action to its end. -/
def runAction (steps : Nat) (action : Action) (m : Machine) : Outcome Unit :=
  continueWith steps (Exec.act action m)

/-- Runs the word of an execution token, but not the threaded code that it enters. -/
def runToken (steps : Nat) (xt : Cell) (m : Machine) : Outcome Unit :=
  continueWith steps (Exec.execute xt m)

end Machine

end CellForth
