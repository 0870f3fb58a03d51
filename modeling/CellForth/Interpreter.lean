import CellForth.Numeral.Reader
import CellForth.Threaded.Run

/-!
# The outer interpreter

The interpreter reads the input token by token. A token that names a visible word is run, or,
while compiling and unless the word is immediate, compiled. Any other token has to be a
number, which is pushed or compiled.

While a token is being interpreted the machine's `token` is empty, and words that read names
fill it. Afterwards an empty `token` is set back to the token itself, so that it says where a
fault occurred.
-/

namespace CellForth

namespace Exec

/-- Pushes or compiles a number. -/
def enterNumber (c : Cell) : Exec Unit := do
  let compiling ← reg (·.isCompiling)
  if compiling then compileInteger c else push c

/-- Runs or compiles a token, and says whether threaded code is to be run after it. -/
def enterToken (token : List UInt8) : Exec Continuation := do
  let found ← observe fun m => m.find token
  match found with
  | some r => do
    let compiling ← reg (·.isCompiling)
    if compiling && !r.isImmediate then do
      compileReference r
      return .done
    else do
      let _ ← execute (UInt16.ofNat r.codeField)
      return .resume
  | none => do
    let base ← reg (·.base)
    match Numeral.read? token base with
    | some c => do
      enterNumber c
      return .done
    | none => throw .undefinedWord

end Exec

namespace Machine

/-- Puts a token back in place unless a newer one is there. -/
def restoreToken (token : List UInt8) (m : Machine) : Machine :=
  if m.token.isEmpty then { m with token := token } else m

/-- Interprets a token. -/
def interpretToken (steps : Nat) (token : List UInt8) (m : Machine) : Outcome Unit :=
  match continueWith steps (Exec.enterToken token { m with token := [] }) with
  | none => none
  | some (.ok _ m) => some (.ok () (m.restoreToken token))
  | some (.error e m) => some (.error e (m.restoreToken token))

/-- Interprets the input until it is used up. -/
def interpret : (steps : Nat) → Machine → Outcome Unit
  | steps, m =>
    match Exec.parseWord m with
    | .error e m => some (.error e m)
    | .ok _ m =>
      if m.token.isEmpty then some (.ok () m)
      else
        match steps with
        | 0 => none
        | steps + 1 =>
          match interpretToken steps m.token m with
          | none => none
          | some (.error e m) => some (.error e m)
          | some (.ok _ m) => interpret steps m

end Machine

end CellForth
