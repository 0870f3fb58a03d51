import CellForth.Text.Utf8

/-!
# Command lines

The command line names the files to interpret and may hold one flag, `d`, which asks for a
core image at the end. Flags and files may stand in any order, and an argument `--` makes all
that follow it files, as is a lone `-`. A flag is one letter behind one dash, where several
may share a dash, or behind two. Behind two dashes the name ends at an equals sign; what
follows it would be the argument of the flag, and no flag has one.

Of several errors the leftmost is reported, and a repeated flag only if there is no other.

A session works with any `CommandLine.Reader`. The one above is `CommandLine.reader`.
-/

namespace CellForth

/-- What a command line asks for. -/
structure CommandLine where
  /-- Is a core image to be written at the end? -/
  dump : Bool
  /-- The files, in order. -/
  files : List String
  deriving DecidableEq

/-- Why a command line is refused. -/
inductive UsageError where
  /-- There is no such flag. -/
  | unrecognized (name : String)
  /-- A flag is followed by an argument. -/
  | unexpectedArgument (name : String)
  /-- A flag is given twice. -/
  | duplicated (name : String)
  deriving DecidableEq

/-- The wording of a refused command line. -/
def UsageError.message : UsageError → String
  | unrecognized name => "Unrecognized option: '" ++ name ++ "'"
  | unexpectedArgument name => "Option '" ++ name ++ "' does not take an argument"
  | duplicated name => "Option '" ++ name ++ "' given more than once"

namespace CommandLine

/-- A way to read command lines. -/
structure Reader where
  /-- What the arguments ask for, or the wording of their refusal. -/
  read : List String → Except String CommandLine
  /-- The use of the program, shown with a refusal; its first line is given. -/
  usage : String → String

/-- The name of the flag. -/
def flagName : Char := 'd'

/-- The use of the program, shown with an error in the command line. -/
def usage (brief : String) : String :=
  brief ++ "\n\nOptions:\n    -d                  " ++
    "dump the core to forth.core once all input is read\n"

/-- What one argument contributes. -/
inductive Part where
  /-- A file. -/
  | file (name : String)
  /-- Flags, so many times the one that there is. -/
  | flags (count : Nat)
  /-- The end of flags. -/
  | endOfFlags
  deriving DecidableEq

/-- Reads letters that share a dash. -/
def readLetters : List Char → Except UsageError Nat
  | [] => .ok 0
  | c :: cs =>
    if c = flagName then (readLetters cs).map (· + 1)
    else .error (.unrecognized (String.singleton c))

/-- Reads what follows two dashes: a name, and perhaps an equals sign and an argument. -/
def readName (cs : List Char) : Except UsageError Nat :=
  let name := cs.takeWhile (· ≠ '=')
  if name = [flagName] then
    if cs.length = name.length then .ok 1
    else .error (.unexpectedArgument (String.ofList name))
  else .error (.unrecognized (String.ofList name))

/-- Reads one argument. -/
def readArgument (argument : String) : Except UsageError Part :=
  match argument.toList with
  | ['-', '-'] => .ok .endOfFlags
  | '-' :: '-' :: cs => (readName cs).map .flags
  | '-' :: c :: cs => (readLetters (c :: cs)).map .flags
  | _ => .ok (.file argument)

/-- Reads arguments: how often the flag is given, and the files. -/
def readArguments : List String → Except UsageError (Nat × List String)
  | [] => .ok (0, [])
  | argument :: rest =>
    match readArgument argument with
    | .error e => .error e
    | .ok .endOfFlags => .ok (0, rest)
    | .ok (.file name) => (readArguments rest).map fun (n, files) => (n, name :: files)
    | .ok (.flags k) => (readArguments rest).map fun (n, files) => (k + n, files)

/-- Reads a command line. -/
def parse (arguments : List String) : Except UsageError CommandLine :=
  match readArguments arguments with
  | .error e => .error e
  | .ok (n, files) =>
    if 1 < n then .error (.duplicated (String.singleton flagName)) else .ok ⟨n = 1, files⟩

/-- The way in which the program reads command lines. -/
def reader : Reader where
  read arguments := (parse arguments).mapError UsageError.message
  usage := usage

end CommandLine

end CellForth
