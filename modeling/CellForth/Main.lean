import CellForth.Session

/-!
# The program

Reads the files that the command line names, runs the session, and passes its results on to
the outside. All decisions are made in `CellForth.Session`.
-/

namespace CellForth

/-- The steps that a session may take, out of reach for any run. -/
def unlimitedSteps : Nat := 1 <<< 62

/-- All of standard input. -/
partial def readAll (stream : IO.FS.Stream) (acc : ByteArray) : IO ByteArray := do
  let chunk ← stream.read 65536
  if chunk.isEmpty then return acc else readAll stream (acc ++ chunk)

/-- The number of a system error, which is reported with either sign. -/
def errorNumber (code : UInt32) : UInt32 :=
  if code < 0x80000000 then code else 0 - code

/-- Is this the failure of treating a directory as a file? -/
def isDirectory : IO.Error → Bool
  | .inappropriateType _ code _ => errorNumber code = 21
  | _ => false

/-- A failure of the file system in the program's words. -/
def deviceErrorOf : IO.Error → DeviceError
  | .noFileOrDirectory .. => .notFound
  | .inappropriateType _ code text =>
    match errorNumber code with
    | 20 => .notADirectory
    | 21 => .isADirectory
    | _ => .other text
  | .invalidArgument _ code text =>
    if errorNumber code = 36 then .nameTooLong else .other text
  | .permissionDenied .. => .other "Permission denied (os error 13)"
  | e => .other (toString e)

/-- A file as a source, or why it cannot be opened. A directory opens and cannot be read. -/
def openPath (path : String) : IO (Except DeviceError Source) := do
  try
    let content ← IO.FS.readBinFile path
    return .ok (Source.ofBytes content.data.toList)
  catch e =>
    if isDirectory e then return .ok ⟨[.failure]⟩ else return .error (deviceErrorOf e)

/-- Writes the core file, or says why it cannot be written. -/
def writeCore (core : List UInt8) : IO (Except DeviceError Sink) := do
  try
    IO.FS.writeBinFile Session.coreFile ⟨core.toArray⟩
    return .ok {}
  catch e => return .error (deviceErrorOf e)

end CellForth

open CellForth in
/-- Interprets the files named on the command line, or standard input. -/
def main (arguments : List String) : IO UInt32 := do
  let files :=
    match CommandLine.parse arguments with
    | .ok line => line.files
    | .error _ => []
  let opened ← files.mapM fun path => return (path, ← openPath path)
  let stdin ← if files.isEmpty then readAll (← IO.getStdin) ByteArray.empty
    else pure ByteArray.empty
  let session (created : Except DeviceError Sink) : Option Exit :=
    Session.run unlimitedSteps CommandLine.reader
      ((Session.defaultName :: arguments).map Text.bytes)
      { stdin := Source.ofBytes stdin.data.toList
        openFile := fun path => (opened.lookup path).getD (.error .notFound)
        createFile := fun _ => created } .off
  match session (.ok {}) with
  | none | some .aborted => return 1
  | some (.ended ending) =>
    -- The session is the same up to the core file, so it is run again if there can be none.
    let exit ← match ending.core with
      | none => pure (some (.ended ending))
      | some core => pure (session (← writeCore core))
    match exit with
    | some (.ended ending) =>
      let stdout ← IO.getStdout
      stdout.write ⟨ending.stdout.toArray⟩
      stdout.flush
      IO.eprint ending.stderr
      return UInt32.ofNat ending.status
    | _ => return 1
