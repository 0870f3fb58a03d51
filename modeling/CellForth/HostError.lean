import CellForth.Fault

/-!
# Errors that the host sees

A host call ends in one of four kinds of error: the call faulted (`fault`), an earlier call
did (`poisoned`), the machine could not be built (`invalidConfig`), or a device outside the
machine failed (`device`). `HostError.message` and `HostError.status` give the wording and
the negative number for hosts that speak in integers.
-/

namespace CellForth

/-- Why a configuration is refused. -/
inductive ConfigError where
  /-- More cells than an address can name. -/
  | coreTooLarge
  /-- A stack of no cells. -/
  | emptyStack
  /-- The sizes of the stacks do not add up within a machine word of the host. No error is reported
  for that: the addition is an arithmetic fault that aborts the host program where sums are checked,
  and this constructor stands for the abort. -/
  | sizeOverflow
  /-- Reserved cells and stacks leave no cell for the dictionary. -/
  | stacksDoNotFit
  /-- The built-in words do not fit the dictionary. -/
  | vocabularyDoesNotFit
  deriving DecidableEq

/-- The wording of a refused configuration. -/
def ConfigError.message : ConfigError → String
  | coreTooLarge => "core size exceeds cell range"
  | emptyStack => "stacks must hold at least one cell"
  -- An abort has no wording, so this one is never shown to anybody.
  | sizeOverflow => "stack sizes exceed the host's range"
  | stacksDoNotFit => "core too small for its stacks"
  | vocabularyDoesNotFit => "core too small for the built-in dictionary"

/-- How a device outside the machine fails. -/
inductive DeviceError where
  /-- The sink takes no more bytes and says so. -/
  | closed
  /-- The sink takes no more bytes and accepts none of those offered. -/
  | stalled
  /-- The sink cannot be flushed. -/
  | flushFailed
  /-- There is no file of that name. -/
  | notFound
  /-- A path goes through a file as if it were a directory. -/
  | notADirectory
  /-- A directory is in the place of a file. -/
  | isADirectory
  /-- A name or a path is longer than the file system accepts. -/
  | nameTooLong
  /-- Any other failure, in the words of the device. -/
  | other (text : String)
  deriving DecidableEq

/-- The wording of a device failure. -/
def DeviceError.message : DeviceError → String
  | closed => "closed"
  | stalled => "failed to write whole buffer"
  | flushFailed => "flush failed"
  | notFound => "No such file or directory (os error 2)"
  | notADirectory => "Not a directory (os error 20)"
  | isADirectory => "Is a directory (os error 21)"
  | nameTooLong => "File name too long (os error 36)"
  | other text => text

/-- The errors of host calls. -/
inductive HostError where
  /-- The call faulted, and the machine is poisoned from now on. -/
  | fault (f : Fault)
  /-- An earlier fault poisoned the machine. -/
  | poisoned (f : Fault)
  /-- No machine can be built from this configuration. -/
  | invalidConfig (e : ConfigError)
  /-- A device outside the machine failed. -/
  | device (e : DeviceError)
  deriving DecidableEq

namespace HostError

/-- The wording of a host error. -/
def message : HostError → String
  | fault f => f.message
  | poisoned f => "environment poisoned by an earlier fault: " ++ f.message
  | invalidConfig e => "invalid configuration: " ++ e.message
  | device e => "I/O error: " ++ e.message

/-- The status number of a host error, always negative. -/
def status : HostError → Int
  | fault f => f.code
  | poisoned f => f.code
  | invalidConfig _ => -1
  | device _ => Fault.inputFailure.code

end HostError

end CellForth
