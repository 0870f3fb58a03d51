/-!
# Faults

A fault is the reason why a machine operation is refused. Each has a fixed negative code
and a fixed wording. Errors that the host sees, which wrap faults, are in
`CellForth.HostError`.
-/

namespace CellForth

/-- The reasons for which the machine refuses an operation. -/
inductive Fault where
  /-- The data stack has no room. -/
  | stackOverflow
  /-- The data stack lacks operands. -/
  | stackUnderflow
  /-- The return stack has no room. -/
  | returnStackOverflow
  /-- The return stack lacks operands. -/
  | returnStackUnderflow
  /-- The dictionary, or the table of primitives, has no room. -/
  | dictionaryOverflow
  /-- An address lies outside memory, or names no word. -/
  | invalidMemoryAddress
  /-- A divisor is zero. -/
  | divisionByZero
  /-- A quotient does not fit a signed cell. -/
  | resultOutOfRange
  /-- A token is neither a word nor a number. -/
  | undefinedWord
  /-- A word that needs a definition around it runs without one. -/
  | compileOnly
  /-- A token is longer than the tokenizer accepts. -/
  | tokenTooLong
  /-- The name of a definition is longer than a record accepts. -/
  | nameTooLong
  /-- A control word does not meet the entry it closes. -/
  | controlMismatch
  /-- A number is outside the range that a word accepts. -/
  | invalidArgument
  /-- A word is used in the wrong state of the compiler. -/
  | compilerNesting
  /-- The input source failed. -/
  | inputFailure
  /-- Input ended where a name was needed. -/
  | unexpectedEnd
  /-- The output sink failed. -/
  | outputFailure
  deriving DecidableEq

namespace Fault

/-- The code of a fault. -/
def code : Fault → Int
  | stackOverflow => -3
  | stackUnderflow => -4
  | returnStackOverflow => -5
  | returnStackUnderflow => -6
  | dictionaryOverflow => -8
  | invalidMemoryAddress => -9
  | divisionByZero => -10
  | resultOutOfRange => -11
  | undefinedWord => -13
  | compileOnly => -14
  | tokenTooLong => -18
  | nameTooLong => -19
  | controlMismatch => -22
  | invalidArgument => -24
  | compilerNesting => -29
  | inputFailure => -37
  | unexpectedEnd => -39
  | outputFailure => -57

/-- The wording of a fault. -/
def message : Fault → String
  | stackOverflow => "Stack overflow"
  | stackUnderflow => "Stack underflow"
  | returnStackOverflow => "Return stack overflow"
  | returnStackUnderflow => "Return stack underflow"
  | dictionaryOverflow => "Dictionary overflow"
  | invalidMemoryAddress => "Invalid memory address"
  | divisionByZero => "Division by zero"
  | resultOutOfRange => "Result out of range"
  | undefinedWord => "Undefined word"
  | compileOnly => "Interpreting a compile only word"
  | tokenTooLong => "Parsed string overflow"
  | nameTooLong => "Definition name too long"
  | controlMismatch => "Control structure mismatch"
  | invalidArgument => "Invalid numeric argument"
  | compilerNesting => "Compiler nesting"
  | inputFailure => "File I/O exception"
  | unexpectedEnd => "Unexpected end of file"
  | outputFailure => "Exception in sending or receiving a character"

end Fault

end CellForth
