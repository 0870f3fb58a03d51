import CellForth.Machine

/-!
# Scanning the input

Words and names in the input are separated by white space: space, tab, line feed, form feed
and carriage return. `Exec.parseWord` reads the next token into the machine's `token`, which
it leaves empty at the end of input. It uses up the white space before the token and one byte
behind it. `Exec.parse` reads up to a delimiter, white space or not.

A scan that fails keeps what it has read of the token, and the input stands behind the byte
that made it fail.
-/

namespace CellForth

/-- The longest token, in bytes. -/
def maxTokenLength : Nat := 255

/-- Is the byte white space? -/
def isSpace (b : UInt8) : Bool :=
  b = 32 || b = 9 || b = 10 || b = 12 || b = 13

/-- What a scan has found. -/
structure Scan where
  /-- The bytes found. -/
  text : List UInt8
  /-- What is left of the input. -/
  rest : List ReadEvent
  /-- The fault that ended the scan, if any. -/
  fault : Option Fault

namespace Scan

/-- Scans the rest of a token of which `n` bytes have been read, kept in `seen` with the last
one first. Before the first byte of a token, white space is skipped. -/
def word (seen : List UInt8) (n : Nat) : List ReadEvent → Scan
  | [] => ⟨seen.reverse, [], none⟩
  | .ending :: rest => ⟨seen.reverse, rest, none⟩
  | .failure :: rest => ⟨seen.reverse, rest, some .inputFailure⟩
  | .interruption :: rest => word seen n rest
  | .byte b :: rest =>
    if isSpace b then
      if n = 0 then word seen n rest else ⟨seen.reverse, rest, none⟩
    else if n < maxTokenLength then word (b :: seen) (n + 1) rest
    else ⟨seen.reverse, rest, some .tokenTooLong⟩

/-- Scans up to a delimiter, behind the bytes in `seen`, kept with the last one first. -/
def upTo (delimiter : UInt8) (seen : List UInt8) : List ReadEvent → Scan
  | [] => ⟨seen.reverse, [], none⟩
  | .ending :: rest => ⟨seen.reverse, rest, none⟩
  | .failure :: rest => ⟨seen.reverse, rest, some .inputFailure⟩
  | .interruption :: rest => upTo delimiter seen rest
  | .byte b :: rest =>
    if b = delimiter then ⟨seen.reverse, rest, none⟩ else upTo delimiter (b :: seen) rest

end Scan

namespace Exec

/-- Reads the next token into `token`, which is empty at the end of input. -/
def parseWord : Exec Unit := fun m =>
  match Scan.word [] 0 m.input.events with
  | ⟨text, rest, none⟩ => .ok () { m with token := text, input := ⟨rest⟩ }
  | ⟨text, rest, some f⟩ => .error f { m with token := text, input := ⟨rest⟩ }

/-- Reads up to and including a delimiter, or to the end of input, and returns what precedes
it. -/
def parse (delimiter : UInt8) : Exec (List UInt8) := fun m =>
  match Scan.upTo delimiter [] m.input.events with
  | ⟨text, rest, none⟩ => .ok text { m with input := ⟨rest⟩ }
  | ⟨_, rest, some f⟩ => .error f { m with input := ⟨rest⟩ }

/-- Reads the next token as a name; the end of input is a fault. -/
def parseName : Exec (List UInt8) := do
  parseWord
  observe fun m => if m.token.isEmpty then .error .unexpectedEnd else .ok m.token

end Exec

end CellForth
