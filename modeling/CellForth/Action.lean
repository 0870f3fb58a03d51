import CellForth.Cell

/-!
# Actions

An action is what a native word does. Actions are data, sorted by what they work on, and the
modules under `CellForth.Words` and `CellForth.Threaded` say what each one does. A machine
keeps a table of actions; an opcode is an index into it.

Two actions are not single steps: `Action.execute` runs the word whose token it takes from
the stack, which may be `execute` again, and `Action.resume` runs the threaded code that the
instruction pointer names.
-/

namespace CellForth

/-- Words that rearrange the data stack. -/
inductive StackWord where
  /-- Doubles the top: ( x -- x x ). -/
  | dup
  /-- Drops the top: ( x -- ). -/
  | drop
  /-- Swaps the top two: ( x1 x2 -- x2 x1 ). -/
  | swap
  /-- Copies the second: ( x1 x2 -- x1 x2 x1 ). -/
  | copySecond
  /-- Brings up the third: ( x1 x2 x3 -- x2 x3 x1 ). -/
  | rot
  /-- Takes the top down to third: ( x1 x2 x3 -- x3 x1 x2 ). -/
  | minusRot
  /-- Drops the second: ( x1 x2 -- x2 ). -/
  | nip
  /-- Copies the top below the second: ( x1 x2 -- x2 x1 x2 ). -/
  | tuck
  /-- Copies an item by its depth: ( xu ... x0 u -- xu ... x0 xu ). -/
  | pick
  /-- Doubles the top unless it is zero: ( x -- 0 | x x ). -/
  | questionDup
  /-- Doubles the top pair: ( x1 x2 -- x1 x2 x1 x2 ). -/
  | twoDup
  /-- Drops the top pair: ( x1 x2 -- ). -/
  | twoDrop
  /-- Swaps the top two pairs: ( x1 x2 x3 x4 -- x3 x4 x1 x2 ). -/
  | twoSwap
  /-- Copies the second pair: ( x1 x2 x3 x4 -- x1 x2 x3 x4 x1 x2 ). -/
  | twoOver
  /-- Counts the items: ( -- n ). -/
  | depth
  deriving DecidableEq

/-- Words that move items between the stacks. -/
inductive ReturnWord where
  /-- Moves the top over: ( x -- ) ( R: -- x ). -/
  | toReturn
  /-- Moves the top back: ( -- x ) ( R: x -- ). -/
  | fromReturn
  /-- Copies the top, which is the index of the innermost loop: ( -- x ) ( R: x -- x ). -/
  | fetchReturn
  /-- Copies the index of the loop around the innermost one: ( -- x ). -/
  | outerIndex
  /-- Gives up the counters of the innermost loop: ( R: x1 x2 -- ). -/
  | unloop
  deriving DecidableEq

/-- Words that compute one cell from one. -/
inductive UnaryWord where
  /-- The negative. -/
  | negate
  /-- The absolute value. -/
  | abs
  /-- One more. -/
  | increment
  /-- One less. -/
  | decrement
  /-- Twice the number. -/
  | double
  /-- Half the signed number, rounded down. -/
  | halve
  /-- All bits inverted. -/
  | invert
  /-- Is it zero? -/
  | isZero
  /-- Is it below zero? -/
  | isNegative
  /-- Is it above zero? -/
  | isPositive
  /-- Is it other than zero? -/
  | isNonzero
  deriving DecidableEq

/-- Words that compute one cell from two. -/
inductive BinaryWord where
  /-- The sum. -/
  | add
  /-- The difference. -/
  | sub
  /-- The product. -/
  | mul
  /-- The signed quotient, rounded toward zero. -/
  | div
  /-- The remainder that belongs to `div`. -/
  | mod
  /-- The lesser in the signed reading. -/
  | min
  /-- The greater in the signed reading. -/
  | max
  /-- The bits set in both. -/
  | and
  /-- The bits set in either. -/
  | or
  /-- The bits set in one only. -/
  | xor
  /-- The bits moved up. -/
  | shiftLeft
  /-- The bits moved down. -/
  | shiftRight
  /-- Are they equal? -/
  | eq
  /-- Do they differ? -/
  | ne
  /-- Is the first less, in the signed reading? -/
  | lt
  /-- Is the first greater, in the signed reading? -/
  | gt
  /-- Is the first less, in the unsigned reading? -/
  | below
  /-- Is the first greater, in the unsigned reading? -/
  | above
  deriving DecidableEq

/-- Words on memory and on the free end of the dictionary. -/
inductive StorageWord where
  /-- Reads a cell: ( addr -- x ). -/
  | fetch
  /-- Writes a cell: ( x addr -- ). -/
  | store
  /-- Adds to a cell: ( n addr -- ). -/
  | addStore
  /-- Appends a cell to the dictionary: ( x -- ). -/
  | comma
  /-- Pushes the end of the dictionary: ( -- addr ). -/
  | here
  /-- Moves the end of the dictionary: ( n -- ). -/
  | allot
  deriving DecidableEq

/-- Words on the radix of numbers. -/
inductive RadixWord where
  /-- Radix ten. -/
  | decimal
  /-- Radix sixteen. -/
  | hex
  /-- Sets any radix from 2 to 36: ( n -- ). -/
  | setBase
  /-- Pushes the radix: ( -- n ). -/
  | getBase
  deriving DecidableEq

/-- Words that make definitions, or that read the input for the sake of one. -/
inductive DefiningWord where
  /-- Begins a definition. -/
  | colon
  /-- Completes the definition. -/
  | semicolon
  /-- Makes the newest word immediate. -/
  | immediate
  /-- Names the cells that follow. -/
  | create
  /-- Names a cell. -/
  | cellVariable
  /-- Names a value: ( x -- ). -/
  | constant
  /-- Pushes the token of the word named next: ( -- xt ). -/
  | tick
  /-- Compiles the token of the word named next. -/
  | bracketTick
  /-- Leaves compilation. -/
  | leftBracket
  /-- Goes back to compilation. -/
  | rightBracket
  /-- Compiles a number: ( x -- ). -/
  | literal
  /-- Compiles a call of the definition itself. -/
  | recurse
  /-- Pushes the first byte of the name that follows: ( -- c ). -/
  | char
  /-- Compiles the first byte of the name that follows. -/
  | bracketChar
  /-- Skips to the next closing parenthesis. -/
  | paren
  /-- Skips to the end of the line. -/
  | backslash
  deriving DecidableEq

/-- Words that build control structures. -/
inductive ControlWord where
  /-- Begins a conditional. -/
  | openIf
  /-- Begins the other arm. -/
  | turnElse
  /-- Ends a conditional. -/
  | closeThen
  /-- Begins a loop. -/
  | openBegin
  /-- Ends a loop that runs until a flag is true. -/
  | closeUntil
  /-- Ends a loop that runs for ever. -/
  | closeAgain
  /-- Leaves the loop when a flag is false. -/
  | turnWhile
  /-- Ends a loop with a test inside. -/
  | closeRepeat
  /-- Begins a counted loop. -/
  | openDo
  /-- Ends a counted loop that steps by one. -/
  | closeLoop
  /-- Ends a counted loop that steps by a number from the stack. -/
  | closePlusLoop
  deriving DecidableEq

/-- Words that write to the output sink. -/
inductive OutputWord where
  /-- Writes a byte: ( c -- ). -/
  | emit
  /-- Writes a signed number and a space: ( n -- ). -/
  | dot
  /-- Writes an unsigned number and a space: ( u -- ). -/
  | unsignedDot
  /-- Writes a line feed. -/
  | newline
  /-- Writes a space. -/
  | space
  /-- Writes as many spaces: ( n -- ). -/
  | spaces
  /-- Writes the text up to the next quote, now or when the definition runs. -/
  | dotQuote
  /-- Writes the names of all visible words. -/
  | words
  /-- Writes the data stack. -/
  | showStack
  deriving DecidableEq

/-- Actions that only threaded code uses. -/
inductive Runtime where
  /-- The code field of a colon definition: begins its body. -/
  | nest
  /-- The code field of a created word: pushes the address of its data. -/
  | address
  /-- The code field of a constant: pushes its value. -/
  | constant
  /-- Pushes the cell that follows. -/
  | literal
  /-- Jumps by the offset that follows. -/
  | branch
  /-- Jumps by the offset that follows if the top item is zero. -/
  | zeroBranch
  /-- Moves limit and index to the return stack. -/
  | enterLoop
  /-- Steps the index by one and jumps back, or leaves the loop. -/
  | stepLoop
  /-- Steps the index by the top item and jumps back, or leaves the loop. -/
  | stepLoopBy
  /-- Writes the string that follows. -/
  | print
  /-- Ends the body of a definition. -/
  | exit
  deriving DecidableEq

/-- Sets of words that can be registered at once. -/
inductive WordSet where
  /-- The words that make definitions and build control structures. -/
  | compiler
  /-- The words that write output. -/
  | output
  /-- The words that show the machine. -/
  | tools
  /-- The limits of a cell. -/
  | environment
  deriving DecidableEq

/-- What a native word does. -/
inductive Action where
  /-- Rearranges the data stack. -/
  | stack (word : StackWord)
  /-- Moves items between the stacks. -/
  | returns (word : ReturnWord)
  /-- Computes one cell from one. -/
  | unary (word : UnaryWord)
  /-- Computes one cell from two. -/
  | binary (word : BinaryWord)
  /-- Computes remainder and quotient: ( n d -- r q ). -/
  | divMod
  /-- Works on memory. -/
  | storage (word : StorageWord)
  /-- Works on the radix. -/
  | radix (word : RadixWord)
  /-- Makes definitions. -/
  | define (word : DefiningWord)
  /-- Builds control structures. -/
  | control (word : ControlWord)
  /-- Writes output. -/
  | output (word : OutputWord)
  /-- Belongs to threaded code. -/
  | runtime (r : Runtime)
  /-- Reads a byte of input: ( -- c ). -/
  | key
  /-- Reads the next token, and does no more than that. -/
  | parseWord
  /-- Registers words, of which there may be others with the same names already. -/
  | install (set : WordSet)
  /-- Pushes a fixed cell: ( -- x ). -/
  | value (c : Cell)
  /-- Does nothing. -/
  | noop
  /-- Runs a word: ( xt -- ). -/
  | execute
  /-- Runs the threaded code at the instruction pointer. -/
  | resume
  deriving DecidableEq

end CellForth
