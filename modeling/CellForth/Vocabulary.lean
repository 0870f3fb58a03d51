import CellForth.Action

/-!
# The built-in words

`Vocabulary.runtimes` are the actions without a name in the dictionary, and
`Vocabulary.builtins` are the words that a new machine knows, both in the order in which they
take their opcodes. Several names may share an action. Some of the words are in a `WordSet`, and
can be registered again.
-/

namespace CellForth

/-- A built-in word. -/
structure Builtin where
  /-- Its name. -/
  name : String
  /-- What it does. -/
  action : Action
  /-- Does it run even while compiling? -/
  immediate : Bool := false

namespace Vocabulary

/-- The runtime actions without a record, under the names that the journal uses. -/
def runtimes : List (String × Runtime) :=
  [("nest", .nest), ("var", .address), ("const", .constant), ("lit", .literal),
    ("branch", .branch), ("0branch", .zeroBranch), ("(do)", .enterLoop),
    ("(loop)", .stepLoop), ("(+loop)", .stepLoopBy), ("(.\")", .print)]

/-- The words on the stacks. -/
def stackWords : List Builtin :=
  [⟨"dup", .stack .dup, false⟩,
    ⟨"drop", .stack .drop, false⟩,
    ⟨"swap", .stack .swap, false⟩,
    ⟨"over", .stack .copySecond, false⟩,
    ⟨"rot", .stack .rot, false⟩,
    ⟨"-rot", .stack .minusRot, false⟩,
    ⟨"nip", .stack .nip, false⟩,
    ⟨"tuck", .stack .tuck, false⟩,
    ⟨"pick", .stack .pick, false⟩,
    ⟨"?dup", .stack .questionDup, false⟩,
    ⟨"2dup", .stack .twoDup, false⟩,
    ⟨"2drop", .stack .twoDrop, false⟩,
    ⟨"2swap", .stack .twoSwap, false⟩,
    ⟨"2over", .stack .twoOver, false⟩,
    ⟨"depth", .stack .depth, false⟩,
    ⟨">r", .returns .toReturn, false⟩,
    ⟨"r>", .returns .fromReturn, false⟩,
    ⟨"r@", .returns .fetchReturn, false⟩,
    ⟨"i", .returns .fetchReturn, false⟩,
    ⟨"j", .returns .outerIndex, false⟩,
    ⟨"unloop", .returns .unloop, false⟩]

/-- The words that compute. -/
def arithmeticWords : List Builtin :=
  [⟨"+", .binary .add, false⟩,
    ⟨"-", .binary .sub, false⟩,
    ⟨"*", .binary .mul, false⟩,
    ⟨"/", .binary .div, false⟩,
    ⟨"mod", .binary .mod, false⟩,
    ⟨"/mod", .divMod, false⟩,
    ⟨"negate", .unary .negate, false⟩,
    ⟨"abs", .unary .abs, false⟩,
    ⟨"1+", .unary .increment, false⟩,
    ⟨"1-", .unary .decrement, false⟩,
    ⟨"2*", .unary .double, false⟩,
    ⟨"2/", .unary .halve, false⟩,
    ⟨"min", .binary .min, false⟩,
    ⟨"max", .binary .max, false⟩,
    ⟨"and", .binary .and, false⟩,
    ⟨"or", .binary .or, false⟩,
    ⟨"xor", .binary .xor, false⟩,
    ⟨"invert", .unary .invert, false⟩,
    ⟨"lshift", .binary .shiftLeft, false⟩,
    ⟨"rshift", .binary .shiftRight, false⟩,
    ⟨"=", .binary .eq, false⟩,
    ⟨"<>", .binary .ne, false⟩,
    ⟨"<", .binary .lt, false⟩,
    ⟨">", .binary .gt, false⟩,
    ⟨"u<", .binary .below, false⟩,
    ⟨"u>", .binary .above, false⟩,
    ⟨"0=", .unary .isZero, false⟩,
    ⟨"0<", .unary .isNegative, false⟩,
    ⟨"0>", .unary .isPositive, false⟩,
    ⟨"0<>", .unary .isNonzero, false⟩]

/-- The words on memory, on the radix and on single bytes of input. A cell is the unit of
addresses, so `cells` has nothing to do. -/
def storageWords : List Builtin :=
  [⟨"@", .storage .fetch, false⟩,
    ⟨"!", .storage .store, false⟩,
    ⟨"+!", .storage .addStore, false⟩,
    ⟨",", .storage .comma, false⟩,
    ⟨"here", .storage .here, false⟩,
    ⟨"allot", .storage .allot, false⟩,
    ⟨"cells", .noop, false⟩,
    ⟨"cell+", .unary .increment, false⟩,
    ⟨"decimal", .radix .decimal, false⟩,
    ⟨"hex", .radix .hex, false⟩,
    ⟨"base!", .radix .setBase, false⟩,
    ⟨"base@", .radix .getBase, false⟩,
    ⟨"execute", .execute, false⟩,
    ⟨"key", .key, false⟩]

/-- The words that make definitions. -/
def definingWords : List Builtin :=
  [⟨":", .define .colon, true⟩,
    ⟨";", .define .semicolon, true⟩,
    ⟨"immediate", .define .immediate, false⟩,
    ⟨"create", .define .create, false⟩,
    ⟨"variable", .define .cellVariable, false⟩,
    ⟨"constant", .define .constant, false⟩,
    ⟨"'", .define .tick, false⟩,
    ⟨"[']", .define .bracketTick, true⟩,
    ⟨"[", .define .leftBracket, true⟩,
    ⟨"]", .define .rightBracket, true⟩,
    ⟨"literal", .define .literal, true⟩,
    ⟨"recurse", .define .recurse, true⟩,
    ⟨"char", .define .char, false⟩,
    ⟨"[char]", .define .bracketChar, true⟩,
    ⟨"(", .define .paren, true⟩,
    ⟨"\\", .define .backslash, true⟩]

/-- The words that build control structures. -/
def controlWords : List Builtin :=
  [⟨"if", .control .openIf, true⟩,
    ⟨"else", .control .turnElse, true⟩,
    ⟨"then", .control .closeThen, true⟩,
    ⟨"begin", .control .openBegin, true⟩,
    ⟨"until", .control .closeUntil, true⟩,
    ⟨"again", .control .closeAgain, true⟩,
    ⟨"while", .control .turnWhile, true⟩,
    ⟨"repeat", .control .closeRepeat, true⟩,
    ⟨"do", .control .openDo, true⟩,
    ⟨"loop", .control .closeLoop, true⟩,
    ⟨"+loop", .control .closePlusLoop, true⟩]

/-- The words that write output. -/
def outputWords : List Builtin :=
  [⟨"emit", .output .emit, false⟩,
    ⟨".", .output .dot, false⟩,
    ⟨"u.", .output .unsignedDot, false⟩,
    ⟨"cr", .output .newline, false⟩,
    ⟨"space", .output .space, false⟩,
    ⟨"spaces", .output .spaces, false⟩,
    ⟨".\"", .output .dotQuote, true⟩]

/-- The words that show the machine. -/
def toolWords : List Builtin :=
  [⟨"words", .output .words, false⟩,
    ⟨".s", .output .showStack, false⟩]

/-- The limits of a cell. -/
def limitWords : List Builtin :=
  [⟨"max-n", .value Cell.signedTop, false⟩,
    ⟨"max-u", .value Cell.top, false⟩]

/-- All words of a new machine, in the order of their opcodes. -/
def builtins : List Builtin :=
  ⟨"exit", .runtime .exit, false⟩ ::
    stackWords ++ arithmeticWords ++ storageWords ++ definingWords ++ controlWords ++
      outputWords ++ toolWords ++ limitWords

end Vocabulary

/-- The words of a set, in the order in which they are registered. -/
def WordSet.words : WordSet → List Builtin
  | compiler => Vocabulary.definingWords ++ Vocabulary.controlWords
  | output => Vocabulary.outputWords
  | tools => Vocabulary.toolWords
  | environment => Vocabulary.limitWords

end CellForth
