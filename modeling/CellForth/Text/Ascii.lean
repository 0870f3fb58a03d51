/-!
# Named bytes

The ASCII bytes that the machine writes, and those at which it stops reading.
-/

namespace CellForth.Ascii

/-- A line feed. -/
def lineFeed : UInt8 := 10

/-- A space. -/
def space : UInt8 := 32

/-- A double quote. -/
def quote : UInt8 := 34

/-- A closing parenthesis. -/
def closeParen : UInt8 := 41

/-- A plus sign. -/
def plus : UInt8 := 43

/-- A minus sign. -/
def minus : UInt8 := 45

/-- A less-than sign. -/
def less : UInt8 := 60

/-- A greater-than sign. -/
def greater : UInt8 := 62

end CellForth.Ascii
