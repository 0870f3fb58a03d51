/-!
# Bytes and text

`Text.bytes` encodes a string as UTF-8, and `Text.decode?` decodes bytes that have to be UTF-8.
`Text.lossy` decodes bytes that may or may not be UTF-8: each maximal piece that starts a character
but does not finish it, and each byte that can start none, becomes one replacement character U+FFFD,
so that decoding always succeeds and text that is UTF-8 comes back as it was.

The decoder reads one byte at a time. `Text.Pending` is a character whose first bytes have
been read: the value so far, the number of bytes that have to follow, and the range in which
the next one has to lie. The range is narrower than `80`–`BF` only right after a first byte
that could otherwise begin an overlong form, a surrogate, or a value above U+10FFFF.
-/

namespace CellForth.Text

/-- The UTF-8 bytes of a string. -/
def bytes (s : String) : List UInt8 :=
  s.toUTF8.data.toList

/-- The string with these bytes, if they are UTF-8. -/
def decode? (bs : List UInt8) : Option String :=
  String.fromUTF8? ⟨bs.toArray⟩

/-- A character of which some bytes have been read. -/
structure Pending where
  /-- The bits read so far. -/
  value : Nat
  /-- How many further bytes follow the next one. -/
  after : Nat
  /-- The least next byte. -/
  low : UInt8
  /-- The greatest next byte. -/
  high : UInt8

/-- The character that stands for undecodable bytes. -/
def replacement : Char :=
  Char.ofNat 0xFFFD

/-- Reads the first byte of a character: a whole character, the start of a longer one, or a
byte that can start none. -/
def start (b : UInt8) : List Char × Option Pending :=
  let value := b.toNat
  if b < 0x80 then ([Char.ofNat value], none)
  else if 0xC2 ≤ b ∧ b ≤ 0xDF then ([], some ⟨value - 0xC0, 0, 0x80, 0xBF⟩)
  else if b = 0xE0 then ([], some ⟨value - 0xE0, 1, 0xA0, 0xBF⟩)
  else if b = 0xED then ([], some ⟨value - 0xE0, 1, 0x80, 0x9F⟩)
  else if 0xE1 ≤ b ∧ b ≤ 0xEF then ([], some ⟨value - 0xE0, 1, 0x80, 0xBF⟩)
  else if b = 0xF0 then ([], some ⟨value - 0xF0, 2, 0x90, 0xBF⟩)
  else if 0xF1 ≤ b ∧ b ≤ 0xF3 then ([], some ⟨value - 0xF0, 2, 0x80, 0xBF⟩)
  else if b = 0xF4 then ([], some ⟨value - 0xF0, 2, 0x80, 0x8F⟩)
  else ([replacement], none)

/-- Reads the next byte after the pending ones: they are completed, extended, or given up,
and in the last case `b` starts anew. -/
def advance : Option Pending → UInt8 → List Char × Option Pending
  | none, b => start b
  | some p, b =>
    if p.low ≤ b ∧ b ≤ p.high then
      let value := p.value * 64 + (b.toNat - 0x80)
      match p.after with
      | 0 => ([Char.ofNat value], none)
      | n + 1 => ([], some ⟨value, n, 0x80, 0xBF⟩)
    else
      let (cs, next) := start b
      (replacement :: cs, next)

/-- The characters of a row of bytes that follows the pending ones. -/
def decodeFrom : Option Pending → List UInt8 → List Char
  | none, [] => []
  | some _, [] => [replacement]
  | p, b :: rest =>
    let (cs, next) := advance p b
    cs ++ decodeFrom next rest

/-- Bytes as text, with a replacement character for each piece that is not UTF-8. -/
def lossy (bs : List UInt8) : String :=
  String.ofList (decodeFrom none bs)

end CellForth.Text
