import CellForth.Fault
import CellForth.Text.Utf8

/-!
# Input sources

A source is a row of read events, what successive reads of single bytes will meet. A text is
the row of its bytes. A stream arrives in deliveries: chunks of bytes, and conditions between
them. Chunks are buffered, so a delivery is asked for only once the bytes before it are used
up, and only the order of bytes and conditions matters; `Source.ofDeliveries` lays them out
in that order.

An end of input is met once where it stands and reading can go on behind it; behind the last
event every read meets the end. An interrupted read is tried again at once.
-/

namespace CellForth

/-- What one read of a source meets. -/
inductive ReadEvent where
  /-- A byte. -/
  | byte (b : UInt8)
  /-- The end of input, this time. -/
  | ending
  /-- An interruption, after which the read is tried again. -/
  | interruption
  /-- A failure of the device, this time. -/
  | failure
  deriving DecidableEq

/-- What one read of the device behind a stream delivers. -/
inductive Delivery where
  /-- A chunk of bytes; an empty one is an end of input. -/
  | chunk (bytes : List UInt8)
  /-- The end of input, this time. -/
  | ending
  /-- An interruption. -/
  | interruption
  /-- A failure, this time. -/
  | failure
  deriving DecidableEq

/-- The read events that a delivery amounts to. -/
def Delivery.events : Delivery → List ReadEvent
  | chunk [] => [.ending]
  | chunk (b :: bs) => (b :: bs).map .byte
  | ending => [.ending]
  | interruption => [.interruption]
  | failure => [.failure]

/-- An input source: what successive reads will meet. -/
structure Source where
  /-- The events ahead, first one first. -/
  events : List ReadEvent
  deriving DecidableEq

namespace Source

/-- The source without any input. -/
def empty : Source := ⟨[]⟩

/-- The source that reads the given bytes. -/
def ofBytes (bs : List UInt8) : Source :=
  ⟨bs.map .byte⟩

/-- The source that reads a text. -/
def ofText (s : String) : Source :=
  ofBytes (Text.bytes s)

/-- The source that reads a stream. -/
def ofDeliveries (ds : List Delivery) : Source :=
  ⟨ds.flatMap Delivery.events⟩

/-- One read off a row of events: a byte, or `none` at the end of input, or a failure, with
the events that are left. -/
def readEvents : List ReadEvent → Except Fault (Option UInt8) × List ReadEvent
  | [] => (.ok none, [])
  | .byte b :: rest => (.ok (some b), rest)
  | .ending :: rest => (.ok none, rest)
  | .failure :: rest => (.error .inputFailure, rest)
  | .interruption :: rest => readEvents rest

/-- Reads one byte; `none` is the end of input. -/
def read : EStateM Fault Source (Option UInt8)
  | ⟨events⟩ =>
    match readEvents events with
    | (.ok b, rest) => .ok b ⟨rest⟩
    | (.error e, rest) => .error e ⟨rest⟩

end Source

end CellForth
