import CellForth.HostError

/-!
# Output sinks

A sink keeps the bytes it has accepted. It may be bounded: then it accepts bytes as long as
there is room, takes of a write that does not fit as much as does, and refuses the rest. It
may also refuse to be flushed. Writing no bytes never fails.
-/

namespace CellForth

/-- An output sink. -/
structure Sink where
  /-- The bytes accepted so far, the last one first. -/
  accepted : List UInt8 := []
  /-- How many more bytes it accepts, if there is a bound. -/
  room : Option Nat := none
  /-- Does a full sink stall instead of saying that it is closed? -/
  stalls : Bool := false
  /-- Does every flush fail? -/
  flushFails : Bool := false
  deriving DecidableEq

namespace Sink

/-- The bytes accepted so far, in order. -/
def bytes (sink : Sink) : List UInt8 :=
  sink.accepted.reverse

/-- Takes in bytes for which there is room. -/
def accept (bs : List UInt8) (sink : Sink) : Sink :=
  { sink with
    accepted := bs.reverseAux sink.accepted
    room := sink.room.map (· - bs.length) }

theorem bytes_accept (bs : List UInt8) (sink : Sink) :
    (sink.accept bs).bytes = sink.bytes ++ bs := by
  simp [accept, bytes, List.reverseAux_eq]

/-- Writes all bytes, or as many as there is room for and then fails. -/
def write (bs : List UInt8) : EStateM DeviceError Sink Unit := fun sink =>
  match sink.room with
  | none => .ok () (sink.accept bs)
  | some n =>
    if bs.length ≤ n then .ok () (sink.accept bs)
    else .error (if sink.stalls then .stalled else .closed) (sink.accept (bs.take n))

/-- Flushes the sink. -/
def flush : EStateM DeviceError Sink Unit := fun sink =>
  if sink.flushFails then .error .flushFailed sink else .ok () sink

/-- Hands over the accepted bytes in order and forgets them. -/
def drain (sink : Sink) : List UInt8 × Sink :=
  (sink.bytes, { sink with accepted := [] })

end Sink

end CellForth
