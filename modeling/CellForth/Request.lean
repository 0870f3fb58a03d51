import CellForth.Host

/-!
# Host requests as data

Everything that a host can ask of a machine, as one type. `Request.perform` answers a request,
so that statements about all histories of a machine can be made by induction on a list of
requests.

Only `Request.evaluate` and `Request.run` poison the machine; every other request reports its
fault and goes on.
-/

namespace CellForth

/-- What can be asked of a stack. -/
inductive StackRequest where
  /-- Puts an item on top. -/
  | push (c : Cell)
  /-- Takes the top item off. -/
  | pop
  /-- The top item. -/
  | peek
  /-- The item at a depth. -/
  | pick (n : Nat)
  /-- Overwrites the item at a depth. -/
  | set (n : Nat) (c : Cell)
  /-- Refuses unless so many items are there. -/
  | require (n : Nat)
  /-- The number of items. -/
  | size
  /-- Is it empty? -/
  | isEmpty
  /-- The number of items that fit. -/
  | capacity
  /-- The items, bottom first. -/
  | items
  deriving DecidableEq

/-- What can be asked of a machine. -/
inductive Request where
  /-- Interprets a text. -/
  | evaluate (text : String)
  /-- Interprets the input. -/
  | run
  /-- Reads a text from now on. -/
  | setText (text : String)
  /-- Reads a stream from now on. -/
  | setStream (deliveries : List Delivery)
  /-- Writes to another sink from now on. -/
  | setOutput (sink : Sink)
  /-- Writes the machine's image to a sink. -/
  | dump (sink : Sink)
  /-- The length of the machine's image. -/
  | imageLength
  /-- Has a fault poisoned the machine? -/
  | isPoisoned
  /-- The free end of the dictionary. -/
  | here
  /-- The free cells of the dictionary. -/
  | unused
  /-- Runs an action, be it that of a word or one that registers a set of words. -/
  | act (action : Action)
  /-- Runs the word of an execution token, but not the threaded code that it enters. -/
  | executeToken (xt : Cell)
  /-- Looks a name up. -/
  | find (name : List UInt8)
  /-- The record at an address. -/
  | recordAt (address : Nat)
  /-- The name of a record. -/
  | recordName (r : Record)
  /-- All records with their names, newest first. -/
  | records
  /-- Appends a cell to the dictionary. -/
  | compileCell (c : Cell)
  /-- Compiles a number. -/
  | compileInteger (c : Cell)
  /-- Appends a string to the dictionary. -/
  | compileString (bs : List UInt8)
  /-- Compiles a reference to a word. -/
  | compileReference (r : Record)
  /-- Moves the free end of the dictionary. -/
  | allot (n : Cell)
  /-- Appends a record to the dictionary. -/
  | createRecord (name : List UInt8) (code flags : Cell)
  /-- Makes a record visible. -/
  | reveal (address : Nat)
  /-- Reads the next token. -/
  | parseWord
  /-- Reads up to a delimiter. -/
  | parse (delimiter : UInt8)
  /-- Reads the next token as a name. -/
  | parseName
  /-- Writes bytes to the output sink. -/
  | write (bs : List UInt8)
  /-- Registers a native word. -/
  | addPrimitive (name : String) (action : Action)
  /-- Registers a native word that runs even while compiling. -/
  | addImmediate (name : String) (action : Action)
  /-- Asks the data stack. -/
  | dataStack (request : StackRequest)
  /-- Asks the return stack. -/
  | returnStack (request : StackRequest)
  /-- The cell at an offset. -/
  | cell (pos : Nat)
  /-- The cells from an offset on. -/
  | cells (pos count : Nat)

/-- The answer to a request. -/
inductive Answer where
  /-- It is done. -/
  | done
  /-- A number. -/
  | number (n : Nat)
  /-- A truth value. -/
  | truth (b : Bool)
  /-- Cells. -/
  | cells (cs : List Cell)
  /-- Bytes. -/
  | bytes (bs : List UInt8)
  /-- A record, or that there is none. -/
  | record (r : Option Record)
  /-- Records with their names. -/
  | records (rs : List (Record × List UInt8))
  /-- An image that was written. -/
  | image (bs : List UInt8)
  deriving DecidableEq

/-- How a request is refused. -/
inductive Refusal where
  /-- By a fault that does not poison. -/
  | fault (f : Fault)
  /-- By an error of a host call. -/
  | host (e : HostError)
  /-- By an error of a dump, after some of the image was written. -/
  | dump (e : HostError) (written : List UInt8)
  deriving DecidableEq

/-- Answers a request to a stack. -/
def StackRequest.perform : StackRequest → StackM Answer
  | push c => do
    Stack.push c
    return .done
  | pop => do
    let c ← Stack.pop
    return .number c.toNat
  | peek => do
    let c ← Stack.peek
    return .number c.toNat
  | pick n => do
    let c ← Stack.pick n
    return .number c.toNat
  | set n c => do
    Stack.set n c
    return .done
  | require n => do
    Stack.require n
    return .done
  | size => observe fun s => .ok (.number s.size)
  | isEmpty => observe fun s => .ok (.truth s.isEmpty)
  | capacity => observe fun s => .ok (.number s.capacity)
  | items => observe fun s => .ok (.cells s.toList)

namespace Request

/-- The result of a request, if it ended within the steps it had. -/
abbrev Result := Option (EStateM.Result Refusal Machine Answer)

/-- The result of an operation that ends. -/
def ofExec {α : Type} (answer : α → Answer) (op : Exec α) (m : Machine) : Result :=
  match op m with
  | .ok a m => some (.ok (answer a) m)
  | .error f m => some (.error (.fault f) m)

/-- The result of an operation that does not change the machine. -/
def ofLook {α : Type} (answer : α → Answer) (look : Machine → Except Fault α) (m : Machine) :
    Result :=
  ofExec answer (observe look) m

/-- The result of an operation that may not end. -/
def ofOutcome : Outcome Unit → Result
  | none => none
  | some (.ok _ m) => some (.ok .done m)
  | some (.error f m) => some (.error (.fault f) m)

/-- The result of a host call that may not end. -/
def ofHost : Option (HostResult Unit) → Result
  | none => none
  | some (.ok _ m) => some (.ok .done m)
  | some (.error e m) => some (.error (.host e) m)

/-- The result of a dump. -/
def ofDump : HostResult Unit × Sink → Result
  | (.ok _ m, sink) => some (.ok (.image sink.bytes) m)
  | (.error e m, sink) => some (.error (.dump e sink.bytes) m)

/-- A record with its name. -/
def withName (memory : Memory) (r : Record) : Except Fault (Record × List UInt8) := do
  let name ← memory.recordName r
  return (r, name)

/-- Answers a request, with a number of steps to use. -/
def perform (steps : Nat) : Request → Machine → Result
  | evaluate text, m => ofHost (m.evaluate steps text)
  | run, m => ofHost (m.run steps)
  | setText text, m => some (.ok .done (m.setText text))
  | setStream deliveries, m => some (.ok .done (m.setStream (Source.ofDeliveries deliveries)))
  | setOutput sink, m => some (.ok .done (m.setOutput sink))
  | dump sink, m => ofDump (m.dump sink)
  | imageLength, m => some (.ok (.number m.imageLength) m)
  | isPoisoned, m => some (.ok (.truth m.isPoisoned) m)
  | here, m => some (.ok (.number m.regs.here.toNat) m)
  | unused, m => some (.ok (.number m.unused) m)
  | act action, m => ofOutcome (m.runAction steps action)
  | executeToken xt, m => ofOutcome (m.runToken steps xt)
  | find name, m => ofLook .record (·.find name) m
  | recordAt address, m => ofLook (.record ∘ some) (·.memory.recordAt address) m
  | recordName r, m => ofLook .bytes (·.memory.recordName r) m
  | records, m =>
    ofLook .records
      (fun m => do
        let rs ← m.records
        rs.mapM (withName m.memory)) m
  | compileCell c, m => ofExec (fun _ => .done) (Exec.compileCell c) m
  | compileInteger c, m => ofExec (fun _ => .done) (Exec.compileInteger c) m
  | compileString bs, m => ofExec (fun _ => .done) (Exec.compileString bs) m
  | compileReference r, m => ofExec (fun _ => .done) (Exec.compileReference r) m
  | allot n, m => ofExec (fun _ => .done) (Exec.allot (Cell.signed n)) m
  | createRecord name code flags, m =>
    ofExec (.record ∘ some) (Exec.createRecord name code flags) m
  | reveal address, m => ofExec (fun _ => .done) (Exec.reveal address) m
  | parseWord, m => ofExec (fun _ => .done) Exec.parseWord m
  | parse delimiter, m => ofExec .bytes (Exec.parse delimiter) m
  | parseName, m => ofExec .bytes Exec.parseName m
  | write bs, m => ofExec (fun _ => .done) (Exec.write bs) m
  | addPrimitive name action, m =>
    ofExec (fun op => .number op.toNat) (Exec.addPrimitive name action) m
  | addImmediate name action, m =>
    ofExec (fun op => .number op.toNat) (Exec.addImmediate name action) m
  | dataStack request, m => ofExec id (Exec.onData request.perform) m
  | returnStack request, m => ofExec id (Exec.onReturn request.perform) m
  | cell pos, m => ofLook (fun c => .number c.toNat) (·.memory.get pos) m
  | cells pos count, m => ofLook .cells (·.memory.getCells pos count) m

end Request

end CellForth
