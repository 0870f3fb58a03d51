import CellForth.Proofs.Definitions
import CellForth.Proofs.Ledger

/-!
# The history of a dictionary

A host that builds definitions creates records, opens and completes definitions, makes words
immediate and reveals them, and in between it adds code and data to the dictionary and uses the
stacks. Any of this may fail, and a request that has failed may still have left a record behind.

`Event` is what such a request can do to a book, and `Request.event?` says what it has done: a
record counts from the moment at which it is created, whatever becomes of the rest of the request
(`Creation`), and all other events need the request to succeed. `Develops` is a row of such requests
with their events. The words of the machine are then those of the book in which the events have been
replayed (`Develops.hasBook`); in particular a definition stays out of sight until its end or until
it is revealed by hand (`Book.Shut`).
-/

namespace CellForth

/-! ### Events -/

/-- What can happen to a book. -/
inductive Event where
  /-- A record was created; perhaps it opens a definition. -/
  | created (e : Entry) (opens : Bool)
  /-- The open definition was completed. -/
  | completed
  /-- The newest word was made immediate. -/
  | madeImmediate
  /-- The record at an address was revealed. -/
  | revealed (address : Nat)
  deriving DecidableEq

namespace Book

/-- The book after an event. -/
def after (book : Book) : Event → Book
  | .created e opens =>
    { ledger := e :: book.ledger
      opened := if opens then some e.address else book.opened }
  | .completed =>
    match book.opened with
    | some address => { ledger := book.ledger.mark address .visible, opened := none }
    | none => book
  | .madeImmediate => { book with ledger := book.ledger.mark book.ledger.newest .immediate }
  | .revealed address => { book with ledger := book.ledger.mark address .visible }

/-- The book after an event, if there was one. -/
def note (book : Book) : Option Event → Book
  | some event => book.after event
  | none => book

/-- The book after a row of requests with their events. -/
def replay (book : Book) (log : List (Request × Option Event)) : Book :=
  log.foldl (fun book x => book.note x.2) book

end Book

/-! ### Requests that create a record -/

/-- A record that is about to be created, and what is done behind it. -/
structure Creation where
  /-- Its name. -/
  name : List UInt8
  /-- What its code field holds. -/
  code : Cell
  /-- Its flags. -/
  flags : Cell
  /-- What follows. -/
  finish : Record → Exec Answer

namespace Creation

/-- Prepares a record, creates it, and does what follows. -/
def run (prepare : Exec Creation) : Exec Answer := do
  let c ← prepare
  let r ← Exec.createRecord c.name c.code c.flags
  c.finish r

/-- The entry of the record that is created, if it comes to that. -/
def entry? (prepare : Exec Creation) (m : Machine) : Option Entry :=
  match prepare m with
  | .error _ _ => none
  | .ok c m =>
    match Exec.createRecord c.name c.code c.flags m with
    | .error _ _ => none
    | .ok r _ => some (.ofFlags r.address c.name c.code c.flags)

end Creation

open Exec in
/-- How a defining word creates a record, if it does. -/
def DefiningWord.creation? : DefiningWord → Option (Exec Creation)
  | colon => some do
    requireNesting fun regs => !regs.isCompiling && regs.defining = 0
    let name ← parseName
    return ⟨name, Runtime.nest.opcode, Record.hiddenBit, fun r => do
      pushControl (UInt16.ofNat r.address) .definition
      setRegs fun regs => { regs with defining := UInt16.ofNat r.address, mode := .compile }
      report (.defining name)
      return .done⟩
  | create => some do
    let name ← parseName
    return ⟨name, Runtime.address.opcode, 0, fun _ => return .done⟩
  | cellVariable => some do
    let name ← parseName
    return ⟨name, Runtime.address.opcode, 0, fun _ => do
      compileCell 0
      return .done⟩
  | constant => some do
    let c ← pop
    let name ← parseName
    return ⟨name, Runtime.constant.opcode, 0, fun _ => do
      compileCell c
      return .done⟩
  | _ => none

/-- Does the request leave the items below the top as they are? -/
def StackRequest.isQuiet : StackRequest → Bool
  | set _ _ => false
  | _ => true

namespace Request

/-- How a request creates a record, if it does. -/
def creation? : Request → Option (Exec Creation)
  | createRecord name code flags =>
    some (return ⟨name, code, flags, fun r => return .record (some r)⟩)
  | act (.define word) => word.creation?
  | _ => none

/-- Does the request open a definition? -/
def opens : Request → Bool
  | act (.define .colon) => true
  | _ => false

/-- The event of a request that creates no record but changes one. -/
def change? : Request → Option Event
  | act (.define .semicolon) => some .completed
  | act (.define .immediate) => some .madeImmediate
  | reveal address => some (.revealed address)
  | _ => none

/-- The event that comes of a request to a machine, by its result. -/
def event? (request : Request) (m : Machine) (r : EStateM.Result Refusal Machine Answer) :
    Option Event :=
  match request.creation? with
  | some prepare =>
    (Creation.entry? prepare m).map fun e => .created e (request.opens && succeeded r)
  | none => if succeeded r then request.change? else none

/-- Does the request neither create records nor change them, nor make the dictionary shorter? -/
def isQuiet : Request → Bool
  | setText _ | setStream _ | setOutput _ | imageLength | isPoisoned | here | unused => true
  | find _ | recordAt _ | recordName _ | records | cell _ | cells _ _ => true
  | compileCell _ | compileInteger _ | compileString _ | compileReference _ => true
  | allot n => 0 ≤ Cell.signed n
  | dataStack request | returnStack request => request.isQuiet
  | _ => false

/-- The request is one of those by which a host builds definitions, and if it reveals a record then
one of the book. -/
inductive Builds (book : Book) : Request → Prop
  /-- Everything around the records. -/
  | quiet {request : Request} (h : request.isQuiet = true) : Builds book request
  /-- Creating a record. -/
  | creates {request : Request} {prepare : Exec Creation} (h : request.creation? = some prepare) :
    Builds book request
  /-- Completing the open definition. -/
  | completes : Builds book (.act (.define .semicolon))
  /-- Making the newest word immediate. -/
  | makesImmediate : Builds book (.act (.define .immediate))
  /-- Revealing a record. -/
  | reveals {address : Nat} (h : address ∈ book.ledger.addresses) : Builds book (.reveal address)

variable {m : Machine} {steps : Nat}

/-- An action that is a single step is answered by it. -/
theorem perform_act {action : Action} (hexecute : action ≠ .execute) (hresume : action ≠ .resume) :
    (act action).perform steps m = ofExec (fun _ => .done) action.step m := by
  show ofOutcome (Machine.continueWith steps (Exec.act action m)) = _
  rw [Exec.act_of_step hexecute hresume]
  unfold ofExec
  cases h : action.step m with
  | ok _ m' =>
    rw [bind_of_ok h]
    rfl
  | error e m' =>
    rw [bind_of_error h]
    rfl

/-- The answer may be given by the operation itself. -/
theorem ofExec_eq {α : Type} (answer : α → Answer) (op : Exec α) :
    ofExec answer op m = ofExec id (op >>= fun a => pure (answer a)) m := by
  unfold ofExec
  cases h : op m with
  | ok a m' =>
    rw [bind_of_ok h]
    rfl
  | error e m' =>
    rw [bind_of_error h]

/-- A request that creates a record does so in three steps. -/
theorem perform_of_creation {request : Request} {prepare : Exec Creation}
    (h : request.creation? = some prepare) :
    request.perform steps m = ofExec id (Creation.run prepare) m := by
  cases request with
  | createRecord name code flags =>
    cases h
    exact ofExec_eq ..
  | act action =>
    cases action with
    | define word =>
      rw [perform_act (by simp) (by simp), ofExec_eq]
      cases word with
      | colon =>
        cases h
        simp only [Action.step, DefiningWord.perform, Exec.beginDefinition, Creation.run,
          bind_assoc, pure_bind]
      | create =>
        cases h
        simp only [Action.step, DefiningWord.perform, Exec.create, Creation.run, bind_assoc,
          pure_bind]
      | cellVariable =>
        cases h
        simp only [Action.step, DefiningWord.perform, Exec.create, Creation.run, bind_assoc,
          pure_bind]
      | constant =>
        cases h
        simp only [Action.step, DefiningWord.perform, Exec.makeConstant, Creation.run, bind_assoc,
          pure_bind]
      | _ => cases h
    | _ => cases h
  | _ => cases h

/-- A result that ends keeps how the operation has ended. -/
theorem succeeded_ofExec {α : Type} {answer : α → Answer} {op : Exec α}
    {r : EStateM.Result Refusal Machine Answer} (hr : ofExec answer op m = some r) :
    succeeded r = succeeded (op m) := by
  unfold ofExec at hr
  split at hr
  · rename_i hop
    cases hr
    rw [hop]
    rfl
  · rename_i hop
    cases hr
    rw [hop]
    rfl

end Request

/-! ### What one request does -/

theorem Stack.replaces_perform {request : StackRequest} (h : request.isQuiet = true) :
    Stack.Replaces request.perform := by
  unfold StackRequest.perform
  cases request with
  | push c => exact (replaces_push c).bind_pure _
  | pop => exact drops_pop.replaces.bind_pure _
  | peek => exact (drops_pick 0).replaces.bind_pure _
  | pick n => exact (drops_pick n).replaces.bind_pure _
  | set n c => cases h
  | require n => exact (drops_require n).replaces.bind_pure _
  | _ => exact (drops_of_looks fun _ => endState_observe ..).replaces

/-- What follows a record changes the book only if the record opens a definition, and only if it
succeeds. -/
def Creation.Sound (opens : Bool) (c : Creation) : Prop :=
  ∀ (book : Book) (r : Record) (m : Machine), m.HasBook book → r.address ∈ book.ledger.addresses →
    Ends (·.HasBook book)
      (fun _ m' => m'.HasBook { book with opened := if opens then some r.address else book.opened })
      (c.finish r m)

theorem Creation.sound_of_keeps {c : Creation}
    (h : ∀ book r, Keeps (·.HasBook book) (c.finish r)) : c.Sound false :=
  fun book r _ hm _ => (h book r).ends hm

namespace Machine.HasBook

variable {m : Machine} {book : Book}

/-- A definition that is opened is the one that the register names. -/
theorem openDefinition (h : m.HasBook book) {address : Nat} (hmem : address ∈ book.ledger.addresses)
    (mode : Mode) :
    ({ m with regs := { m.regs with defining := UInt16.ofNat address, mode := mode } } :
      Machine).HasBook { book with opened := some address } := by
  have hlt := (h.stands.address_lt hmem).2
  have hhere := m.regs.here.toNat_lt
  refine { h with within := { h.within with }, defining_eq := ?_, opened_mem := ?_ }
  · exact Cell.toNat_ofNat (by omega)
  · intro opened hopened
    obtain rfl : address = opened := by simpa using hopened
    exact hmem

/-- Until a record is created, the book stays as it is. -/
theorem ends_prepare {request : Request} {prepare : Exec Creation}
    (hrequest : request.creation? = some prepare) (h : m.HasBook book) :
    Ends (·.HasBook book) (fun c m' => m'.HasBook book ∧ c.Sound request.opens) (prepare m) := by
  have hname := (deviceFree book).parseName
  cases request with
  | createRecord name code flags =>
    cases hrequest
    exact ⟨h, Creation.sound_of_keeps fun _ _ => .pure _⟩
  | act action =>
    cases action with
    | define word =>
      cases word with
      | colon =>
        cases hrequest
        refine .bind ((Keeps.observe _).ends h) fun _ m₁ h₁ => ?_
        refine .bind (hname.ends h₁) fun name m₂ h₂ => ⟨h₂, fun book' r m₃ h₃ hmem => ?_⟩
        refine .bind ((pushControl _ _).ends h₃) fun _ m₄ h₄ => ?_
        rw [Exec.bind_setRegs]
        exact deviceFree _ _ _ _ _ _ (h₄.openDefinition hmem .compile)
      | create =>
        cases hrequest
        exact .bind (hname.ends h) fun _ _ h₁ => ⟨h₁, Creation.sound_of_keeps fun _ _ => .pure _⟩
      | cellVariable =>
        cases hrequest
        exact .bind (hname.ends h) fun _ _ h₁ => ⟨h₁, Creation.sound_of_keeps fun _ _ =>
          .bind (compileCell 0) fun _ => .pure _⟩
      | constant =>
        cases hrequest
        exact .bind (pop.ends h) fun c _ h₁ => .bind (hname.ends h₁) fun _ _ h₂ =>
          ⟨h₂, Creation.sound_of_keeps fun _ _ => .bind (compileCell c) fun _ => .pure _⟩
      | _ => cases hrequest
    | _ => cases hrequest
  | _ => cases hrequest

/-- A request that creates a record has the event of the record that it has created. -/
theorem creation {request : Request} {prepare : Exec Creation} {steps : Nat}
    {r : EStateM.Result Refusal Machine Answer} (hrequest : request.creation? = some prepare)
    (h : m.HasBook book) (hr : request.perform steps m = some r) :
    (endState r).HasBook (book.note (request.event? m r)) := by
  rw [Request.perform_of_creation hrequest] at hr
  have hsucceeded := Request.succeeded_ofExec hr
  rw [Request.endState_ofExec hr]
  simp only [Request.event?, hrequest, hsucceeded]
  have hprepare := ends_prepare hrequest h
  unfold Creation.entry? Creation.run
  cases hc : prepare m with
  | error e m₁ =>
    rw [hc] at hprepare
    rw [bind_of_error hc]
    exact hprepare
  | ok c m₁ =>
    rw [hc] at hprepare
    obtain ⟨h₁, hsound⟩ := hprepare
    rw [bind_of_ok hc]
    obtain ⟨f, hf⟩ | ⟨record, m₂, hok, h₂⟩ := h₁.createRecord c.name c.code c.flags
    · simp only [hf]
      rw [bind_of_error hf]
      exact h₁
    · -- From here on the record is there, however the request ends.
      have hfinish := hsound _ record m₂ h₂ List.mem_cons_self
      simp only [hok]
      rw [bind_of_ok hok]
      cases hend : c.finish record m₂ with
      | error e m₃ =>
        rw [hend] at hfinish
        simp only [succeeded, Bool.and_false]
        exact hfinish
      | ok a m₃ =>
        rw [hend] at hfinish
        simp only [succeeded, Bool.and_true]
        exact hfinish

/-- Completing a definition reveals its record. -/
theorem endDefinition (h : m.HasBook book) :
    Ends (·.HasBook book) (fun _ m' => m'.HasBook (book.after .completed))
      (Exec.endDefinition m) := by
  refine .bind (Q := fun _ m' => m = m' ∧ m.regs.defining ≠ 0) (.observe h fun _ hdemand => ?_) ?_
  · have hnesting := demand_eq_ok_iff.mp hdemand
    simp only [Bool.and_eq_true, decide_eq_true_eq] at hnesting
    exact ⟨rfl, hnesting.2⟩
  rintro _ _ ⟨rfl, hdefining⟩
  obtain ⟨opened, hopened⟩ : ∃ opened, book.opened = some opened := by
    refine Option.ne_none_iff_exists'.mp fun hnone => ?_
    have heq := h.defining_eq
    rw [hnone] at heq
    exact Cell.toNat_ne_zero_iff.mpr hdefining heq
  refine .bind ((popControl _).ends h) fun address m₁ h₁ => ?_
  refine .bind (Q := fun _ m' => m₁ = m' ∧ address = m₁.regs.defining)
    (.observe h₁ fun _ hdemand => ⟨rfl, demand_eq_ok_iff.mp hdemand⟩) ?_
  rintro _ _ ⟨rfl, haddress⟩
  have htoNat : address.toNat = opened := by
    rw [haddress, h₁.defining_eq, hopened]
    rfl
  have hmem : address.toNat ∈ book.ledger.addresses := by
    rw [htoNat]
    exact h.opened_mem opened hopened
  refine .bind ((compileCell _).ends h₁) fun _ m₂ h₂ => ?_
  obtain ⟨memory, hreveal, h₃⟩ := h₂.updateHeader hmem .visible
  -- The record is there, so that its name can be read for the journal.
  obtain ⟨e, link, heq, hlength, hholds⟩ := h₃.stands.exists_holds (by simpa using hmem)
  have hnameLength :
      Record.nameLength ⟨address.toNat, UInt16.ofNat link, e.header⟩ = e.name.length :=
    heq ▸ Entry.nameLength_record hlength link
  obtain ⟨journal, hnote⟩ := Exec.noteDefinition_of_holds (m := { m₂ with
    memory := memory
    regs := { m₂.regs with defining := 0, mode := .interpret } }) hnameLength hholds
  have hok : Exec.reveal address.toNat m₂ = .ok () _ := hreveal
  rw [bind_of_ok hok, Exec.bind_setRegs, hnote]
  simp only [Ends, Book.after, hopened]
  rw [htoNat] at h₃
  exact
    { h₃ with
      within := { h₃.within with }
      defining_eq := rfl
      opened_mem := by simp }

/-- Making a word immediate marks the newest entry. -/
theorem setImmediate (h : m.HasBook book) :
    Ends (·.HasBook book) (fun _ m' => m'.HasBook (book.after .madeImmediate))
      (Exec.setImmediate m) := by
  unfold Exec.setImmediate
  rw [Exec.bind_reg, h.latest_eq]
  cases hledger : book.ledger with
  | nil =>
    have hrefused : Exec.updateHeader 0 (· ||| Record.immediateBit) m =
        .error .invalidMemoryAddress m :=
      bind_of_error (observe_of_error (demand_of_neg (not_not.mpr rfl)))
    rw [Ledger.newest, hrefused]
    exact h
  | cons e es =>
    have hmem : book.ledger.newest ∈ book.ledger.addresses := by
      rw [hledger]
      exact List.mem_cons_self
    obtain ⟨memory, hok, h'⟩ := h.updateHeader hmem .immediate
    rw [← hledger]
    exact hok ▸ h'

/-- Revealing a record of the book marks its entry. -/
theorem reveal (h : m.HasBook book) {address : Nat} (hmem : address ∈ book.ledger.addresses) :
    Ends (·.HasBook book) (fun _ m' => m'.HasBook (book.after (.revealed address)))
      (Exec.reveal address m) := by
  obtain ⟨memory, hok, h'⟩ := h.updateHeader hmem .visible
  have hreveal : Exec.reveal address m = .ok () _ := hok
  rw [hreveal]
  exact h'

/-- An event that needs success is noted if there was success. -/
theorem note_of_ends {α : Type} {answer : α → Answer} {op : Exec α} {event : Event}
    {r : EStateM.Result Refusal Machine Answer}
    (hop : Ends (·.HasBook book) (fun _ m' => m'.HasBook (book.after event)) (op m))
    (hr : Request.ofExec answer op m = some r) :
    (endState r).HasBook (book.note (if succeeded r then some event else none)) := by
  rw [Request.endState_ofExec hr, Request.succeeded_ofExec hr]
  cases hend : op m with
  | ok a m' =>
    rw [hend] at hop
    exact hop
  | error e m' =>
    rw [hend] at hop
    exact hop

/-- A quiet request leaves the book alone. -/
theorem quiet {request : Request} {steps : Nat} {r : EStateM.Result Refusal Machine Answer}
    (hrequest : request.isQuiet = true) (h : m.HasBook book)
    (hr : request.perform steps m = some r) : (endState r).HasBook book := by
  have hexec {α : Type} {answer : α → Answer} {op : Exec α} (hop : Keeps (·.HasBook book) op)
      (hr : Request.ofExec answer op m = some r) : (endState r).HasBook book :=
    Request.endState_ofExec hr ▸ hop m h
  have hlook {α : Type} {answer : α → Answer} {look : Machine → Except Fault α}
      (hr : Request.ofLook answer look m = some r) : (endState r).HasBook book :=
    Request.endState_ofLook hr ▸ h
  cases request with
  | setText text => cases hr; exact deviceFree book m _ m.output m.token _ h
  | setStream deliveries => cases hr; exact deviceFree book m _ m.output m.token _ h
  | setOutput sink => cases hr; exact deviceFree book m m.input _ m.token _ h
  | imageLength => cases hr; exact h
  | isPoisoned => cases hr; exact h
  | here => cases hr; exact h
  | unused => cases hr; exact h
  | find name => exact hlook hr
  | recordAt address => exact hlook hr
  | recordName record => exact hlook hr
  | records => exact hlook hr
  | compileCell c => exact hexec (compileCell c) hr
  | compileInteger c => exact hexec (compileInteger c) hr
  | compileString bs => exact hexec (compileString bs) hr
  | compileReference record => exact hexec (compileReference record) hr
  | allot n => exact hexec (allot (of_decide_eq_true hrequest)) hr
  | dataStack request => exact hexec (onData (Stack.replaces_perform hrequest)) hr
  | returnStack request => exact hexec (onReturn (Stack.replaces_perform hrequest)) hr
  | cell pos => exact hlook hr
  | cells pos count => exact hlook hr
  | _ => cases hrequest

end Machine.HasBook

/-- A quiet request has no event. -/
theorem Request.event?_of_isQuiet {request : Request} (h : request.isQuiet = true) (m : Machine)
    (r : EStateM.Result Refusal Machine Answer) : request.event? m r = none := by
  have hnone : request.creation? = none ∧ request.change? = none := by
    cases request <;> first | exact ⟨rfl, rfl⟩ | cases h
  rw [event?, hnone.1, hnone.2]
  exact ite_self _

/-- A request of a host that builds definitions does to the book what its event says. -/
theorem Request.Builds.hasBook {request : Request} {book : Book} {m : Machine} {steps : Nat}
    {r : EStateM.Result Refusal Machine Answer} (hrequest : request.Builds book)
    (h : m.HasBook book) (hr : request.perform steps m = some r) :
    (endState r).HasBook (book.note (request.event? m r)) := by
  cases hrequest with
  | quiet hquiet =>
    rw [event?_of_isQuiet hquiet]
    exact h.quiet hquiet hr
  | creates hcreation => exact h.creation hcreation hr
  | completes =>
    rw [perform_act (by simp) (by simp)] at hr
    exact .note_of_ends h.endDefinition hr
  | makesImmediate =>
    rw [perform_act (by simp) (by simp)] at hr
    exact .note_of_ends h.setImmediate hr
  | reveals hmem => exact .note_of_ends (h.reveal hmem) hr

/-! ### Whole histories -/

/-- The machine comes from the first to the second by requests that build definitions, each of which
is answered or refused. The book is that of the first machine, and the log has the requests with
their events. -/
inductive Develops : Machine → Book → List (Request × Option Event) → Machine → Prop
  /-- Nothing is asked. -/
  | nil (m : Machine) (book : Book) : Develops m book [] m
  /-- A request has its event, and the others follow. -/
  | cons {m m' : Machine} {book : Book} {steps : Nat} {request : Request} {event : Option Event}
    {r : EStateM.Result Refusal Machine Answer} {log : List (Request × Option Event)}
    (hbuilds : request.Builds book) (hperform : request.perform steps m = some r)
    (hevent : request.event? m r = event)
    (hrest : Develops (endState r) (book.note event) log m') :
    Develops m book ((request, event) :: log) m'

namespace Develops

variable {m m' : Machine} {book : Book} {log log' : List (Request × Option Event)}

/-- The book is kept up to date by its events. -/
theorem hasBook (h : Develops m book log m') (hm : m.HasBook book) :
    m'.HasBook (book.replay log) := by
  induction h with
  | nil => exact hm
  | cons hbuilds hperform hevent _ ih => exact ih (hevent ▸ hbuilds.hasBook hm hperform)

/-- A history can be cut in two. -/
theorem of_append (h : Develops m book (log ++ log') m') :
    ∃ m₁, Develops m book log m₁ ∧ Develops m₁ (book.replay log) log' m' := by
  induction log generalizing m book with
  | nil => exact ⟨m, .nil m book, h⟩
  | cons x log ih =>
    cases h with
    | cons hbuilds hperform hevent hrest =>
      obtain ⟨m₁, hfirst, hsecond⟩ := ih hrest
      exact ⟨m₁, .cons hbuilds hperform hevent hfirst, hsecond⟩

end Develops

/-! ### Definitions that are out of sight -/

/-- The record at an address is hidden, and it is not that of the open definition unless it opens
one. -/
structure Book.Shut (book : Book) (address : Nat) (opens : Bool) : Prop where
  /-- It is in the book. -/
  mem : address ∈ book.ledger.addresses
  /-- It is hidden. -/
  hidden : ∀ e ∈ book.ledger, e.address = address → e.hidden = true
  /-- If it opens no definition, no semicolon belongs to it. -/
  opened : opens = false → book.opened ≠ some address

namespace Book.Shut

variable {book : Book} {address : Nat} {opens : Bool}

/-- A change to flags that does not reveal the record leaves it hidden. -/
theorem hidden_mark (h : book.Shut address opens) {address' : Nat} {mark : Mark}
    (hother : mark = .visible → address' ≠ address) :
    ∀ e ∈ book.ledger.mark address' mark, e.address = address → e.hidden = true := by
  intro e he haddress
  obtain ⟨e₀, he₀, rfl⟩ := List.mem_map.mp he
  by_cases heq : e₀.address = address'
  · rw [if_pos heq] at haddress ⊢
    rw [Mark.address_apply] at haddress
    cases mark with
    | immediate => exact h.hidden e₀ he₀ haddress
    | visible => exact absurd (heq.symm.trans haddress) (hother rfl)
  · rw [if_neg heq] at haddress ⊢
    exact h.hidden e₀ he₀ haddress

/-- A hidden record stays hidden until it is revealed or its definition is completed. -/
theorem note (h : book.Shut address opens) {event : Option Event}
    (hnodup : (book.note event).ledger.addresses.Nodup)
    (hrevealed : event ≠ some (.revealed address))
    (hcompleted : opens = true → event ≠ some .completed) :
    (book.note event).Shut address opens := by
  rcases event with _ | ⟨e, opens'⟩ | _ | _ | address'
  · exact h
  · have hfresh : e.address ≠ address := fun heq =>
      (List.nodup_cons.mp hnodup).1 (heq ▸ h.mem)
    refine ⟨List.mem_cons_of_mem _ h.mem, ?_, fun hopens => ?_⟩
    · rintro e' (_ | ⟨_, he'⟩) haddress
      · exact absurd haddress hfresh
      · exact h.hidden e' he' haddress
    · simp only [Book.note, Book.after]
      split
      · simpa using hfresh
      · exact h.opened hopens
  · -- The definition that was completed is another one.
    have hopens : opens = false := by simpa using fun hopens => hcompleted hopens rfl
    simp only [Book.note, Book.after]
    cases hopened : book.opened with
    | none => exact h
    | some address' =>
      have hother : address' ≠ address := by simpa [hopened] using h.opened hopens
      exact ⟨by simpa using h.mem, h.hidden_mark fun _ => hother, by simp⟩
  · exact ⟨by simpa [Book.note, Book.after] using h.mem, h.hidden_mark (by simp), h.opened⟩
  · have hother : address' ≠ address := by simpa using hrevealed
    exact ⟨by simpa [Book.note, Book.after] using h.mem, h.hidden_mark fun _ => hother, h.opened⟩

/-- A hidden record that was just created is out of sight. -/
theorem of_created {e : Entry} (hnodup : (book.after (.created e opens)).ledger.addresses.Nodup)
    (hopened : ∀ address ∈ book.opened, address ∈ book.ledger.addresses)
    (hhidden : e.hidden = true) :
    (book.after (.created e opens)).Shut e.address opens := by
  have hfresh : e.address ∉ book.ledger.addresses := (List.nodup_cons.mp hnodup).1
  refine ⟨List.mem_cons_self, ?_, ?_⟩
  · rintro e' (_ | ⟨_, he'⟩) haddress
    · exact hhidden
    · exact absurd (List.mem_map.mpr ⟨e', he', haddress⟩) hfresh
  · rintro rfl heq
    exact hfresh (hopened e.address heq)

theorem lookup_ne (h : book.Shut address opens) {name : List UInt8} {r : Record}
    (hlookup : book.ledger.lookup name = some r) : r.address ≠ address := by
  obtain ⟨e, he, hanswer, link, rfl⟩ := Ledger.exists_of_lookup hlookup
  intro haddress
  rw [Entry.answersTo, h.hidden e he haddress] at hanswer
  cases hanswer

end Book.Shut

/-- A colon hides the record that it creates. -/
theorem Request.hidden_of_colon {m : Machine} {r : EStateM.Result Refusal Machine Answer}
    {e : Entry} {opens : Bool} (h : (act (.define .colon)).event? m r = some (.created e opens)) :
    e.hidden = true := by
  obtain ⟨prepare, hprepare⟩ : ∃ prepare, DefiningWord.colon.creation? = some prepare := ⟨_, rfl⟩
  have hflags : Ends (fun _ => True) (fun c _ => c.flags = Record.hiddenBit) (prepare m) := by
    cases hprepare
    have htrue {α : Type} (op : Exec α) : Keeps (fun _ => True) op := fun _ _ => trivial
    exact .bind ((htrue _).ends trivial) fun _ _ _ =>
      .bind ((htrue _).ends trivial) fun _ _ _ => rfl
  simp only [event?, creation?, hprepare] at h
  obtain ⟨e', hentry, heq⟩ := Option.map_eq_some_iff.mp h
  cases heq
  unfold Creation.entry? at hentry
  split at hentry
  · cases hentry
  · rename_i c m₁ hc
    rw [hc] at hflags
    split at hentry
    · cases hentry
    · cases hentry
      simp only [Entry.ofFlags, show c.flags = Record.hiddenBit from hflags]
      decide

/-- Where no definition is open, a name and room are all that it takes for a colon to succeed, and
the event is that of the new record. -/
theorem Request.event?_colon {m : Machine} {name : List UInt8} {ts : List (List UInt8)}
    (h : m.WithinRegions) (hmode : m.regs.mode = .interpret) (hdefining : m.regs.defining = 0)
    (hreads : m.input.Reads (name :: ts)) (hlen : name.length ≤ Record.maxNameLength)
    (hcells : Record.cellsFor name.length ≤ m.unused) (hitems : 2 ≤ m.dataStack.room)
    (steps : Nat) :
    ∃ r, (act (.define .colon)).perform steps m = some r ∧
      (act (.define .colon)).event? m r = some (.created
        (.ofFlags m.regs.here.toNat name Runtime.nest.opcode Record.hiddenBit) true) := by
  obtain ⟨-, m', hbegin, -⟩ :=
    Exec.beginDefinition_of_room h hmode hdefining hreads hlen hcells hitems
  refine ⟨.ok .done m', ?_, ?_⟩
  · have hstep : Action.step (.define .colon) m = .ok () m' := hbegin
    rw [perform_act (by simp) (by simp), ofExec, hstep]
  · obtain ⟨input, hparse, -⟩ := Exec.parseName_of_reads hreads
    have hnesting : Exec.requireNesting (fun regs => !regs.isCompiling && regs.defining = 0) m =
        .ok () m :=
      observe_of_ok (demand_of_pos (by simp [Registers.isCompiling, hmode, hdefining]))
    have h₁ : ({ m with token := name, input := input } : Machine).WithinRegions := { h with }
    obtain ⟨journal, hcreate⟩ := Exec.createRecord_of_room h₁.ordered Runtime.nest.opcode
      Record.hiddenBit (hreads.ne_nil name List.mem_cons_self) hlen hcells
    simp only [event?, creation?, DefiningWord.creation?, Creation.entry?]
    rw [bind_of_ok hnesting, bind_of_ok hparse]
    simp only [pure, EStateM.pure, hcreate]
    rfl

namespace Develops

variable {m m' : Machine} {book : Book} {log log' : List (Request × Option Event)}

theorem shut {address : Nat} {opens : Bool} (h : Develops m book log m') (hm : m.HasBook book)
    (hshut : book.Shut address opens) (hrevealed : ∀ x ∈ log, x.2 ≠ some (.revealed address))
    (hcompleted : opens = true → ∀ x ∈ log, x.2 ≠ some .completed) :
    (book.replay log).Shut address opens := by
  induction h with
  | nil => exact hshut
  | cons hbuilds hperform hevent _ ih =>
    rw [List.forall_mem_cons] at hrevealed
    have hnext := hbuilds.hasBook hm hperform
    rw [hevent] at hnext
    refine ih hnext (hshut.note hnext.stands.nodup hrevealed.1 fun hopens => ?_) hrevealed.2
      fun hopens => ?_
    · exact (List.forall_mem_cons.mp (hcompleted hopens)).1
    · exact (List.forall_mem_cons.mp (hcompleted hopens)).2

/-- Whatever a host builds on a new machine, and whatever of it fails, the words of the machine are
those of the book: the records that were created, newest first, each with the name, the code and the
flags that it was given and the changes to them since. The record of a colon is not found before its
semicolon has succeeded, unless it is revealed by hand. -/
theorem presents_and_hides {config : Config} {input : Source} {output : Sink}
    {verbosity : Verbosity} (hcreate : Machine.create config input output verbosity = .ok m)
    (h : Develops m Vocabulary.book log m') :
    m'.Presents (Vocabulary.book.replay log) ∧
      ∀ before e opens after,
        log = before ++ (.act (.define .colon), some (.created e opens)) :: after →
        (opens = true → ∀ x ∈ after, x.2 ≠ some .completed) →
        (∀ x ∈ after, x.2 ≠ some (.revealed e.address)) →
        ∀ name r, m'.find name = .ok (some r) → r.address ≠ e.address := by
  have hnew := Machine.create_hasBook hcreate
  refine ⟨(h.hasBook hnew).presents, ?_⟩
  rintro before e opens after rfl hcompleted hrevealed name r hfind
  obtain ⟨m₁, hbefore, hafter⟩ := h.of_append
  have h₁ := hbefore.hasBook hnew
  cases hafter with
  | cons hbuilds hperform hevent hrest =>
    have h₂ := hbuilds.hasBook h₁ hperform
    rw [hevent] at h₂
    have hshut :=
      Book.Shut.of_created h₂.stands.nodup h₁.opened_mem (Request.hidden_of_colon hevent)
    have hlookup := (hrest.hasBook h₂).presents.find name
    rw [hfind] at hlookup
    exact (hrest.shut h₂ hshut hrevealed hcompleted).lookup_ne (Except.ok.inj hlookup).symm

/-- A colon on a new machine of the usual size, without a semicolon. -/
theorem presents_and_hides_open_definition :
    ∃ m m' : Machine, ∃ log, Machine.create {} Source.empty {} .off = .ok m ∧
      Develops m Vocabulary.book log m' ∧
      log = [(.setText "sq", none), (.act (.define .colon), some (.created
        ⟨777, Text.bytes "sq", Runtime.nest.opcode, false, true⟩ true))] ∧
      m'.Presents (Vocabulary.book.replay log) ∧
      ∀ name r, m'.find name = .ok (some r) → r.address ≠ 777 := by
  have hlayout : Config.layout {} = .ok ⟨32576, 32640, 32768⟩ := rfl
  obtain ⟨m, hcreate, hnew⟩ :=
    Machine.create_of_room hlayout (by decide +kernel) Source.empty {} .off
  have hreads : (Source.ofText "sq").Reads [Text.bytes "sq"] :=
    ⟨⟨_, rfl, by decide +kernel⟩, by decide +kernel⟩
  have hmode : m.regs.mode = .interpret := by
    rw [hnew.regs]
    rfl
  have hdefining : m.regs.defining = 0 := by
    rw [hnew.regs]
    rfl
  have hhere : m.regs.here.toNat = 777 := by
    rw [hnew.here]
    decide +kernel
  have hcells : 31000 < m.unused := by
    rw [hnew.unused_eq]
    decide +kernel
  have hroom : 64 ≤ m.dataStack.room := by
    rw [hnew.room_eq]
    decide +kernel
  have hcellsFor : Record.cellsFor (Text.bytes "sq").length = 4 := by decide +kernel
  have hwithin : (m.setText "sq").WithinRegions := { hnew.within with }
  obtain ⟨r, hperform, hevent⟩ := Request.event?_colon hwithin hmode hdefining hreads
    (by decide +kernel) (hcellsFor ▸ show 4 ≤ m.unused by omega)
    (show 2 ≤ m.dataStack.room by omega) 0
  have hentry : Entry.ofFlags m.regs.here.toNat (Text.bytes "sq") Runtime.nest.opcode
      Record.hiddenBit = ⟨777, Text.bytes "sq", Runtime.nest.opcode, false, true⟩ := by
    rw [hhere]
    rfl
  have hdevelops : Develops m Vocabulary.book
      [(.setText "sq", none), (.act (.define .colon), some (.created
        ⟨777, Text.bytes "sq", Runtime.nest.opcode, false, true⟩ true))] (endState r) := by
    rw [← hentry]
    have htext : (Request.setText "sq").perform 0 m = some (.ok .done (m.setText "sq")) := rfl
    exact .cons (.quiet rfl) htext rfl (.cons (.creates rfl) hperform hevent (.nil _ _))
  obtain ⟨hpresents, hhides⟩ := presents_and_hides hcreate hdevelops
  exact ⟨m, _, _, hcreate, hdevelops, rfl, hpresents,
    hhides [_] _ true [] rfl (fun _ _ hx => by cases hx) (fun _ hx => by cases hx)⟩

end Develops

end CellForth
