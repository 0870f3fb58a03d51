import CellForth.Proofs.Meaning

/-!
# Straight-line code

Straight-line code is a row of numbers and of words that work on a store alone: primitives, words
that push something fixed or report on the stack, and words that name data. There are two ways to
run it. The interpreter looks up its tokens one by one, pushes numbers and runs code fields. A
definition holds opcodes, code fields and literals, and runs them as threaded code. The main result
is that a host cannot tell the two apart (`Machine.evaluate_definition_of_straight`): both end as
the effects of the words, one after the other, do on the store.

A word is found under its code field, but threaded code refers to most words by their opcode
instead. `Machine.Runs` says what running the word of either cell amounts to, and it is the same
effect for both (`Machine.runs_of_stands`, `Machine.Denotes.runs`).
-/

namespace CellForth

/-! ### Words of straight-line code -/

/-- The data stack as text: the number of items, and then the items. -/
def Store.stackText (s : Store) : List UInt8 :=
  [Ascii.less] ++ Numeral.format s.data.length false 10 ++ [Ascii.greater, Ascii.space] ++
    s.data.reverse.flatMap fun c => Numeral.formatSigned c s.base.toNat ++ [Ascii.space]

/-- A native word that straight-line code may use. -/
inductive PlainWord where
  /-- A word for stack, arithmetic, logic, comparison or output. -/
  | primitive (p : Primitive)
  /-- Pushes the radix. -/
  | base
  /-- Pushes a fixed cell. -/
  | value (c : Cell)
  /-- Writes the data stack. -/
  | showStack
  /-- Does nothing. -/
  | noop
  deriving DecidableEq

namespace PlainWord

/-- The action of the word. -/
def action : PlainWord → Action
  | primitive p => p.action
  | base => .radix .getBase
  | value c => .value c
  | showStack => .output .showStack
  | noop => .noop

/-- What the word does to a store. -/
def effect : PlainWord → StoreM Unit
  | primitive p => p.effect
  | base => do
    let base ← observe fun s => .ok s.base
    Store.push base
  | value c => Store.push c
  | showStack => do
    let text ← observe fun s => .ok s.stackText
    Store.write text
  | noop => pure ()

theorem action_ne_execute (word : PlainWord) : word.action ≠ .execute := by
  rcases word with p | _ | _ | _ | _
  · cases p <;> simp [action, Primitive.action]
  all_goals simp [action]

theorem action_ne_resume (word : PlainWord) : word.action ≠ .resume := by
  rcases word with p | _ | _ | _ | _
  · cases p <;> simp [action, Primitive.action]
  all_goals simp [action]

end PlainWord

/-- What a token of straight-line code stands for. -/
inductive Straight where
  /-- A number. -/
  | number (c : Cell)
  /-- A native word, and its opcode. -/
  | native (op : Cell) (word : PlainWord)
  /-- A word for the cells behind its code field. -/
  | created (xt : Cell)
  /-- A word for the value behind its code field. -/
  | constant (xt c : Cell)
  deriving DecidableEq

namespace Straight

/-- What it is in a definition. -/
def part : Straight → Part
  | number c => .number c
  | native op _ => .reference op
  | created xt | constant xt _ => .reference xt

/-- Its threaded code. -/
def code : Straight → List Cell
  | number c => [Runtime.literal.opcode, c]
  | native op _ => [op]
  | created xt | constant xt _ => [xt]

/-- What it does to a store. -/
def effect : Straight → StoreM Unit
  | number c => Store.push c
  | native _ word => word.effect
  | created xt => Store.push (xt + 1)
  | constant _ c => Store.push c

/-- Opcodes lead to their actions, and code fields and values stand in the dictionary, below a
bound. -/
def Stands (m : Machine) (bound : Nat) : Straight → Prop
  | number _ => True
  | native op word => m.Native op word.action
  | created xt => m.memory.Code bound xt.toNat [Runtime.address.opcode]
  | constant xt c => m.memory.Code bound xt.toNat [Runtime.constant.opcode, c]

theorem Stands.congr {w : Straight} {m m' : Machine} {bound bound' : Nat} (h : w.Stands m bound)
    (hactions : m.HasActions m') (hle : bound ≤ bound')
    (hagree : Memory.AgreeBelow bound m'.memory m.memory) : w.Stands m' bound' := by
  rcases w with c | ⟨op, word⟩ | xt | ⟨xt, c⟩
  · trivial
  · exact hactions.native h
  · exact Memory.Code.congr h hle fun i _ hi => hagree i (Nat.lt_of_lt_of_le hi h.le_bound)
  · exact Memory.Code.congr h hle fun i _ hi => hagree i (Nat.lt_of_lt_of_le hi h.le_bound)

/-- Straight-line code is compiled to the code of its words, and opens no structures. -/
theorem adds (ws : List Straight) (limits : Draft.Limits) :
    Draft.Adds limits (ws.map part) (ws.flatMap Straight.code) 0 := by
  induction ws with
  | nil => exact .nil
  | cons w ws ih =>
    have hfirst : Draft.Adds limits [w.part] w.code 0 := by
      cases w with
      | number c => exact .number c
      | native op word => exact .reference op
      | created xt => exact .reference xt
      | constant xt c => exact .reference xt
    exact hfirst.append ih

end Straight

/-! ### Running a word of straight-line code -/

namespace Machine

variable {m₀ m : Machine} {s : Store} {returns : List Cell} {ip : Nat}

theorem Running.stackText_eq (h : m₀.Running s returns ip m) : m.stackText = s.stackText := by
  have hitems : m.dataItems = s.data.reverse := by
    rw [← h.data_eq, Stack.items, List.reverse_reverse]
    rfl
  rw [Machine.stackText, Store.stackText, hitems, h.base_eq, List.length_reverse]

/-- Every plain word does to the machine what its effect does to the store that the machine
carries. -/
theorem mirrors_plainWord (word : PlainWord) :
    m₀.Mirrors returns ip (fun _ _ => True) word.action.step word.effect := by
  rcases word with p | _ | c | _ | _
  · exact refines_primitive p
  · refine mirrors_base.bind ?_
    rintro base _ rfl
    exact mirrors_push base
  · exact mirrors_push c
  · have hlook : m₀.Mirrors returns ip Eq (observe fun m => .ok m.stackText)
        (observe fun s => .ok s.stackText) := fun _ _ h => .ok h.stackText_eq h
    refine hlook.bind ?_
    rintro text _ rfl
    exact mirrors_write text
  · exact .pure trivial

/-- Running the word of the token does to the machine what the operation does to the store that the
machine carries, wherever threaded code is. -/
def Runs (m₀ : Machine) (xt : Cell) (x : StoreM Unit) : Prop :=
  ∀ returns ip, m₀.Mirrors returns ip (fun _ _ => True) (Exec.execute xt >>= fun _ => pure ()) x

theorem runs_native {op : Cell} {word : PlainWord} (hop : m₀.Native op word.action) :
    m₀.Runs op word.effect := by
  intro returns ip m s h
  rw [bind_congr_at ((h.native hop).execute word.action_ne_execute word.action_ne_resume)]
  simp only [bind_assoc, pure_bind, bind_pure_unit]
  exact mirrors_plainWord word m s h

/-- A code field runs its action, with the register `w` pointing to the field. -/
theorem runs_of_field {xt op : Cell} {cs : List Cell} {action : Action} {x : StoreM Unit}
    (hcode : m₀.HasCode xt.toNat (op :: cs)) (haction : m₀.table[op.toNat]? = some action)
    (hexecute : action ≠ .execute) (hresume : action ≠ .resume)
    (hx : ∀ {returns ip m s}, m₀.Running s returns ip m → m.regs.w = xt →
      Related (fun m s => m₀.Running s returns ip m) (fun _ _ => True) (action.step m) (x s)) :
    m₀.Runs xt x := by
  intro returns ip m s h
  have hle : m.table.size ≤ xt.toNat := Nat.le_trans h.within.table_le hcode.start_le
  have hfield : m.memory.get xt.toNat = .ok op :=
    Memory.get_of_some ((h.agree _ hcode.pos_lt).trans hcode.head)
  have hexec : Exec.execute xt m = (action.step >>= fun _ => pure Continuation.done)
      { m with regs := { m.regs with w := xt } } :=
    (bind_of_ok (Exec.resolve_of_address hle hfield (by rwa [h.table_eq]))).trans
      (Exec.act_of_step hexecute hresume)
  have hstep := hx (h.setW xt) rfl
  show Related _ _ ((Exec.execute xt >>= fun _ => pure ()) m) (x s)
  generalize ({ m with regs := { m.regs with w := xt } } : Machine) = m₁ at hexec hstep
  cases hr : action.step m₁ with
  | ok _ m' =>
    rw [hr] at hstep
    rw [bind_of_ok (hexec.trans (bind_of_ok hr))]
    exact hstep
  | error e m' =>
    rw [hr] at hstep
    rw [bind_of_error (hexec.trans (bind_of_error hr))]
    exact hstep

theorem runs_created {xt : Cell} (hequipped : m₀.Equipped)
    (hcode : m₀.HasCode xt.toNat [Runtime.address.opcode]) : m₀.Runs xt (Store.push (xt + 1)) := by
  refine runs_of_field hcode (hequipped .address) (by simp) (by simp)
    fun {returns ip m s} h hw => ?_
  have hstep : (Action.runtime .address).step m = Exec.push (xt + 1) m := by rw [← hw]; rfl
  rw [hstep]
  exact mirrors_push (xt + 1) m s h

theorem runs_constant {xt c : Cell} (hequipped : m₀.Equipped)
    (hcode : m₀.HasCode xt.toNat [Runtime.constant.opcode, c]) : m₀.Runs xt (Store.push c) := by
  refine runs_of_field hcode (hequipped .constant) (by simp) (by simp)
    fun {returns ip m s} h hw => ?_
  have hvalue : Exec.fetch (m.regs.w.toNat + 1) m = .ok c m := by
    rw [hw]
    exact Exec.fetch_of_some ((h.agree _ hcode.tail.pos_lt).trans hcode.tail.head)
  have hstep : (Action.runtime .constant).step m = Exec.push c m := bind_of_ok hvalue
  rw [hstep]
  exact mirrors_push c m s h

/-- What threaded code refers to runs as the word's effect. -/
theorem runs_of_stands {w : Straight} {c : Cell} (hequipped : m₀.Equipped)
    (hw : w.Stands m₀ m₀.regs.dataBase.toNat) (hc : w.part = .reference c) :
    m₀.Runs c w.effect := by
  rcases w with _ | ⟨op, word⟩ | xt | ⟨xt, c⟩ <;> cases hc
  · exact runs_native hw
  · exact runs_created hequipped hw
  · exact runs_constant hequipped hw

/-! ### Threaded code -/

namespace Simulates

variable {rounds pos : Nat}

/-- A reference in threaded code follows what its word does. -/
theorem reference {c : Cell} {x : StoreM Unit} (hcode : m₀.HasCode pos [c]) (hx : m₀.Runs c x) :
    m₀.Simulates rounds returns pos [c] (.of x) := by
  intro s m h
  obtain ⟨m₁, h₁, hstep⟩ := h.stepThread_of_code hcode
  have hperforms := (hx returns (pos + 1)).performs h₁
  rw [← hstep] at hperforms
  exact (Running.follows_of_performs (h.ip_ne_zero hcode) hperforms).imp fun _ _ _ h' => h'.2

theorem straight {w : Straight} (hequipped : m₀.Equipped)
    (hw : w.Stands m₀ m₀.regs.dataBase.toNat) (hcode : m₀.HasCode pos w.code) :
    m₀.Simulates rounds returns pos w.code (.of w.effect) := by
  rcases w with c | ⟨op, word⟩ | xt | ⟨xt, c⟩
  · exact fun s m h => (h.follows_literal hequipped hcode).imp fun _ _ _ h' => h'.2
  all_goals exact reference hcode (runs_of_stands hequipped hw rfl)

/-- The code of a row of words follows their effects, one after the other. -/
theorem straightLine {ws : List Straight} (hequipped : m₀.Equipped)
    (hws : ∀ w ∈ ws, w.Stands m₀ m₀.regs.dataBase.toNat)
    (hcode : m₀.HasCode pos (ws.flatMap Straight.code)) :
    m₀.Simulates rounds returns pos (ws.flatMap Straight.code) (.of (ws.forM Straight.effect)) := by
  induction ws generalizing pos with
  | nil => exact nil
  | cons w ws ih =>
    rw [List.forall_mem_cons] at hws
    rw [List.flatMap_cons] at hcode ⊢
    have heval : Eval.of ((w :: ws).forM Straight.effect) =
        (do Eval.of w.effect; Eval.of (ws.forM Straight.effect)) := Eval.of_bind ..
    rw [heval]
    exact (straight hequipped hws.1 hcode.left).append (ih hws.2 hcode.right)

end Simulates

/-! ### The interpreter -/

/-- What a token of straight-line code stands for in a machine. A word that names data is intact if
its code field, and the value of a constant, are in the dictionary. -/
inductive Denotes (m : Machine) : List UInt8 → Straight → Prop
  /-- A number of the current radix that names no word. -/
  | number {token : List UInt8} {c : Cell} (hitem : m.item? token = some (.number c)) :
    Denotes m token (.number c)
  /-- A native word. -/
  | native {token : List UInt8} {op : Cell} {word : PlainWord}
    (hitem : m.item? token = some (.reference op)) (hop : m.Native op word.action) :
    Denotes m token (.native op word)
  /-- A word for the cells behind its code field. -/
  | created {token : List UInt8} {r : Record} (hfind : m.find token = .ok (some r))
    (hplain : r.isImmediate = false)
    (hfield : m.memory.Holds r.codeField [Runtime.address.opcode]) :
    Denotes m token (.created (UInt16.ofNat r.codeField))
  /-- A constant. -/
  | constant {token : List UInt8} {r : Record} {c : Cell} (hfind : m.find token = .ok (some r))
    (hplain : r.isImmediate = false) (hbody : r.body < m.regs.here.toNat)
    (hfield : m.memory.Holds r.codeField [Runtime.constant.opcode, c]) :
    Denotes m token (.constant (UInt16.ofNat r.codeField) c)

section Denotes

variable {token : List UInt8} {w : Straight}

theorem Denotes.reread (h : m.Denotes token w) (token' : List UInt8) (input : Source)
    (journal : Journal) :
    ({ m with token := token', input := input, journal := journal } : Machine).Denotes token w := by
  rcases h with hitem | ⟨hitem, hop⟩ | ⟨hfind, hplain, hfield⟩ | ⟨hfind, hplain, hbody, hfield⟩
  · exact .number hitem
  · exact .native hitem ⟨hop.table, hop.contains_eq⟩
  · exact .created hfind hplain hfield
  · exact .constant hfind hplain hbody hfield

/-- In a dictionary that is intact, the code field of a word that is found stands in it. -/
theorem code_of_find (hwithin : m.WithinRegions) (hintact : m.Intact) {r : Record} {cs : List Cell}
    (hfind : m.find token = .ok (some r)) (hlength : r.codeField + cs.length ≤ m.regs.here.toNat)
    (hholds : m.memory.Holds r.codeField cs) :
    m.memory.Code m.regs.here.toNat (UInt16.ofNat r.codeField).toNat cs := by
  obtain ⟨hstart, -⟩ := hintact.bounds_of_find hwithin hfind
  have hlt := m.regs.here.toNat_lt
  rw [Cell.toNat_ofNat (by omega)]
  refine ⟨Nat.le_trans hstart ?_, hlength, hholds⟩
  unfold Record.codeField Record.nameAddress
  omega

/-- Tokens other than numbers are found. -/
theorem Denotes.number_or_find (hw : m.Denotes token w) :
    (∃ c, w = .number c ∧ m.item? token = some (.number c)) ∨ ∃ r, m.find token = .ok (some r) := by
  rcases hw with hitem | ⟨hitem, hop⟩ | ⟨hfind, hplain, hfield⟩ | ⟨hfind, hplain, hbody, hfield⟩
  · exact .inl ⟨_, rfl, hitem⟩
  · obtain ⟨r, _, hfind, -⟩ := find_of_item?_reference hitem
    exact .inr ⟨r, hfind⟩
  all_goals exact .inr ⟨_, hfind⟩

/-- In a definition, the token is compiled to its part. -/
theorem Denotes.item?_eq (hw : m.Denotes token w) : m.item? token = some w.part.item := by
  rcases hw with hitem | ⟨hitem, hop⟩ | ⟨hfind, hplain, hfield⟩ | ⟨hfind, hplain, hbody, hfield⟩
  · exact hitem
  · exact hitem
  all_goals
    have hcode := hfield.get (i := 0) rfl
    simp only [item?, hfind, hplain, Nat.add_zero] at hcode ⊢
    simp only [hcode]
    rfl

variable (h : m.AtTopLevel) (hw : m.Denotes token w)
include h hw

theorem Denotes.stands : w.Stands m m.regs.here.toNat := by
  rcases hw with hitem | ⟨hitem, hop⟩ | ⟨hfind, hplain, hfield⟩ | ⟨hfind, hplain, hbody, hfield⟩
  · trivial
  · exact hop
  · exact code_of_find h.within h.intact hfind (h.intact.bounds_of_find h.within hfind).2 hfield
  · exact code_of_find h.within h.intact hfind hbody hfield

/-- A word that is found under its name runs, from its code field, as its effect. -/
theorem Denotes.runs (hequipped : m.Equipped) {r : Record} (hfind : m.find token = .ok (some r)) :
    m.Runs (UInt16.ofNat r.codeField) w.effect := by
  have hbound := h.within.here_le_dataBase
  have hstands := (hw.stands h).congr (fun _ _ haction => haction) hbound (.refl _ _)
  rcases hw with hitem | ⟨hitem, hop⟩ | ⟨hfind', hplain, hfield⟩ | ⟨hfind', hplain, hbody, hfield⟩
  · obtain ⟨hnone, -⟩ := find_of_item?_number hitem
    rw [hnone] at hfind
    cases hfind
  · obtain ⟨r', code, hfind', -, hget, hop'⟩ := find_of_item?_reference hitem
    obtain rfl : r = r' := by simpa [hfind] using hfind'
    have hcode : m.memory.Code m.regs.here.toNat (UInt16.ofNat r.codeField).toNat [code] :=
      code_of_find h.within h.intact hfind (h.intact.bounds_of_find h.within hfind).2
        (.of_cell (Memory.get_eq_ok_iff.mp hget))
    -- An opcode is below every code field, so the field holds it.
    split at hop'
    · obtain ⟨hlt, -⟩ := Array.getElem?_eq_some_iff.mp hop.table
      rw [hop'] at hlt
      exact absurd (Nat.lt_of_lt_of_le hlt h.within.table_le) (Nat.not_lt.mpr hcode.start_le)
    · subst hop'
      exact runs_of_field (hcode.congr hbound fun _ _ _ => rfl) hop.table
        (PlainWord.action_ne_execute _) (PlainWord.action_ne_resume _)
        fun h' _ => mirrors_plainWord _ _ _ h'
  · obtain rfl : r = _ := by simpa [hfind] using hfind'
    exact runs_created hequipped hstands
  · obtain rfl : r = _ := by simpa [hfind] using hfind'
    exact runs_constant hequipped hstands

end Denotes

theorem AtTopLevel.reread (h : m.AtTopLevel) (token : List UInt8) (input : Source)
    (journal : Journal) :
    ({ m with token := token, input := input, journal := journal } : Machine).AtTopLevel :=
  { h with within := { h.within with } }

theorem Running.retoken (h : m₀.Running s returns ip m) (token : List UInt8) :
    ({ m₀ with token := token } : Machine).Running s returns ip { m with token := token } :=
  { h with
    within := { h.within with }
    rest := congrArg (fun m : Machine => { m with token := token }) h.rest }

theorem Running.reinput (h : m₀.Running s returns ip m) (input : Source) :
    ({ m₀ with input := input } : Machine).Running s returns ip { m with input := input } :=
  { h with
    within := { h.within with }
    rest := congrArg (fun m : Machine => { m with input := input }) h.rest }

section Interpret

variable {token : List UInt8} {w : Straight}

/-- While words are run, a word that is found runs from its code field. -/
theorem Running.interpretToken_of_runs (h : m₀.Running s returns 0 m) {r : Record}
    (hfind : m.find token = .ok (some r)) (hmode : m₀.regs.mode = .interpret) {x : StoreM Unit}
    (hx : ({ m₀ with token := [] } : Machine).Runs (UInt16.ofNat r.codeField) x) :
    ∃ r', (∀ k, m.interpretToken k token = some r') ∧
      ({ m₀ with token := token } : Machine).Ends returns (x s) r' := by
  have hmode' : m.regs.mode = .interpret := (congrArg (·.regs.mode) h.rest).trans hmode
  have hrun (k : Nat) := interpretToken_of_run k hfind
    (by simp [Registers.isCompiling, hmode'] : (m.regs.isCompiling && !r.isImmediate) = false)
  have hrelated := hx returns 0 _ s (h.retoken [])
  cases hr : Exec.execute (UInt16.ofNat r.codeField) { m with token := [] } with
  | ok _ m' =>
    rw [bind_of_ok hr] at hrelated
    obtain ⟨_, s', hs', -, h'⟩ := hrelated.of_ok
    refine ⟨.ok () (m'.restoreToken token), fun k => ?_, hs' ▸ .ok (h'.restoreToken token)⟩
    rw [hrun, hr]
    exact congrArg (Option.map (restoring token)) (runThread_of_eq_zero k h'.ip_eq)
  | error e m' =>
    rw [bind_of_error hr] at hrelated
    obtain ⟨s', hs', h'⟩ := hrelated.of_error
    refine ⟨.error e (m'.restoreToken token), fun k => ?_, hs' ▸ .error (h'.restoreToken token)⟩
    rw [hrun, hr]

/-- Interpreting a token of straight-line code is, on the store, the effect of what it stands
for. -/
theorem Running.interpretToken_straight (h : m₀.Running s returns 0 m) (htop : m₀.AtTopLevel)
    (hequipped : m₀.Equipped) (hw : m₀.Denotes token w) :
    ∃ r, (∀ k, m.interpretToken k token = some r) ∧
      ({ m₀ with token := token } : Machine).Ends returns (w.effect s) r := by
  rcases hw.number_or_find with ⟨c, rfl, hitem⟩ | ⟨r, hfound⟩
  · rw [← h.item?_eq htop.within htop.intact] at hitem
    have hmode : m.regs.mode = .interpret := (congrArg (·.regs.mode) h.rest).trans htop.mode_eq
    have hperforms := (mirrors_push c).performs (h.retoken [])
    exact ⟨_, fun k => interpretToken_number_of_interpret k hitem hmode,
      Ends.restoring token hperforms⟩
  · have hblank := htop.reread [] m₀.input m₀.journal
    exact h.interpretToken_of_runs ((h.find_eq htop.within htop.intact token).trans hfound)
      htop.mode_eq ((hw.reread [] m₀.input m₀.journal).runs hblank hequipped hfound)

/-- The first token of straight-line code has its effect, and the interpreter goes on behind it. -/
theorem Running.interpret_cons {tokens : List (List UInt8)} (h : m₀.Running s returns 0 m)
    (htop : m₀.AtTopLevel) (hequipped : m₀.Equipped) (hreads : m.input.Reads (token :: tokens))
    (hw : m₀.Denotes token w) :
    ∃ input r, input.Reads tokens ∧
      ({ m₀ with token := token, input := input } : Machine).Ends returns (w.effect s) r ∧
      ∀ k, m.interpret (k + 1) =
        match r with
        | .error e m' => some (.error e m')
        | .ok _ m' => m'.interpret k := by
  obtain ⟨input, hparse, hreads'⟩ := Exec.parseWord_of_reads hreads
  obtain ⟨r, htoken, hends⟩ := ((h.reinput input).retoken token).interpretToken_straight
    (htop.reread token input m₀.journal) hequipped (hw.reread token input m₀.journal)
  refine ⟨input, r, hreads', hends, fun k => ?_⟩
  rw [interpret_succ k hparse (hreads.ne_nil token List.mem_cons_self), htoken]
  cases r <;> rfl

/-- The end of a run shows how an operation of a store has ended. -/
def Shows (r : EStateM.Result Fault Machine Unit) (r' : EStateM.Result Fault Store Unit) : Prop :=
  Related (fun m s => m.store = s) (fun _ _ => True) r r'

theorem Ends.shows {r : EStateM.Result Fault Store Unit} {r' : EStateM.Result Fault Machine Unit}
    (h : m₀.Ends returns r r') : Shows r' r := by
  rcases h with h | h
  · exact .ok trivial h.store_eq
  · exact .error h.store_eq

/-- Interpreting a text of straight-line code is, on the store, the effects of its words, one after
the other. -/
theorem Running.interpret_straightLine {tokens : List (List UInt8)} {ws : List Straight}
    (h : m₀.Running s returns 0 m) (htop : m₀.AtTopLevel) (hequipped : m₀.Equipped)
    (hreads : m.input.Reads tokens) (hws : List.Forall₂ m₀.Denotes tokens ws) :
    ∃ r, (∀ k, m.interpret (tokens.length + k) = some r) ∧ Shows r (ws.forM Straight.effect s) := by
  induction ws generalizing m₀ m s tokens with
  | nil =>
    cases hws
    exact ⟨_, fun k => interpret_of_nil _ (Exec.parseWord_of_reads_nil hreads) rfl,
      .ok trivial h.store_eq⟩
  | cons w ws ih =>
    obtain ⟨token, tokens, hw, hrestWords, rfl⟩ := List.forall₂_cons_right_iff.mp hws
    obtain ⟨input, r, hreads', hends, hrun⟩ := h.interpret_cons htop hequipped hreads hw
    have hcount (k : Nat) : (token :: tokens).length + k = tokens.length + k + 1 :=
      Nat.add_right_comm ..
    have heffect : (w :: ws).forM Straight.effect s =
        (w.effect >>= fun _ => ws.forM Straight.effect) s := rfl
    rw [heffect]
    cases hr : w.effect s with
    | error e s' =>
      rw [hr] at hends
      obtain ⟨m', rfl, hstore⟩ := hends.shows.of_eq_error rfl
      exact ⟨_, fun k => (congrArg m.interpret (hcount k)).trans (hrun _),
        bind_of_error hr ▸ .error hstore⟩
    | ok _ s' =>
      rw [hr] at hends
      cases hends with
      | ok h' =>
        have hinput := congrArg (·.input) h'.rest
        obtain ⟨r', hrest, hshows⟩ := ih h' (htop.reread token input m₀.journal) hequipped
          (by rw [hinput]; exact hreads')
          (hrestWords.imp fun _ _ hw => hw.reread token input m₀.journal)
        refine ⟨r', fun k => ?_, bind_of_ok hr ▸ hshows⟩
        rw [hcount, hrun]
        exact hrest k

end Interpret

/-! ### A definition -/

section Definition

variable {token name colon semicolon : List UInt8} {tokens : List (List UInt8)} {ws : List Straight}

/-- Running a definition with the code of a row of words is, on the store, their effects, one after
the other. -/
theorem AtTopLevel.interpretToken_straightLine (h : m.AtTopLevel) (hequipped : m.Equipped)
    {record : Record} (hfind : m.find token = .ok (some record))
    (hcode : m.memory.Code m.regs.here.toNat (UInt16.ofNat record.codeField).toNat
      (Runtime.nest.opcode :: (ws.flatMap Straight.code ++ [Runtime.exit.opcode])))
    (hws : ∀ w ∈ ws, w.Stands m m.regs.here.toNat) (hroom : 1 ≤ m.returnStack.room) :
    ∃ n r, (∀ k, m.interpretToken (n + k) token = some r) ∧
      ({ m with token := token } : Machine).Ends m.returnStack.items
        (ws.forM Straight.effect m.store) r := by
  have hbound := h.within.here_le_dataBase
  let blank : Machine := { m with token := [] }
  have hblank : blank.WithinRegions := { h.within with }
  have hcode' : blank.HasCode _ _ := hcode.congr hbound fun _ _ _ => rfl
  have hws' : ∀ w ∈ ws, w.Stands blank blank.regs.dataBase.toNat := fun w hw =>
    (hws w hw).congr (fun _ _ haction => haction) hbound (.refl _ _)
  obtain ⟨m₁, hexecute, hfollows⟩ := execute_of_simulates hblank hequipped h.ip_eq hcode' hroom
    fun _ => Simulates.straightLine hequipped hws' hcode'.tail.left
  obtain ⟨n, r, hn, hends⟩ := (hfollows 0).ends
  refine ⟨n, restoring token r, fun k => ?_, hends.restoring token⟩
  rw [interpretToken_of_execute h.mode_eq hfind hexecute, hn, Option.map_some]

/-- Defining a word with straight-line code and running it is, on the store, the effects of the
words of the code, one after the other. -/
theorem AtTopLevel.interpret_definition_straightLine (h : m.AtTopLevel) (hequipped : m.Equipped)
    (hcolon : m.item? colon = some (.immediate (.define .colon)))
    (hsemicolon : m.item? semicolon = some (.immediate (.define .semicolon)))
    (hreads : m.input.Reads (colon :: name :: (tokens ++ [semicolon, name])))
    (hlen : name.length ≤ Record.maxNameLength) (hws : List.Forall₂ m.Denotes tokens ws)
    (hcells : Record.cellsFor name.length + (ws.flatMap Straight.code).length < m.unused)
    (hitems : 2 ≤ m.dataStack.room) (hroom : 1 ≤ m.returnStack.room) :
    ∃ n r, (∀ k, m.interpret (n + k) = some r) ∧ Shows r (ws.forM Straight.effect m.store) := by
  have hparts : List.Forall₂ (fun token p => m.item? token = some p.item) tokens
      (ws.map Straight.part) :=
    List.forall₂_map_right_iff.mpr (hws.imp fun _ _ hw => hw.item?_eq)
  have hdraft : (ws.map Straight.part).forM (Part.draft (m.limits name)) .empty =
      .ok () ⟨ws.flatMap Straight.code, []⟩ :=
    Straight.adds ws _ (by simp only [limits, List.length_nil]; omega) (Nat.zero_le _)
  -- The definition is read.
  obtain ⟨input, m₁, hrun₁, hreads₁, hdef, hmode, hdefining⟩ :=
    h.interpret_definition hcolon hreads hlen hparts hsemicolon (by omega) hitems hdraft
      (by simp only [limits]; omega)
  have htop : m₁.AtTopLevel :=
    { within := hdef.grown.after
      intact := hdef.grown.intact h.intact
      ip_eq := (congrArg (·.regs.ip) hdef.rest).trans h.ip_eq
      mode_eq := hmode
      defining_eq := hdefining }
  have hinput₁ : m₁.input = input := congrArg (·.input) hdef.rest
  rw [← hinput₁] at hreads₁
  -- The token behind the definition runs it, as its words stand below the new record.
  obtain ⟨input₂, hreads₂, hrun₂⟩ := interpret_of_reads hreads₁
  have hstands :
      ∀ w ∈ ws, w.Stands { m₁ with token := name, input := input₂ } m₁.regs.here.toNat := by
    intro w hw
    obtain ⟨i, hi, rfl⟩ := List.getElem_of_mem hw
    have hdenotes := hws.get (by rwa [hws.length_eq]) hi
    exact (hdenotes.stands h).congr hdef.hasActions
      (Nat.le_trans (Nat.le_add_right _ _) hdef.grown.here_le) hdef.grown.agree
  have hroom₁ : 1 ≤ m₁.returnStack.room := by
    rw [hdef.returnRoom_eq]
    exact hroom
  obtain ⟨n, r, hn, hends⟩ := (htop.reread name input₂ m₁.journal).interpretToken_straightLine
    (hdef.hasActions.equipped hequipped) (hdef.find_eq h.intact) hdef.code_stands hstands hroom₁
  have hstore : ({ m₁ with token := name, input := input₂ } : Machine).store = m.store :=
    hdef.store_eq
  rw [hstore] at hends
  have hsteps (k : Nat) :
      tokens.length + 2 + (n + 1) + k = tokens.length + (n + k + 1) + 2 := by omega
  generalize ws.forM Straight.effect m.store = r₀ at hends
  rcases hends with @⟨_, _, m', h'⟩ | h'
  · have hinput₂ : m'.input = input₂ := congrArg (·.input) h'.rest
    rw [← hinput₂] at hreads₂
    have hend (k : Nat) := interpret_of_nil (n + k) (Exec.parseWord_of_reads_nil hreads₂) rfl
    refine ⟨tokens.length + 2 + (n + 1), _, fun k => Eq.trans ?_ (hend k), .ok trivial h'.store_eq⟩
    rw [hsteps, hrun₁, hrun₂, hn]
  · refine ⟨tokens.length + 2 + (n + 1), _, fun k => ?_, .error h'.store_eq⟩
    rw [hsteps, hrun₁, hrun₂, hn]

end Definition

/-! ### What a host sees -/

/-- What a host sees of a call: how it has ended, the data stack and the output. -/
def seen : HostResult Unit → Except HostError Unit × List Cell × List UInt8
  | .ok _ m => (.ok (), m.dataItems, m.output.bytes)
  | .error e m => (.error e, m.dataItems, m.output.bytes)

/-- What a host sees when an operation of a store ends. A sink that cannot be flushed is a fault. -/
def seenOf : EStateM.Result Fault Store Unit → Except HostError Unit × List Cell × List UInt8
  | .ok _ s =>
    (if s.sink.flushFails then .error (.fault .outputFailure) else .ok (), s.data.reverse,
      s.sink.bytes)
  | .error e s => (.error (.fault e), s.data.reverse, s.sink.bytes)

theorem Shows.seen_finishRun {r : EStateM.Result Fault Machine Unit}
    {r' : EStateM.Result Fault Store Unit} (h : Shows r r') : seen (finishRun r) = seenOf r' := by
  have hdata (m : Machine) : m.dataItems = m.store.data.reverse := (List.reverse_reverse _).symm
  have hsink (m : Machine) : m.store.sink = m.output := rfl
  rcases h with @⟨_, _, m, _, -, rfl⟩ | @⟨_, m, _, rfl⟩
  all_goals
    cases hflush : m.output.flushFails
    all_goals
      simp only [seenOf, finishRun, Exec.flush, Sink.flush, hsink, hflush, ← hdata]
      rfl

theorem evaluate_of_interpret {text : String} {steps : Nat} {r : EStateM.Result Fault Machine Unit}
    (hpoison : m.poison? = none) (hrun : (m.setText text).interpret steps = some r) :
    m.evaluate steps text = some (finishRun r) := by
  have hnone : (m.setText text).poison? = none := hpoison
  simp only [evaluate, hpoison, run, hnone, hrun, Option.map_some]

/-- **Straight-line code does the same interpreted and compiled.** At the top level and with room
for a definition, a text of straight-line code and a text that defines a word with this code and
then runs it both come to an end. A host that has two copies of the machine and evaluates one text
in each of them sees the same: the calls end in the same way, and leave the same data stack and the
same output. What it sees is what the effects of the words do to the store, one after the other. The
name of the new word may be any, be it one that the code uses. -/
theorem evaluate_definition_of_straight (h : m.AtTopLevel) (hequipped : m.Equipped)
    (hpoison : m.poison? = none) {colon name semicolon : List UInt8} {tokens : List (List UInt8)}
    {ws : List Straight} {text definition : String}
    (hcolon : m.item? colon = some (.immediate (.define .colon)))
    (hsemicolon : m.item? semicolon = some (.immediate (.define .semicolon)))
    (hws : List.Forall₂ m.Denotes tokens ws) (htext : (Source.ofText text).Reads tokens)
    (hdefinition : (Source.ofText definition).Reads
      (colon :: name :: (tokens ++ [semicolon, name])))
    (hlen : name.length ≤ Record.maxNameLength)
    (hcells : Record.cellsFor name.length + (ws.flatMap Straight.code).length < m.unused)
    (hitems : 2 ≤ m.dataStack.room) (hroom : 1 ≤ m.returnStack.room) :
    ∃ n r r', (∀ k, m.evaluate (n + k) text = some r) ∧
      (∀ k, m.evaluate (n + k) definition = some r') ∧ seen r' = seen r ∧
      seen r = seenOf (ws.forM Straight.effect m.store) := by
  have htop (source : String) : (m.setText source).AtTopLevel := h.reread m.token (.ofText source) _
  have hwords (source : String) : List.Forall₂ (m.setText source).Denotes tokens ws :=
    hws.imp fun _ _ hw => hw.reread m.token (.ofText source) _
  have hstart : (m.setText text).Running m.store m.returnStack.items 0 (m.setText text) := by
    have hrefl := Running.refl (htop text).within
    rw [(htop text).ip_eq] at hrefl
    exact hrefl
  obtain ⟨r, hrun, hshows⟩ :=
    hstart.interpret_straightLine (htop text) hequipped htext (hwords text)
  obtain ⟨n, r', hrun', hshows'⟩ :=
    (htop definition).interpret_definition_straightLine hequipped hcolon hsemicolon hdefinition
      hlen (hwords definition) hcells hitems hroom
  refine ⟨tokens.length + n, finishRun r, finishRun r', fun k => ?_, fun k => ?_, ?_,
    hshows.seen_finishRun⟩
  · exact evaluate_of_interpret hpoison (Nat.add_assoc tokens.length n k ▸ hrun (n + k))
  · have hsteps : tokens.length + n + k = n + (tokens.length + k) := by omega
    exact evaluate_of_interpret hpoison (hsteps ▸ hrun' (tokens.length + k))
  · exact hshows'.seen_finishRun.trans hshows.seen_finishRun.symm

/-- In a new machine, `2 dup + .` writes a four, and so does a word with this code, though it is
named after a word that the code uses. -/
theorem two_doubled_in_new_machine :
    ∃ m : Machine, ∃ n r r', create {} .empty {} .off = .ok m ∧
      (∀ k, m.evaluate (n + k) "2 dup + ." = some r) ∧
      (∀ k, m.evaluate (n + k) ": dup 2 dup + . ; dup" = some r') ∧ seen r' = seen r ∧
      seen r = (.ok (), [], Text.bytes "4 ") := by
  have hlayout : Config.layout {} = .ok ⟨32576, 32640, 32768⟩ := rfl
  obtain ⟨m, hcreate, hnew⟩ := create_of_room hlayout (by decide +kernel) .empty {} .off
  have hitem : ∀ token item, newItem? token = some item → m.item? token = some item :=
    fun token item h => (hnew.item?_eq token).trans h
  have hnative : ∀ (token : List UInt8) (op : Cell) (word : PlainWord),
      newItem? token = some (.reference op) → Vocabulary.actions[op.toNat]? = some word.action →
      CodeFields.standard.contains op = false → m.Denotes token (.native op word) := by
    intro token op word htoken haction hfield
    refine .native (hitem token _ htoken) ⟨?_, hfield⟩
    rw [← Array.getElem?_toList, hnew.table, haction]
  have hwords : List.Forall₂ m.Denotes (["2", "dup", "+", "."].map Text.bytes)
      [.number 2, .native 11 (.primitive (.stack .dup)), .native 32 (.primitive (.binary .add)),
        .native 104 (.primitive .dot)] := by
    refine .cons (.number (hitem _ _ ?_)) (.cons (hnative _ _ _ ?_ ?_ ?_)
      (.cons (hnative _ _ _ ?_ ?_ ?_) (.cons (hnative _ _ _ ?_ ?_ ?_) .nil)))
    all_goals decide +kernel
  have hpoison : m.poison? = none := by
    have hfault : m.regs.fault = false := by rw [hnew.regs]; rfl
    rw [poison?, hfault]
    rfl
  have hcells : 31000 < m.unused := by
    rw [hnew.unused_eq]
    decide +kernel
  have hroom : 64 ≤ m.dataStack.room := by
    rw [hnew.room_eq]
    decide +kernel
  have hreturn : 128 ≤ m.returnStack.room := by
    rw [hnew.returnRoom_eq]
    decide +kernel
  have hcolon : m.item? (Text.bytes ":") = some (.immediate (.define .colon)) :=
    hitem _ _ (by decide +kernel)
  have hsemicolon : m.item? (Text.bytes ";") = some (.immediate (.define .semicolon)) :=
    hitem _ _ (by decide +kernel)
  have htext : (Source.ofText "2 dup + .").Reads (["2", "dup", "+", "."].map Text.bytes) :=
    ⟨⟨_, rfl, by decide +kernel⟩, by decide +kernel⟩
  have hdefinition : (Source.ofText ": dup 2 dup + . ; dup").Reads
      (Text.bytes ":" :: Text.bytes "dup" ::
        (["2", "dup", "+", "."].map Text.bytes ++ [Text.bytes ";", Text.bytes "dup"])) :=
    ⟨⟨_, rfl, by decide +kernel⟩, by decide +kernel⟩
  obtain ⟨n, r, r', hrun, hrun', hsame, hseen⟩ := evaluate_definition_of_straight
    (hnew.atTopLevel m.input) (create_equipped hcreate) hpoison hcolon hsemicolon hwords htext
    hdefinition (by decide +kernel) (Nat.lt_of_le_of_lt (by decide +kernel) hcells)
    (Nat.le_trans (by decide) hroom) (Nat.le_trans (by decide) hreturn)
  refine ⟨m, n, r, r', hcreate, hrun, hrun', hsame, hseen.trans ?_⟩
  rw [hnew.store_eq]
  decide +kernel

end Machine

/-! ### Words that run inside of a definition -/

namespace Exec

variable {m₀ m : Machine} {name : List UInt8} {header : Cell} {code : List Cell}

/-- A definition cannot be completed while there is a cell on top of its entry. -/
theorem endDefinition_of_pushed {c : Cell}
    (h : m₀.WithDefinition name header code [c, ControlTag.definition.cell, m₀.regs.here] m)
    (hmode : m.regs.mode = .compile) (hdefining : m.regs.defining = m₀.regs.here)
    (hhere : m₀.regs.here ≠ ControlTag.definition.cell) :
    ∃ m', endDefinition m = .error .controlMismatch m' := by
  have hne : m.regs.defining ≠ 0 := by
    have hstart := h.grown.before.start_le_here
    rw [hdefining, ← Cell.toNat_ne_zero_iff]
    unfold dictionaryStart at hstart
    omega
  have hnesting : requireNesting (fun regs => regs.isCompiling && regs.defining ≠ 0) m = .ok () m :=
    observe_of_ok (demand_of_pos (by simp [Registers.isCompiling, hmode, hne]))
  have hpop := popControl_eq h.grown.after h.items .definition
  unfold endDefinition
  rw [bind_of_ok hnesting]
  -- The cell may look like the tag of a definition, but then the tag below it is taken for an
  -- address.
  split at hpop
  · rw [bind_of_ok hpop]
    have haddress : ¬ ControlTag.definition.cell = (m.replaceData 2 []).regs.defining := fun heq =>
      hhere (hdefining.symm.trans heq.symm)
    exact ⟨_, bind_of_error (observe_of_error (demand_of_neg haddress))⟩
  · exact ⟨_, bind_of_error hpop⟩

end Exec

namespace Machine

variable {m₀ m : Machine} {colon name token semicolon : List UInt8} {ts : List (List UInt8)}
  {action : Action}

/-- An immediate word that pushes a cell does so in whichever mode the machine is. -/
theorem interpretToken_push (h : m.WithinRegions) (hip : m.regs.ip = 0)
    (hitem : m.item? token = some (.immediate action))
    (hbounds : ∀ r, m.find token = .ok (some r) →
      dictionaryStart ≤ r.address ∧ r.body ≤ m.memory.size)
    (hexecute : action ≠ .execute) (hresume : action ≠ .resume)
    (hpush : ∀ m, ∃ c, action.step m = Exec.push c m) (hfits : ∀ c, m.dataStack.Fits 0 [c]) :
    ∃ c xt, ∀ steps, m.interpretToken steps token = some (.ok ()
      (({ m with token := token, regs := { m.regs with w := xt } } : Machine).replaceData 0
        [c])) := by
  obtain ⟨xt, hrun⟩ := interpretToken_immediate h hitem hbounds hexecute hresume
  let blank : Machine := { m with token := [], regs := { m.regs with w := xt } }
  obtain ⟨c, hc⟩ := hpush blank
  have hpushed : Exec.push c blank = .ok () (blank.replaceData 0 [c]) :=
    Exec.onData_of_ok (h.dataStack.push_of_fits (hfits c))
  have hzero : (blank.replaceData 0 [c]).regs.ip = 0 := hip
  refine ⟨c, xt, fun steps => ?_⟩
  rw [hrun, hc, hpushed]
  exact congrArg (Option.map (restoring token)) (runThread_of_eq_zero steps hzero)

/-- A word that pushes a cell and runs inside of an open definition puts it on top of the
entries. -/
theorem Drafting.interpretToken_push {d : Draft} (h : m₀.Drafting name d m) (hintact : m₀.Intact)
    (hip : m₀.regs.ip = 0) (hitem : m₀.item? token = some (.immediate action))
    (hexecute : action ≠ .execute) (hresume : action ≠ .resume)
    (hpush : ∀ m, ∃ c, action.step m = Exec.push c m)
    (hroom : (d.entries (m₀.codeStart name)).length + 3 ≤ m₀.dataStack.room) :
    ∃ c m', (∀ steps, m.interpretToken steps token = some (.ok () m')) ∧
      ({ m₀ with token := token } : Machine).WithDefinition name
        (Record.makeHeader Record.hiddenBit name.length) d.code
        (c :: (d.entries (m₀.codeStart name) ++ [ControlTag.definition.cell, m₀.regs.here])) m' ∧
      m'.regs.mode = .compile ∧ m'.regs.defining = m₀.regs.here := by
  have hfits (c : Cell) : m.dataStack.Fits 0 [c] := (h.fits_iff (Nat.zero_le _)).mpr (by
    rw [List.length_append, Nat.zero_add]
    exact hroom)
  obtain ⟨c, xt, hrun⟩ := Machine.interpretToken_push h.grown.after
    ((congrArg (·.regs.ip) h.rest).trans hip) ((h.item?_eq hintact token).trans hitem)
    ((h.grown.intact hintact).bounds_of_find_le_size h.grown.after) hexecute hresume hpush hfits
  exact ⟨c, _, hrun, (h.retoken token xt).replaceData (Nat.zero_le _) (hfits c), h.mode_eq,
    h.defining_eq⟩

/-- An immediate word that pushes a cell makes a definition fail: it runs while the definition is
open, and the semicolon does not find the entry of the definition on top of the stack. -/
theorem AtTopLevel.interpret_definition_of_immediate (h : m.AtTopLevel)
    (hcolon : m.item? colon = some (.immediate (.define .colon)))
    (hsemicolon : m.item? semicolon = some (.immediate (.define .semicolon)))
    (hreads : m.input.Reads (colon :: name :: token :: semicolon :: ts))
    (hlen : name.length ≤ Record.maxNameLength) (hitem : m.item? token = some (.immediate action))
    (hexecute : action ≠ .execute) (hresume : action ≠ .resume)
    (hpush : ∀ m, ∃ c, action.step m = Exec.push c m)
    (hhere : m.regs.here ≠ ControlTag.definition.cell)
    (hcells : Record.cellsFor name.length ≤ m.unused) (hitems : 3 ≤ m.dataStack.room)
    (steps : Nat) :
    ∃ m', m.interpret (steps + 3) = some (.error .controlMismatch m') := by
  obtain ⟨input₁, m₁, hrun₁, hreads₁, h₁⟩ := interpret_colon h.within
    (h.intact.bounds_of_find_le_size h.within) h.ip_eq h.mode_eq h.defining_eq hcolon hreads hlen
    hcells (by omega)
  have hinput₁ : m₁.input = input₁ := congrArg (·.input) h₁.rest
  rw [← hinput₁] at hreads₁
  obtain ⟨input₂, hreads₂, hrun₂⟩ := interpret_of_reads hreads₁
  obtain ⟨c, m₂, htoken, h₂, hmode, hdefining⟩ :=
    (h₁.next token input₂).interpretToken_push h.intact h.ip_eq hitem hexecute hresume hpush hitems
  have hinput₂ : m₂.input = input₂ := congrArg (·.input) h₂.rest
  rw [← hinput₂] at hreads₂
  obtain ⟨input₃, -, hrun₃⟩ := interpret_of_reads hreads₂
  have h₃ := h₂.reread semicolon input₃ m.regs.w m₂.regs.w
  obtain ⟨xt, hsemicolon'⟩ := interpretToken_immediate h₃.grown.after
    ((h₃.item?_of_hidden h.intact semicolon).trans hsemicolon)
    ((h₃.grown.intact h.intact).bounds_of_find_le_size h₃.grown.after) (by simp) (by simp)
  obtain ⟨m', hend⟩ :=
    Exec.endDefinition_of_pushed (h₂.reread [] input₃ m.regs.w xt) hmode hdefining hhere
  have hstep : (Action.define .semicolon).step
      { m₂ with token := [], input := input₃, regs := { m₂.regs with w := xt } } =
        .error .controlMismatch m' := hend
  refine ⟨m'.restoreToken semicolon, ?_⟩
  rw [hrun₁, hrun₂, htoken]
  refine (hrun₃ steps).trans ?_
  rw [hsemicolon', hstep]

/-- At the top level, a text of one immediate word that pushes a cell does so. -/
theorem AtTopLevel.interpret_of_immediate (h : m.AtTopLevel) (hreads : m.input.Reads [token])
    (hitem : m.item? token = some (.immediate action)) (hexecute : action ≠ .execute)
    (hresume : action ≠ .resume) (hpush : ∀ m, ∃ c, action.step m = Exec.push c m)
    (hroom : 0 < m.dataStack.room) (steps : Nat) :
    ∃ m', m.interpret (steps + 1) = some (.ok () m') ∧ m'.output = m.output := by
  obtain ⟨input, hreads', hrun⟩ := interpret_of_reads hreads
  have h₁ := h.reread token input m.journal
  have hfits (c : Cell) : m.dataStack.Fits 0 [c] := by
    have hlimit := h.within.dataStack.room_eq
    simp only [Stack.Fits, List.length_singleton]
    omega
  obtain ⟨c, xt, htoken⟩ := interpretToken_push h₁.within h.ip_eq hitem
    (h₁.intact.bounds_of_find_le_size h₁.within) hexecute hresume hpush hfits
  rw [hrun, htoken]
  exact ⟨_, interpret_of_nil steps (Exec.parseWord_of_reads_nil hreads') rfl, rfl⟩

/-- The name of a new record that is immediate denotes the action in its code field. -/
theorem Grown.item?_of_immediate {m' : Machine} {code : Cell}
    (g : m.Grown m' name (Record.makeHeader Record.immediateBit name.length) code)
    (hintact : m.Intact) (haction : m'.table[code.toNat]? = some action) :
    m'.item? name = some (.immediate action) := by
  let r : Record :=
    ⟨m.regs.here.toNat, m.regs.latest, Record.makeHeader Record.immediateBit name.length⟩
  have hfind : m'.find name = .ok (some r) := by
    have hvisible : (Record.immediateBit &&& Record.hiddenBit != 0) = false := by decide
    rw [g.find_eq hintact, Record.isHidden_makeHeader, hvisible]
    simp [sameName, r]
  have himmediate : r.isImmediate = true := (Record.isImmediate_makeHeader ..).trans (by decide)
  have hcode : m'.memory.get r.codeField = .ok code := Memory.get_of_some g.codeField
  simp only [item?, hfind, hcode, himmediate, haction]
  rfl

/-- Other names denote what they did before. -/
theorem Grown.item?_of_ne {m' : Machine} {header code : Cell} (g : m.Grown m' name header code)
    (hintact : m.Intact) (henlarged : m.Enlarged m') (htable : m'.table = m.table)
    (hname : sameName name token = false) : m'.item? token = m.item? token := by
  refine item?_congr g.before hintact ?_ g.agree htable (by rw [henlarged.regs])
  rw [g.find_eq hintact, hname, Bool.and_false]
  rfl

/-- Words of straight-line code must not be immediate. Here a word for cells is created in a new
machine and made immediate. Its name is interpreted without a fault; but in a definition it runs at
once, and its address is where the semicolon looks for the entry of the definition. -/
theorem definition_refused_with_immediate_word :
    ∃ m m₁ m₂ : Machine, ∃ record, create {} .empty {} .off = .ok m ∧
      Exec.createRecord (Text.bytes "foo") Runtime.address.opcode 0 m = .ok record m₁ ∧
      Exec.setImmediate m₁ = .ok () m₂ ∧ m₂.AtTopLevel ∧ m₂.poison? = none ∧ 31000 < m₂.unused ∧
      64 ≤ m₂.dataStack.room ∧ 128 ≤ m₂.returnStack.room ∧
      (∃ m', m₂.evaluate 1 "foo" = some (.ok () m')) ∧
      ∃ m', m₂.evaluate 3 ": x foo ; x" = some (.error (.fault .controlMismatch) m') := by
  have hlayout : Config.layout {} = .ok ⟨32576, 32640, 32768⟩ := rfl
  obtain ⟨m, hcreate, hnew⟩ := create_of_room hlayout (by decide +kernel) .empty {} .off
  have hlen : (Text.bytes "foo").length ≤ Record.maxNameLength := by decide +kernel
  have hunused : 31100 < m.unused := by
    rw [hnew.unused_eq]
    decide +kernel
  obtain ⟨r, m₁, hrecord, hgrown₁, henlarged₁, htable₁, hhere₁⟩ :=
    Exec.createRecord_grown hnew.within Runtime.address.opcode 0 (by decide +kernel : _ ≠ []) hlen
      (Nat.le_trans (by decide +kernel) (Nat.le_of_lt hunused))
  obtain ⟨m₂, hset, hgrown, henlarged₂, htable₂, hhere₂⟩ := Exec.setImmediate_grown hgrown₁ hlen
  have henlarged := henlarged₁.trans henlarged₂
  have htable := htable₂.trans htable₁
  have hregs := henlarged.regs
  have hhere : m₂.regs.here.toNat = 782 := by
    rw [hhere₂, hhere₁, hnew.here]
    decide +kernel
  have htop : m₂.AtTopLevel :=
    { within := hgrown.after
      intact := hgrown.intact hnew.intact
      ip_eq := by rw [hregs, hnew.regs]; rfl
      mode_eq := by rw [hregs, hnew.regs]; rfl
      defining_eq := by rw [hregs, hnew.regs]; rfl }
  have hfoo : m₂.item? (Text.bytes "foo") = some (.immediate (.runtime .address)) :=
    hgrown.item?_of_immediate hnew.intact (htable ▸ create_equipped hcreate .address)
  have hold : ∀ token item, sameName (Text.bytes "foo") token = false → newItem? token = some item →
      m₂.item? token = some item := fun token item hname hitem =>
    (hgrown.item?_of_ne hnew.intact henlarged htable hname).trans
      ((hnew.item?_eq token).trans hitem)
  have hcells : 31000 < m₂.unused := by
    have hbase : m₂.regs.dataBase = 32576 := by rw [hregs, hnew.regs]; rfl
    rw [unused, hhere, hbase]
    decide
  have hroom : 64 ≤ m₂.dataStack.room := by
    rw [henlarged.dataRoom_eq, hnew.room_eq]
    decide +kernel
  have hreturn : 128 ≤ m₂.returnStack.room := by
    rw [henlarged.returnRoom_eq, hnew.returnRoom_eq]
    decide +kernel
  have hpoison : m₂.poison? = none := by
    have hfault : m₂.regs.fault = false := by rw [hregs, hnew.regs]; rfl
    rw [poison?, hfault]
    rfl
  have hready (text : String) : (m₂.setText text).AtTopLevel :=
    htop.reread m₂.token (.ofText text) _
  have hpush : ∀ m, ∃ c, (Action.runtime .address).step m = Exec.push c m := fun m => ⟨_, rfl⟩
  obtain ⟨m', hrun, houtput⟩ := (hready "foo").interpret_of_immediate
    ⟨⟨_, rfl, by decide +kernel⟩, by decide +kernel⟩ hfoo (by simp) (by simp) hpush
    (Nat.lt_of_lt_of_le (by decide) hroom) 0
  have hdefinition : (Source.ofText ": x foo ; x").Reads
      (Text.bytes ":" :: Text.bytes "x" :: Text.bytes "foo" :: Text.bytes ";" ::
        [Text.bytes "x"]) :=
    ⟨⟨_, rfl, by decide +kernel⟩, by decide +kernel⟩
  have hne : m₂.regs.here ≠ ControlTag.definition.cell := fun heq => by
    rw [heq] at hhere
    revert hhere
    decide
  obtain ⟨m'', hrun'⟩ := (hready ": x foo ; x").interpret_definition_of_immediate
    (hold _ _ (by decide +kernel) (by decide +kernel))
    (hold _ _ (by decide +kernel) (by decide +kernel))
    hdefinition (by decide +kernel) hfoo (by simp) (by simp) hpush hne
    (Nat.le_trans (by decide +kernel) (Nat.le_of_lt hcells)) (Nat.le_trans (by decide) hroom) 0
  refine ⟨m, m₁, m₂, r, hcreate, hrecord, hset, htop, hpoison, hcells, hroom, hreturn, ?_, ?_⟩
  · have hsink : m'.output = {} := houtput.trans (henlarged.output.trans hnew.output)
    rw [evaluate_of_interpret hpoison hrun, finishRun, Exec.flush, hsink]
    exact ⟨_, rfl⟩
  · rw [evaluate_of_interpret hpoison hrun', finishRun]
    split <;> exact ⟨_, rfl⟩

end Machine

end CellForth
