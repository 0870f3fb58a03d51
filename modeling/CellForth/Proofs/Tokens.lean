import CellForth.Proofs.Actions
import CellForth.Proofs.Boot

/-!
# Tokens and what they denote

The tokens of a text are the pieces between its white space, `Scan.tokens`; how much white space
there is does not matter. A source that reads a text hands them out one by one
(`Exec.parseWord_of_reads`), so that statements about the interpreter can speak of rows of tokens,
`Source.Reads`, rather than of bytes.

What the interpreter does with a token depends on three things that a token can denote, the
constructors of `Item`: a number, a word that is compiled by a reference to it, or a native word
that runs even while compiling. `Machine.item?` looks this up. The last lemmas say what
interpreting a token of each kind amounts to.
-/

namespace CellForth

/-! ### Tokens of a text -/

namespace Scan

/-- The tokens of a text: its longest rows of bytes that are not white space, in order. -/
def tokens (bs : List UInt8) : List (List UInt8) :=
  (bs.splitOnP isSpace).filter (· ≠ [])

@[simp] theorem tokens_nil : tokens [] = [] := rfl

theorem tokens_cons_of_space {b : UInt8} (hb : isSpace b = true) (bs : List UInt8) :
    tokens (b :: bs) = tokens bs := by
  simp [tokens, List.splitOnP_cons_eq_if_splitOnPPrepend, hb]

/-- Behind the first bytes of a token, the scan completes it. -/
theorem word_of_splitOnPPrepend {bs seen token : List UInt8} {pieces : List (List UInt8)}
    (hseen : seen ≠ []) (hsplit : bs.splitOnPPrepend isSpace seen = token :: pieces)
    (hlength : token.length ≤ maxTokenLength) :
    ∃ rest, word seen seen.length (bs.map .byte) = ⟨token, rest.map .byte, none⟩ ∧
      tokens rest = pieces.filter (· ≠ []) := by
  have hpos : seen.length ≠ 0 := fun h => hseen (List.length_eq_zero_iff.mp h)
  induction bs generalizing seen with
  | nil =>
    obtain ⟨rfl, rfl⟩ := List.cons.inj hsplit
    exact ⟨[], rfl, rfl⟩
  | cons b bs ih =>
    cases hb : isSpace b with
    | true =>
      rw [List.splitOnPPrepend_cons_pos hb] at hsplit
      obtain ⟨rfl, rfl⟩ := List.cons.inj hsplit
      exact ⟨bs, by simp [word, hb, hpos], rfl⟩
    | false =>
      rw [List.splitOnPPrepend_cons_neg hb] at hsplit
      have hlt : seen.length < maxTokenLength := by
        rw [List.splitOnPPrepend_eq_modifyHead] at hsplit
        obtain ⟨first, others, hfirst⟩ :=
          List.exists_cons_of_ne_nil (List.splitOnP_ne_nil isSpace bs)
        rw [hfirst, List.modifyHead_cons] at hsplit
        obtain ⟨rfl, -⟩ := List.cons.inj hsplit
        simp only [List.length_append, List.length_reverse, List.length_cons] at hlength
        omega
      obtain ⟨rest, hword, hrest⟩ := ih (List.cons_ne_nil b seen) hsplit (by simp)
      refine ⟨rest, ?_, hrest⟩
      rw [List.length_cons] at hword
      simp [word, hb, hlt, hword]

/-- At the end of its tokens, a text is used up. -/
theorem word_of_tokens_nil {bs : List UInt8} (htokens : tokens bs = []) :
    word [] 0 (bs.map .byte) = ⟨[], [], none⟩ := by
  induction bs with
  | nil => rfl
  | cons b bs ih =>
    cases hb : isSpace b with
    | true =>
      rw [tokens_cons_of_space hb] at htokens
      simpa [word, hb] using ih htokens
    | false =>
      simp only [tokens, List.splitOnP_cons_eq_if_splitOnPPrepend, hb, Bool.false_eq_true, if_false,
        List.splitOnPPrepend_eq_modifyHead] at htokens
      obtain ⟨first, others, hfirst⟩ := List.exists_cons_of_ne_nil (List.splitOnP_ne_nil isSpace bs)
      rw [hfirst] at htokens
      simp at htokens

/-- The scan returns the first token of a text, and leaves the others. -/
theorem word_of_tokens_cons {bs token : List UInt8} {ts : List (List UInt8)}
    (htokens : tokens bs = token :: ts) (hlength : token.length ≤ maxTokenLength) :
    ∃ rest, word [] 0 (bs.map .byte) = ⟨token, rest.map .byte, none⟩ ∧ tokens rest = ts := by
  induction bs with
  | nil => cases htokens
  | cons b bs ih =>
    cases hb : isSpace b with
    | true =>
      rw [tokens_cons_of_space hb] at htokens
      simpa [word, hb] using ih htokens
    | false =>
      obtain ⟨first, others, hfirst⟩ := List.exists_cons_of_ne_nil (List.splitOnP_ne_nil isSpace bs)
      have hsplit : bs.splitOnPPrepend isSpace [b] = (b :: first) :: others := by
        rw [List.splitOnPPrepend_eq_modifyHead, hfirst]
        rfl
      simp only [tokens, List.splitOnP_cons_eq_if_splitOnPPrepend, hb, Bool.false_eq_true, if_false,
        hsplit] at htokens
      have hcons : (b :: first) :: others.filter (· ≠ []) = token :: ts := by simpa using htokens
      obtain ⟨rfl, rfl⟩ := List.cons.inj hcons
      obtain ⟨rest, hword, hrest⟩ :=
        word_of_splitOnPPrepend (List.cons_ne_nil b []) hsplit hlength
      exact ⟨rest, by simpa [word, hb, maxTokenLength] using hword, hrest⟩

end Scan

/-- The source reads a text with the given tokens, none of which is too long. -/
def Source.Reads (s : Source) (ts : List (List UInt8)) : Prop :=
  (∃ bs, s = Source.ofBytes bs ∧ Scan.tokens bs = ts) ∧ ∀ t ∈ ts, t.length ≤ maxTokenLength

/-- No token is empty. -/
theorem Source.Reads.ne_nil {s : Source} {ts : List (List UInt8)} (h : s.Reads ts) :
    ∀ t ∈ ts, t ≠ [] := by
  obtain ⟨⟨bs, -, rfl⟩, -⟩ := h
  intro t ht
  simpa using List.of_mem_filter ht

namespace Exec

variable {m : Machine}

/-- Where tokens are left, the next one is read. -/
theorem parseWord_of_reads {token : List UInt8} {ts : List (List UInt8)}
    (h : m.input.Reads (token :: ts)) :
    ∃ input, parseWord m = .ok () { m with token := token, input := input } ∧ input.Reads ts := by
  obtain ⟨⟨bs, hinput, htokens⟩, hlength⟩ := h
  rw [List.forall_mem_cons] at hlength
  obtain ⟨rest, hword, hrest⟩ := Scan.word_of_tokens_cons htokens hlength.1
  refine ⟨Source.ofBytes rest, ?_, ⟨rest, rfl, hrest⟩, hlength.2⟩
  simp [parseWord, hinput, Source.ofBytes, hword]

/-- Where no tokens are left, the end of input is met. -/
theorem parseWord_of_reads_nil (h : m.input.Reads []) :
    parseWord m = .ok () { m with token := [], input := ⟨[]⟩ } := by
  obtain ⟨⟨bs, hinput, htokens⟩, -⟩ := h
  simp [parseWord, hinput, Source.ofBytes, Scan.word_of_tokens_nil htokens]

end Exec

/-! ### What a token denotes -/

/-- What a token can stand for. -/
inductive Item where
  /-- A number. -/
  | number (c : Cell)
  /-- A word that is compiled, and the cell that refers to it. -/
  | reference (c : Cell)
  /-- A word that runs even while compiling, and the action in its code field. -/
  | immediate (action : Action)
  deriving DecidableEq

namespace Machine

/-- What a token denotes: a visible word of that name, or else a number in the current radix. -/
def item? (m : Machine) (token : List UInt8) : Option Item :=
  match m.find token with
  | .error _ => none
  | .ok none => (Numeral.read? token m.regs.base).map .number
  | .ok (some r) =>
    match m.memory.get r.codeField with
    | .error _ => none
    | .ok code =>
      if r.isImmediate then m.table[code.toNat]?.map .immediate
      else
        some (.reference
          (if CodeFields.standard.contains code then UInt16.ofNat r.codeField else code))

section Item

variable {m m' : Machine} {token : List UInt8}

theorem find_of_item?_number {c : Cell} (h : m.item? token = some (.number c)) :
    m.find token = .ok none ∧ Numeral.read? token m.regs.base = some c := by
  unfold item? at h
  split at h
  · cases h
  · rename_i hfind
    simpa [hfind] using h
  · split at h
    · cases h
    · split at h
      · simp at h
      · cases h

theorem find_of_item?_reference {c : Cell} (h : m.item? token = some (.reference c)) :
    ∃ r code, m.find token = .ok (some r) ∧ r.isImmediate = false ∧
      m.memory.get r.codeField = .ok code ∧
      c = if CodeFields.standard.contains code then UInt16.ofNat r.codeField else code := by
  unfold item? at h
  split at h
  · cases h
  · simp at h
  · rename_i r hfind
    split at h
    · cases h
    · rename_i code hcode
      split at h
      · simp at h
      · rename_i himmediate
        cases h
        exact ⟨r, code, hfind, by simpa using himmediate, hcode, rfl⟩

theorem find_of_item?_immediate {action : Action}
    (h : m.item? token = some (.immediate action)) :
    ∃ r code, m.find token = .ok (some r) ∧ r.isImmediate = true ∧
      m.memory.get r.codeField = .ok code ∧ m.table[code.toNat]? = some action := by
  unfold item? at h
  split at h
  · cases h
  · simp at h
  · rename_i r hfind
    split at h
    · cases h
    · rename_i code hcode
      split at h
      · rename_i himmediate
        obtain ⟨a, ha, heq⟩ := Option.map_eq_some_iff.mp h
        cases heq
        exact ⟨r, code, hfind, himmediate, hcode, ha⟩
      · cases h

/-- What a token denotes depends on look-up, on the dictionary, on the table and on the radix. -/
theorem item?_congr (h : m.WithinRegions) (hintact : m.Intact)
    (hfind : m'.find token = m.find token)
    (hagree : Memory.AgreeBelow m.regs.here.toNat m'.memory m.memory)
    (htable : m'.table = m.table) (hbase : m'.regs.base = m.regs.base) :
    m'.item? token = m.item? token := by
  unfold item?
  rw [hfind, htable, hbase]
  cases hm : m.find token with
  | error e => rfl
  | ok found =>
    cases found with
    | none => rfl
    | some r =>
      have hbody := (hintact.bounds_of_find h hm).2
      have hcode : m'.memory.get r.codeField = m.memory.get r.codeField :=
        hagree.get (Nat.lt_of_lt_of_le (Nat.lt_succ_self _) hbody)
      simp only [hcode]

end Item

/-! ### Tokens of a new machine -/

/-- The opcode of a built-in word leads to its action. -/
theorem table_of_mem_numbered {config : Config} {layout : Layout} {input : Source} {output : Sink}
    {m : Machine} (hnew : m.New config layout input output) {word : Builtin} {op : Nat}
    (hword : (word, op) ∈ Vocabulary.numbered) :
    Vocabulary.runtimes.length ≤ op ∧ op < dictionaryStart ∧ m.table[op]? = some word.action := by
  obtain ⟨hle, hget⟩ := List.mk_mem_zipIdx_iff_le_and_getElem?_sub.mp (List.mem_reverse.mp hword)
  have htable : m.table[op]? = some word.action := by
    rw [← Array.getElem?_toList, hnew.table, Vocabulary.actions,
      List.getElem?_append_right (by rw [List.length_map]; exact hle), List.length_map,
      List.getElem?_map, hget]
    rfl
  obtain ⟨hlt, -⟩ := Array.getElem?_eq_some_iff.mp htable
  exact ⟨hle, Nat.lt_of_lt_of_le hlt hnew.within.table_le, htable⟩

/-- What a token denotes in a new machine: the newest built-in word of that name, or else a number
in radix ten. -/
def newItem? (token : List UInt8) : Option Item :=
  match Vocabulary.numbered.find? fun w => sameName (Text.bytes w.1.name) token with
  | some (word, op) =>
    some (if word.immediate then .immediate word.action else .reference (UInt16.ofNat op))
  | none => (Numeral.read? token 10).map .number

theorem New.item?_eq {config : Config} {layout : Layout} {input : Source} {output : Sink}
    {m : Machine} (hnew : m.New config layout input output) (token : List UInt8) :
    m.item? token = newItem? token := by
  have hword := hnew.understands token
  unfold newItem?
  cases hfind : Vocabulary.numbered.find? fun w => sameName (Text.bytes w.1.name) token with
  | none =>
    have hbase : m.regs.base = 10 := by
      rw [hnew.regs]
      rfl
    rw [hfind] at hword
    simp only [item?, hword, hbase]
  | some w =>
    obtain ⟨word, op⟩ := w
    obtain ⟨hle, hlt, htable⟩ := table_of_mem_numbered hnew (List.mem_of_find?_eq_some hfind)
    rw [hfind] at hword
    obtain ⟨r, hr, himmediate, hcode⟩ := hword
    have hop : (UInt16.ofNat op).toNat = op :=
      Cell.toNat_ofNat (by unfold dictionaryStart at hlt; omega)
    -- The opcodes that belong in code fields only are among those of the runtime actions.
    have hne : ∀ c : Cell, c.toNat < 3 → UInt16.ofNat op ≠ c := fun c hc heq => by
      rw [← heq, hop] at hc
      exact absurd (Nat.le_trans hle (Nat.le_of_lt hc)) (by decide)
    have hcontains : CodeFields.standard.contains (UInt16.ofNat op) = false := by
      simp [CodeFields.contains, CodeFields.standard, hne Runtime.nest.opcode (by decide),
        hne Runtime.address.opcode (by decide), hne Runtime.constant.opcode (by decide)]
    simp only [item?, hr, Memory.get_of_some hcode, himmediate, hop, htable, hcontains]
    cases word.immediate <;> rfl

/-! ### Interpreting a token -/

/-- The result of a token's interpretation, with the token put back in place. -/
def restoring (token : List UInt8) :
    EStateM.Result Fault Machine Unit → EStateM.Result Fault Machine Unit
  | .ok _ m => .ok () (m.restoreToken token)
  | .error e m => .error e (m.restoreToken token)

theorem regs_restoreToken (token : List UInt8) (m : Machine) :
    (m.restoreToken token).regs = m.regs := by
  unfold restoreToken
  split <;> rfl

theorem interpretToken_eq (steps : Nat) (token : List UInt8) (m : Machine) :
    m.interpretToken steps token =
      (continueWith steps (Exec.enterToken token { m with token := [] })).map
        (restoring token) := by
  unfold interpretToken
  cases continueWith steps (Exec.enterToken token { m with token := [] }) with
  | none => rfl
  | some r => cases r <;> rfl

/-- A token that has been interpreted without a fault was entered, and what it entered has ended. -/
theorem exists_of_interpretToken_ok {steps : Nat} {token : List UInt8} {m m' : Machine} {u : Unit}
    (h : m.interpretToken steps token = some (.ok u m')) :
    ∃ next m₁ m₂, Exec.enterToken token { m with token := [] } = .ok next m₁ ∧
      continueWith steps (.ok next m₁) = some (.ok () m₂) ∧ m' = m₂.restoreToken token := by
  rw [interpretToken_eq] at h
  obtain ⟨r, hcontinue, hrestored⟩ := Option.map_eq_some_iff.mp h
  cases r with
  | error e m₂ => cases hrestored
  | ok _ m₂ =>
    cases hrestored
    cases henter : Exec.enterToken token { m with token := [] } with
    | error e m₁ =>
      rw [henter] at hcontinue
      cases hcontinue
    | ok next m₁ =>
      rw [henter] at hcontinue
      exact ⟨next, m₁, m₂, rfl, hcontinue, rfl⟩

section Interpret

variable {m : Machine} {token : List UInt8} (steps : Nat)

/-- A number is pushed or compiled. -/
theorem interpretToken_of_number {c : Cell} (h : m.item? token = some (.number c)) :
    m.interpretToken steps token =
      some (restoring token (Exec.enterNumber c { m with token := [] })) := by
  obtain ⟨hfind, hread⟩ := find_of_item?_number h
  have henter : Exec.enterToken token { m with token := [] } =
      (Exec.enterNumber c >>= fun _ => pure Continuation.done) { m with token := [] } := by
    unfold Exec.enterToken
    refine Eq.trans (bind_of_ok (observe_of_ok hfind)) ?_
    simp only [Exec.bind_reg, hread]
  rw [interpretToken_eq, henter]
  cases hnumber : Exec.enterNumber c { m with token := [] } with
  | ok _ m' =>
    rw [bind_of_ok hnumber]
    rfl
  | error e m' =>
    rw [bind_of_error hnumber]
    rfl

/-- While compiling, a number is compiled. -/
theorem interpretToken_number {c : Cell} (h : m.item? token = some (.number c))
    (hmode : m.regs.mode = .compile) :
    m.interpretToken steps token =
      some (restoring token (Exec.compileInteger c { m with token := [] })) := by
  rw [interpretToken_of_number steps h]
  simp only [Exec.enterNumber, Exec.bind_reg, Registers.isCompiling, hmode]
  rfl

/-- While words are run, a number is pushed. -/
theorem interpretToken_number_of_interpret {c : Cell} (h : m.item? token = some (.number c))
    (hmode : m.regs.mode = .interpret) :
    m.interpretToken steps token = some (restoring token (Exec.push c { m with token := [] })) := by
  rw [interpretToken_of_number steps h]
  simp only [Exec.enterNumber, Exec.bind_reg, Registers.isCompiling, hmode]
  rfl

/-- While compiling, a word that is not immediate is compiled. -/
theorem interpretToken_reference {c : Cell} (h : m.item? token = some (.reference c))
    (hmode : m.regs.mode = .compile) :
    m.interpretToken steps token =
      some (restoring token (Exec.compileCell c { m with token := [] })) := by
  obtain ⟨r, code, hfind, himmediate, hcode, rfl⟩ := find_of_item?_reference h
  have hreference : Exec.compileReference r { m with token := [] } =
      Exec.compileCell
        (if CodeFields.standard.contains code then UInt16.ofNat r.codeField else code)
        { m with token := [] } := by
    unfold Exec.compileReference
    refine Eq.trans (bind_of_ok (observe_of_ok hcode)) ?_
    split <;> rfl
  have henter : Exec.enterToken token { m with token := [] } =
      (Exec.compileReference r >>= fun _ => pure Continuation.done) { m with token := [] } := by
    unfold Exec.enterToken
    refine Eq.trans (bind_of_ok (observe_of_ok hfind)) ?_
    simp only [Exec.bind_reg, Registers.isCompiling, hmode, himmediate]
    rfl
  rw [interpretToken_eq, henter, ← hreference]
  cases hcompile : Exec.compileReference r { m with token := [] } with
  | ok _ m' =>
    rw [bind_of_ok hcompile]
    rfl
  | error e m' =>
    rw [bind_of_error hcompile]
    rfl

/-- A token for which look-up fails is refused. -/
theorem interpretToken_of_error {e : Fault} (h : m.find token = .error e) :
    m.interpretToken steps token = some (.error e { m with token := token }) := by
  have henter : Exec.enterToken token { m with token := [] } = .error e { m with token := [] } :=
    bind_of_error (observe_of_error h)
  rw [interpretToken_eq, henter]
  rfl

/-- A word that is not to be compiled runs, and then the threaded code that it has entered, if
any. -/
theorem interpretToken_of_run {r : Record} (hfind : m.find token = .ok (some r))
    (hrun : (m.regs.isCompiling && !r.isImmediate) = false) :
    m.interpretToken steps token =
      match Exec.execute (UInt16.ofNat r.codeField) { m with token := [] } with
      | .ok _ m' => (m'.runThread steps).map (restoring token)
      | .error e m' => some (.error e (m'.restoreToken token)) := by
  have henter : Exec.enterToken token { m with token := [] } =
      (Exec.execute (UInt16.ofNat r.codeField) >>= fun _ => pure Continuation.resume)
        { m with token := [] } := by
    unfold Exec.enterToken
    refine Eq.trans (bind_of_ok (observe_of_ok hfind)) ?_
    simp only [Exec.bind_reg, hrun]
    rfl
  rw [interpretToken_eq, henter]
  cases hexecute : Exec.execute (UInt16.ofNat r.codeField) { m with token := [] } with
  | ok _ m' =>
    rw [bind_of_ok hexecute]
    rfl
  | error e m' =>
    rw [bind_of_error hexecute]
    rfl

/-- The token of a record leads to the action of its code field, if it is where records are. -/
theorem resolve_codeField (h : m.WithinRegions) {r : Record} (hstart : dictionaryStart ≤ r.address)
    (hbody : r.body ≤ m.memory.size) {code : Cell} (hcode : m.memory.get r.codeField = .ok code)
    {action : Action} (haction : m.table[code.toNat]? = some action) :
    Exec.resolve (UInt16.ofNat r.codeField) m =
      .ok action { m with regs := { m.regs with w := UInt16.ofNat r.codeField } } := by
  have hxt : (UInt16.ofNat r.codeField).toNat = r.codeField := by
    have hsize := h.size_le
    refine Cell.toNat_ofNat ?_
    unfold Record.body at hbody
    unfold maxCoreSize at hsize
    omega
  have hle : m.table.size ≤ (UInt16.ofNat r.codeField).toNat := by
    have htable := h.table_le
    rw [hxt]
    unfold Record.codeField Record.nameAddress
    omega
  exact Exec.resolve_of_address hle (by rwa [hxt]) haction

/-- A native word runs, if its record is where records are. -/
theorem execute_native (h : m.WithinRegions) {r : Record} (hstart : dictionaryStart ≤ r.address)
    (hbody : r.body ≤ m.memory.size) {code : Cell} (hcode : m.memory.get r.codeField = .ok code)
    {action : Action} (haction : m.table[code.toNat]? = some action) (hexecute : action ≠ .execute)
    (hresume : action ≠ .resume) :
    Exec.execute (UInt16.ofNat r.codeField) m =
      (action.step >>= fun _ => pure Continuation.done)
        { m with regs := { m.regs with w := UInt16.ofNat r.codeField } } :=
  (bind_of_ok (resolve_codeField h hstart hbody hcode haction)).trans
    (Exec.act_of_step hexecute hresume)

/-- A native word that is not to be compiled runs, and then the threaded code that it has entered,
if any. -/
theorem interpretToken_native (h : m.WithinRegions) {r : Record}
    (hfind : m.find token = .ok (some r)) (hrun : (m.regs.isCompiling && !r.isImmediate) = false)
    (hstart : dictionaryStart ≤ r.address) (hbody : r.body ≤ m.memory.size) {code : Cell}
    (hcode : m.memory.get r.codeField = .ok code)
    {action : Action} (haction : m.table[code.toNat]? = some action) (hexecute : action ≠ .execute)
    (hresume : action ≠ .resume) :
    m.interpretToken steps token =
      match action.step
        { m with token := [], regs := { m.regs with w := UInt16.ofNat r.codeField } } with
      | .ok _ m' => (m'.runThread steps).map (restoring token)
      | .error e m' => some (.error e (m'.restoreToken token)) := by
  have h₀ : ({ m with token := [] } : Machine).WithinRegions := { h with }
  have hnative := execute_native h₀ hstart hbody hcode haction hexecute hresume
  rw [interpretToken_of_run steps hfind hrun]
  cases hstep : action.step
      { m with token := [], regs := { m.regs with w := UInt16.ofNat r.codeField } } with
  | ok _ m' =>
    rw [hnative, bind_of_ok hstep]
    rfl
  | error e m' =>
    rw [hnative, bind_of_error hstep]

/-- So does one that runs even while compiling. -/
theorem interpretToken_immediate {action : Action} (h : m.WithinRegions)
    (hitem : m.item? token = some (.immediate action))
    (hbounds : ∀ r, m.find token = .ok (some r) →
      dictionaryStart ≤ r.address ∧ r.body ≤ m.memory.size)
    (hexecute : action ≠ .execute) (hresume : action ≠ .resume) :
    ∃ xt, ∀ steps, m.interpretToken steps token =
      match action.step { m with token := [], regs := { m.regs with w := xt } } with
      | .ok _ m' => (m'.runThread steps).map (restoring token)
      | .error e m' => some (.error e (m'.restoreToken token)) := by
  obtain ⟨r, code, hfind, himmediate, hcode, haction⟩ := find_of_item?_immediate hitem
  obtain ⟨hstart, hbody⟩ := hbounds r hfind
  exact ⟨UInt16.ofNat r.codeField, fun steps => interpretToken_native steps h hfind
    (by rw [himmediate, Bool.not_true, Bool.and_false]) hstart hbody hcode haction hexecute hresume⟩

end Interpret

end Machine

end CellForth
