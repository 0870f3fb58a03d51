import CellForth.Proofs.Lookup
import Mathlib.Algebra.GroupWithZero.Nat

/-!
# New machines

A configuration whose dictionary has room for the built-in words gives a machine
(`Machine.create_of_room`), and this machine is what one expects: its stacks are empty, its
dictionary is intact, its table holds the runtime actions and then the actions of the built-in
words, and a token names the newest built-in word of that name, letters of either case being the
same (`Machine.Understands`).

Words are registered one after the other, so everything is shown for one word
(`Exec.addBuiltin_of_room`) and then carried along the vocabulary.
-/

namespace CellForth

/-! ### Registering one word -/

/-- The flags of a built-in word. -/
def Builtin.flags (word : Builtin) : Cell :=
  if word.immediate then Record.immediateBit else 0

/-- The name of a built-in word can be defined. -/
def Builtin.WellNamed (word : Builtin) : Prop :=
  Text.bytes word.name ≠ [] ∧ (Text.bytes word.name).length ≤ Record.maxNameLength

instance (word : Builtin) : Decidable word.WellNamed :=
  inferInstanceAs (Decidable (_ ∧ _))

/-- The cells that a built-in word takes in the dictionary. -/
def Builtin.cells (word : Builtin) : Nat :=
  Record.cellsFor (Text.bytes word.name).length

namespace Machine

/-- The second machine differs from the first in its dictionary, its table and its journal only. -/
structure Enlarged (m m' : Machine) : Prop where
  /-- Of the registers, only those of the dictionary differ. -/
  regs : m'.regs = { m.regs with here := m'.regs.here, latest := m'.regs.latest }
  /-- Memory keeps its size. -/
  size : m'.memory.size = m.memory.size
  /-- Input is the same. -/
  input : m'.input = m.input
  /-- Output is the same. -/
  output : m'.output = m.output
  /-- The token read last is the same. -/
  token : m'.token = m.token
  /-- The fault is the same. -/
  lastFault : m'.lastFault = m.lastFault

theorem Enlarged.refl (m : Machine) : m.Enlarged m :=
  ⟨rfl, rfl, rfl, rfl, rfl, rfl⟩

theorem Enlarged.trans {m m' m'' : Machine} (h : m.Enlarged m') (h' : m'.Enlarged m'') :
    m.Enlarged m'' where
  regs := by rw [h'.regs, h.regs]
  size := h'.size.trans h.size
  input := h'.input.trans h.input
  output := h'.output.trans h.output
  token := h'.token.trans h.token
  lastFault := h'.lastFault.trans h.lastFault

theorem Enlarged.dataRoom_eq {m m' : Machine} (h : m.Enlarged m') :
    m'.dataStack.room = m.dataStack.room := by
  simp only [Stack.room, Stack.capacity, Stack.size, dataStack]
  rw [h.regs]

theorem Enlarged.returnRoom_eq {m m' : Machine} (h : m.Enlarged m') :
    m'.returnStack.room = m.returnStack.room := by
  simp only [Stack.room, Stack.capacity, Stack.size, returnStack]
  rw [h.regs]

end Machine

namespace Exec

variable {m : Machine}

/-- A record is created if its name is acceptable and there is room for it. -/
theorem createRecord_grown (h : m.WithinRegions) {name : List UInt8} (code flags : Cell)
    (hne : name ≠ []) (hlen : name.length ≤ Record.maxNameLength)
    (hroom : Record.cellsFor name.length ≤ m.unused) :
    ∃ r m', createRecord name code flags m = .ok r m' ∧
      m.Grown m' name (Record.makeHeader flags name.length) code ∧ m.Enlarged m' ∧
      m'.table = m.table ∧
      m'.regs.here.toNat = m.regs.here.toNat + Record.cellsFor name.length := by
  obtain ⟨journal, hcreate⟩ := createRecord_of_room h.ordered code flags hne hlen hroom
  refine ⟨_, _, hcreate, Machine.grown_addRecord h code flags journal hlen hroom,
    ⟨rfl, Memory.size_overlay .., rfl, rfl, rfl, rfl⟩, rfl, ?_⟩
  have hlength := Record.length_cells m.regs.latest (Record.makeHeader flags name.length) name code
  have hhere := h.toNat_here_append (Nat.le_trans (Nat.le_of_eq hlength) hroom)
  rw [hlength] at hhere
  exact hhere

/-- Making the newest word immediate sets the flag in its header. -/
theorem setImmediate_grown {m' : Machine} {name : List UInt8} {code : Cell}
    (g : m.Grown m' name (Record.makeHeader 0 name.length) code)
    (hlen : name.length ≤ Record.maxNameLength) :
    ∃ m'', setImmediate m' = .ok () m'' ∧
      m.Grown m'' name (Record.makeHeader Record.immediateBit name.length) code ∧ m'.Enlarged m'' ∧
      m''.table = m'.table ∧ m''.regs.here = m'.regs.here := by
  have hset := updateHeader_of_grown g (· ||| Record.immediateBit)
  rw [Record.makeHeader_or_immediateBit, UInt16.zero_or] at hset
  refine ⟨_, ?_, g.setHeader (Record.nameLength_makeHeader hlen _ _),
    ⟨rfl, Memory.size_overlay .., rfl, rfl, rfl, rfl⟩, rfl, rfl⟩
  unfold setImmediate
  rw [bind_reg, g.latest]
  exact hset

/-- A native word is registered if its name is acceptable and there is room for it. -/
theorem addPrimitive_of_room (h : m.WithinRegions) {word : Builtin} (hname : word.WellNamed)
    (hroom : word.cells ≤ m.unused) (htable : m.table.size < dictionaryStart) :
    ∃ m', addPrimitive word.name word.action m = .ok (UInt16.ofNat m.table.size) m' ∧
      m.Grown m' (Text.bytes word.name) (Record.makeHeader 0 (Text.bytes word.name).length)
        (UInt16.ofNat m.table.size) ∧
      m.Enlarged m' ∧ m'.table = m.table.push word.action ∧
      m'.regs.here.toNat = m.regs.here.toNat + word.cells := by
  obtain ⟨hne, hlen⟩ := hname
  have hruntime := addRuntime_eq word.name word.action m
  rw [if_pos htable] at hruntime
  generalize m.journal.record (.opcode m.table.size word.name) = journal₁ at hruntime
  have hsize : (m.table.push word.action).size ≤ dictionaryStart := by
    rw [Array.size_push]
    omega
  have h₁ : ({ m with table := m.table.push word.action, journal := journal₁ } :
      Machine).WithinRegions :=
    { h with table_le := hsize }
  obtain ⟨r, m', hcreate, hgrown, henlarged, hpush, hhere⟩ :=
    createRecord_grown h₁ (UInt16.ofNat m.table.size) 0 hne hlen hroom
  refine ⟨m', ?_, { hgrown with before := h }, { henlarged with }, hpush, hhere⟩
  unfold addPrimitive
  rw [bind_of_ok hruntime, bind_of_ok hcreate]
  rfl

/-- A built-in word is registered if its name is acceptable and there is room for it. -/
theorem addBuiltin_of_room (h : m.WithinRegions) {word : Builtin} (hname : word.WellNamed)
    (hroom : word.cells ≤ m.unused) (htable : m.table.size < dictionaryStart) :
    ∃ m', addBuiltin word m = .ok () m' ∧
      m.Grown m' (Text.bytes word.name)
        (Record.makeHeader word.flags (Text.bytes word.name).length) (UInt16.ofNat m.table.size) ∧
      m.Enlarged m' ∧ m'.table = m.table.push word.action ∧
      m'.regs.here.toNat = m.regs.here.toNat + word.cells := by
  obtain ⟨m', hadd, hgrown, henlarged, hpush, hhere⟩ := addPrimitive_of_room h hname hroom htable
  unfold addBuiltin
  cases himmediate : word.immediate with
  | false =>
    refine ⟨m', ?_, ?_, henlarged, hpush, hhere⟩
    · exact bind_of_ok hadd
    · simpa [Builtin.flags, himmediate] using hgrown
  | true =>
    obtain ⟨m'', hset, hgrown', henlarged', htable', hhere'⟩ := setImmediate_grown hgrown hname.2
    refine ⟨m'', ?_, ?_, henlarged.trans henlarged', htable'.trans hpush, hhere' ▸ hhere⟩
    · refine bind_of_ok (a := UInt16.ofNat m.table.size) ?_
      exact (bind_of_ok hadd).trans (bind_of_ok hset)
    · simpa [Builtin.flags, himmediate] using hgrown'

end Exec

/-! ### What a machine understands -/

namespace Machine

/-- A token names the first of the given words with that name, and no other word: look-up finds a
record with the flag of that word and with its opcode, or none. -/
def Understands (m : Machine) (words : List (Builtin × Nat)) : Prop :=
  ∀ token, match words.find? fun w => sameName (Text.bytes w.1.name) token with
    | some (word, op) => ∃ r, m.find token = .ok (some r) ∧ r.isImmediate = word.immediate ∧
        m.memory.cells[r.codeField]? = some (UInt16.ofNat op)
    | none => m.find token = .ok none

/-- A machine understands a word that is registered with it, on top of what it understood. -/
theorem Understands.cons {m m' : Machine} {words : List (Builtin × Nat)} (hm : m.Understands words)
    (hintact : m.Intact) {word : Builtin} {op : Nat}
    (g : m.Grown m' (Text.bytes word.name)
      (Record.makeHeader word.flags (Text.bytes word.name).length) (UInt16.ofNat op)) :
    m'.Understands ((word, op) :: words) := by
  intro token
  have hfind := g.find_eq hintact token
  have hvisible : (word.flags &&& Record.hiddenBit != 0) = false := by
    unfold Builtin.flags
    cases word.immediate <;> decide
  have himmediate : (word.flags &&& Record.immediateBit != 0) = word.immediate := by
    unfold Builtin.flags
    cases word.immediate <;> decide
  rw [Record.isHidden_makeHeader, hvisible] at hfind
  cases hsame : sameName (Text.bytes word.name) token with
  | true =>
    rw [hsame] at hfind
    simp only [List.find?_cons, hsame]
    exact ⟨_, hfind, (Record.isImmediate_makeHeader ..).trans himmediate, g.codeField⟩
  | false =>
    have hold := hm token
    rw [hsame] at hfind
    simp only [List.find?_cons, hsame]
    cases hw : words.find? fun w => sameName (Text.bytes w.1.name) token with
    | none =>
      rw [hw] at hold
      exact hfind.trans hold
    | some w =>
      rw [hw] at hold
      obtain ⟨r, hr, hflag, hcode⟩ := hold
      -- The older record ends below the new one, so that its code field is what it was.
      have hbody := (hintact.bounds_of_find g.before hr).2
      refine ⟨r, hfind.trans hr, hflag, (g.agree _ ?_).trans hcode⟩
      exact Nat.lt_of_lt_of_le (Nat.lt_succ_self _) hbody

end Machine

/-! ### Registering the vocabulary -/

namespace Exec

/-- Words are registered one after the other as long as there is room for all of them. -/
theorem forM_addBuiltin {m : Machine} {known : List (Builtin × Nat)} (words : List Builtin)
    (h : m.WithinRegions) (hintact : m.Intact) (hknown : m.Understands known)
    (hnames : ∀ word ∈ words, word.WellNamed)
    (hroom : (words.map Builtin.cells).sum ≤ m.unused)
    (htable : m.table.size + words.length ≤ dictionaryStart) :
    ∃ m', words.forM addBuiltin m = .ok () m' ∧ m'.WithinRegions ∧ m'.Intact ∧
      m'.Understands ((words.zipIdx m.table.size).reverse ++ known) ∧ m.Enlarged m' ∧
      m'.table.toList = m.table.toList ++ words.map Builtin.action ∧
      m'.regs.here.toNat = m.regs.here.toNat + (words.map Builtin.cells).sum ∧
      Memory.AgreeBelow dictionaryStart m'.memory m.memory ∧
      ∀ word ∈ words.getLast?, m'.regs.latest.toNat + word.cells = m'.regs.here.toNat := by
  induction words generalizing m known with
  | nil =>
    exact ⟨m, rfl, h, hintact, hknown, .refl m, by simp, by simp, .refl _ _, by simp⟩
  | cons word words ih =>
    rw [List.forall_mem_cons] at hnames
    rw [List.map_cons, List.sum_cons] at hroom
    rw [List.length_cons] at htable
    obtain ⟨m₁, hadd, hgrown, henlarged, hpush, hhere⟩ :=
      addBuiltin_of_room h hnames.1 (by omega) (by omega)
    have hsize : m₁.table.size = m.table.size + 1 := by rw [hpush, Array.size_push]
    have hdata : m₁.regs.dataBase = m.regs.dataBase := by rw [henlarged.regs]
    have hunused : m₁.unused = m.unused - word.cells := by
      unfold Machine.unused
      rw [hdata, hhere]
      omega
    have hreserved := hgrown.agree.mono h.start_le_here
    -- What is understood is generalized, since the words registered so far are known to the rest.
    obtain ⟨m', hrest, h', hintact', hknown', henlarged', htable', hhere', hreserved', hlast⟩ :=
      ih hgrown.after (hgrown.intact hintact) (hknown.cons hintact hgrown) hnames.2 (by omega)
        (by omega)
    refine ⟨m', ?_, h', hintact', ?_, henlarged.trans henlarged', ?_, ?_,
      hreserved'.trans hreserved, ?_⟩
    · exact (bind_of_ok hadd).trans hrest
    · rw [hsize] at hknown'
      simpa using hknown'
    · rw [htable', hpush]
      simp
    · rw [hhere', hhere, List.map_cons, List.sum_cons, Nat.add_assoc]
    · cases words with
      | nil =>
        cases hrest
        simpa [hgrown.latest] using hhere.symm
      | cons next words => simpa using hlast

/-- Runtime actions take their places in the table, and nothing else changes. -/
theorem forM_addRuntime {m : Machine} (runtimes : List (String × Runtime))
    (htable : m.table.size + runtimes.length ≤ dictionaryStart) :
    ∃ journal, (runtimes.forM fun (name, r) => do
        let _ ← addRuntime name (.runtime r)
        return ()) m =
      .ok () { m with
        table := m.table ++ (runtimes.map fun r => Action.runtime r.2).toArray
        journal := journal } := by
  induction runtimes generalizing m with
  | nil => exact ⟨m.journal, by simp [pure, EStateM.pure]⟩
  | cons runtime runtimes ih =>
    rw [List.length_cons] at htable
    have hadd := addRuntime_eq runtime.1 (.runtime runtime.2) m
    rw [if_pos (by omega)] at hadd
    generalize m.journal.record (.opcode m.table.size runtime.1) = journal₁ at hadd
    obtain ⟨journal, hrest⟩ := ih (m := { m with
      table := m.table.push (.runtime runtime.2), journal := journal₁ }) (by simp; omega)
    have hfirst : (do
        let _ ← addRuntime runtime.1 (.runtime runtime.2)
        return ()) m = .ok () { m with
          table := m.table.push (.runtime runtime.2), journal := journal₁ } := bind_of_ok hadd
    refine ⟨journal, (bind_of_ok hfirst).trans (hrest.trans ?_)⟩
    simp

end Exec

/-! ### New machines -/

/-- A configuration is not refused exactly if there is room for its stacks, which are at the end of
memory then. -/
theorem Config.layout_eq_ok_iff {config : Config} {layout : Layout} :
    config.layout = .ok layout ↔
      config.coreSize ≤ maxCoreSize ∧ 0 < config.dataStackSize ∧ 0 < config.returnStackSize ∧
        dictionaryStart + (config.dataStackSize + config.returnStackSize) < config.coreSize ∧
        layout = ⟨config.coreSize - config.returnStackSize - config.dataStackSize,
          config.coreSize - config.returnStackSize, config.coreSize⟩ := by
  constructor
  · intro h
    unfold Config.layout at h
    split at h
    · cases h
    · split at h
      · cases h
      · dsimp only at h
        split at h
        · cases h
        · split at h
          · cases h
          · cases h
            refine ⟨?_, ?_, ?_, ?_, rfl⟩ <;> omega
  · rintro ⟨hmax, hdata, hreturn, hfits, rfl⟩
    have hrange : maxCoreSize < hostRange := by decide
    unfold Config.layout
    rw [if_neg (by omega), if_neg (by omega)]
    dsimp only
    rw [if_neg (by omega), if_neg (by omega)]

/-- A layout that is not refused places its regions one after the other. -/
theorem Config.layout_bounds {config : Config} {layout : Layout} (h : config.layout = .ok layout) :
    dictionaryStart < layout.dataBase ∧ layout.dataBase < layout.returnBase ∧
      layout.returnBase < layout.returnLimit ∧ layout.returnLimit = config.coreSize ∧
      config.coreSize ≤ maxCoreSize := by
  obtain ⟨hmax, hdata, hreturn, hfits, rfl⟩ := layout_eq_ok_iff.mp h
  dsimp only
  omega

/-- A cell is wide enough for the boundaries of a layout that is not refused. -/
theorem Config.toNat_ofNat_layout {config : Config} {layout : Layout}
    (h : config.layout = .ok layout) :
    (UInt16.ofNat layout.dataBase).toNat = layout.dataBase ∧
      (UInt16.ofNat layout.returnBase).toNat = layout.returnBase ∧
      (UInt16.ofNat layout.returnLimit).toNat = layout.returnLimit := by
  obtain ⟨-, hdata, hreturn, hlimit, hsize⟩ := layout_bounds h
  unfold maxCoreSize at hsize
  exact ⟨Cell.toNat_ofNat (by omega), Cell.toNat_ofNat (by omega), Cell.toNat_ofNat (by omega)⟩

namespace Machine

/-- A machine without words is within its regions. -/
theorem bare_withinRegions {config : Config} {layout : Layout} (h : config.layout = .ok layout)
    (input : Source) (output : Sink) (verbosity : Verbosity) :
    (bare config.coreSize layout input output verbosity).WithinRegions := by
  obtain ⟨hstart, hdata, hreturn, hlimit, hsize⟩ := Config.layout_bounds h
  obtain ⟨h₁, h₂, h₃⟩ := Config.toNat_ofNat_layout h
  refine ⟨Nat.le_refl _, ?_, Nat.le_refl _, ?_, rfl, Nat.le_refl _, ?_, ?_, ?_, ?_, ?_, ?_⟩
  · exact Nat.le_trans (Nat.le_of_lt hstart) (Nat.le_of_eq h₁.symm)
  · show (UInt16.ofNat layout.dataBase).toNat ≤ (UInt16.ofNat layout.returnBase).toNat
    omega
  · show (UInt16.ofNat layout.returnBase).toNat ≤ (UInt16.ofNat layout.returnLimit).toNat
    omega
  · show (UInt16.ofNat layout.returnLimit).toNat = (Memory.zeroed config.coreSize).size
    rw [Memory.size_zeroed]
    omega
  · show (Memory.zeroed config.coreSize).size ≤ maxCoreSize
    rw [Memory.size_zeroed]
    exact hsize
  · show 2 ≤ (10 : Cell).toNat
    decide
  · show (10 : Cell).toNat ≤ 36
    decide
  · exact Nat.zero_le _

end Machine

/-- The built-in words with their opcodes, newest first. -/
def Vocabulary.numbered : List (Builtin × Nat) :=
  (builtins.zipIdx runtimes.length).reverse

/-- The actions of a new machine, by opcode. -/
def Vocabulary.actions : List Action :=
  (runtimes.map fun r => Action.runtime r.2) ++ builtins.map Builtin.action

/-- The cells that the built-in words take in the dictionary. -/
def Vocabulary.cells : Nat :=
  (builtins.map Builtin.cells).sum

namespace Machine

/-- What is known of a new machine. -/
structure New (m : Machine) (config : Config) (layout : Layout) (input : Source) (output : Sink) :
    Prop where
  /-- It is within its regions. -/
  within : m.WithinRegions
  /-- Its dictionary is intact. -/
  intact : m.Intact
  /-- It understands the built-in words. -/
  understands : m.Understands Vocabulary.numbered
  /-- It has their actions. -/
  table : m.table.toList = Vocabulary.actions
  /-- Its registers are the initial ones, but for those of the dictionary. -/
  regs : m.regs =
    { Registers.initial layout with here := m.regs.here, latest := m.regs.latest }
  /-- Its dictionary has grown by the built-in words. -/
  here : m.regs.here.toNat = dictionaryStart + Vocabulary.cells
  /-- Its newest record is that of the last built-in word. -/
  latest : ∀ word ∈ Vocabulary.builtins.getLast?,
    m.regs.latest.toNat + word.cells = m.regs.here.toNat
  /-- The reserved cells are zero. -/
  reserved : ∀ i : Nat, i < dictionaryStart → m.memory.cells[i]? = some 0
  /-- It has the memory that was asked for. -/
  size : m.memory.size = config.coreSize
  /-- It reads the given input. -/
  input : m.input = input
  /-- It writes to the given sink. -/
  output : m.output = output
  /-- It has read no token. -/
  token : m.token = []
  /-- It has not faulted. -/
  lastFault : m.lastFault = none

section New

variable {m : Machine} {config : Config} {layout : Layout} {input : Source} {output : Sink}
  (hnew : m.New config layout input output)
include hnew

theorem New.unused_eq :
    m.unused = (UInt16.ofNat layout.dataBase).toNat - (dictionaryStart + Vocabulary.cells) := by
  rw [unused, hnew.here, hnew.regs]
  rfl

theorem New.room_eq : m.dataStack.room =
    (UInt16.ofNat layout.returnBase).toNat - (UInt16.ofNat layout.dataBase).toNat := by
  simp only [Stack.room, Stack.capacity, Stack.size, Machine.dataStack]
  rw [hnew.regs]
  simp [Registers.initial]

end New

/-! ### Registering the vocabulary with a machine without words -/

/-- A machine that has the runtime actions, but no word yet. -/
def wordless (size : Nat) (layout : Layout) (input : Source) (output : Sink) (journal : Journal) :
    Machine :=
  { bare size layout input output .off with
    table := (Vocabulary.runtimes.map fun r => Action.runtime r.2).toArray
    journal := journal }

section Wordless

variable {config : Config} {layout : Layout} (input : Source) (output : Sink)

theorem wordless_withinRegions (h : config.layout = .ok layout) (journal : Journal) :
    (wordless config.coreSize layout input output journal).WithinRegions :=
  { bare_withinRegions h input output .off with table_le := by simp [wordless]; decide }

theorem unused_wordless (h : config.layout = .ok layout) (journal : Journal) :
    (wordless config.coreSize layout input output journal).unused =
      layout.dataBase - dictionaryStart := by
  have hdata : (UInt16.ofNat layout.dataBase).toNat = layout.dataBase := by
    have hbounds := Config.layout_bounds h
    unfold maxCoreSize at hbounds
    exact Cell.toNat_ofNat (by omega)
  show (UInt16.ofNat layout.dataBase).toNat - dictionaryStart = _
  rw [hdata]

/-- The runtime actions find their places. What remains is to register the built-in words. -/
theorem addVocabulary_bare (size : Nat) (layout : Layout) (verbosity : Verbosity) :
    ∃ journal, Exec.addVocabulary (bare size layout input output verbosity) =
      Vocabulary.builtins.forM Exec.addBuiltin (wordless size layout input output journal) := by
  obtain ⟨journal, hadd⟩ := Exec.forM_addRuntime (m := bare size layout input output verbosity)
    Vocabulary.runtimes (by show 0 + Vocabulary.runtimes.length ≤ dictionaryStart; decide)
  refine ⟨journal, (bind_of_ok hadd).trans ?_⟩
  simp only [bare, wordless, Array.empty_append]

variable {input output} {verbosity : Verbosity} {m : Machine}

/-- A machine that is given comes about by registering the built-in words. -/
theorem exists_of_create (h : create config input output verbosity = .ok m) :
    ∃ layout journal journal' m', config.layout = .ok layout ∧
      Vocabulary.builtins.forM Exec.addBuiltin
        (wordless config.coreSize layout input output journal) = .ok () m' ∧
      m = { m' with journal := journal' } := by
  unfold create at h
  split at h
  · cases h
  · rename_i layout hlayout
    obtain ⟨journal, hadd⟩ := addVocabulary_bare input output config.coreSize layout verbosity
    split at h
    · cases h
    · rename_i m' hall
      cases h
      exact ⟨layout, journal, _, m', hlayout, hadd.symm.trans hall, rfl⟩

end Wordless

/-- Where the built-in words fit, there is a machine. -/
theorem create_of_room {config : Config} {layout : Layout} (hlayout : config.layout = .ok layout)
    (hroom : dictionaryStart + Vocabulary.cells ≤ layout.dataBase) (input : Source) (output : Sink)
    (verbosity : Verbosity) :
    ∃ m, create config input output verbosity = .ok m ∧ m.New config layout input output := by
  obtain ⟨journal, hadd⟩ := addVocabulary_bare input output config.coreSize layout verbosity
  have hwithin := wordless_withinRegions input output hlayout journal
  have hunused := unused_wordless input output hlayout journal
  generalize hm : wordless config.coreSize layout input output journal = m at *
  -- Before the first word the chain is empty, and no token is found.
  have hnone : m.Intact ∧ m.Understands [] := by
    rw [← hm]
    refine ⟨⟨[], .nil⟩, fun token => ?_⟩
    show Memory.findFrom _ token _ 0 = .ok none
    unfold Memory.findFrom
    rfl
  have hlist : m.table.toList = Vocabulary.runtimes.map fun r => Action.runtime r.2 := by
    rw [← hm, wordless]
  have hsize : m.table.size = Vocabulary.runtimes.length := by
    rw [← Array.length_toList, hlist, List.length_map]
  obtain ⟨m', hwords, h', hintact, hunderstands, henlarged, htable', hhere, hreserved, hlatest⟩ :=
    Exec.forM_addBuiltin Vocabulary.builtins hwithin hnone.1 hnone.2 (by decide +kernel)
      (by rw [hunused]; unfold Vocabulary.cells at hroom; omega)
      (by rw [hsize]; decide +kernel)
  refine ⟨{ m' with journal := m'.journal.record (.created m'.memory.size m'.regs.here) }, ?_, ?_⟩
  · simp only [create, hlayout, hadd, hwords]
  · refine
      { within := { h' with }
        intact := hintact
        understands := ?_
        table := ?_
        regs := ?_
        here := ?_
        latest := hlatest
        reserved := fun i hi => (hreserved i hi).trans ?_
        size := henlarged.size.trans ?_
        input := henlarged.input.trans ?_
        output := henlarged.output.trans ?_
        token := henlarged.token.trans ?_
        lastFault := henlarged.lastFault.trans ?_ }
    · rw [hsize, List.append_nil] at hunderstands
      exact hunderstands
    · rw [htable', hlist]
      rfl
    · rw [henlarged.regs, ← hm]
      rfl
    · rw [hhere, ← hm]
      rfl
    · rw [← hm]
      have hlt : i < config.coreSize := by
        have := Config.layout_bounds hlayout
        omega
      simp [wordless, bare, Memory.zeroed, hlt]
    · rw [← hm]
      exact Memory.size_zeroed _
    all_goals rw [← hm]; rfl

end Machine

end CellForth
