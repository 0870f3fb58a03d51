import CellForth.Proofs.Ledger
import CellForth.Proofs.Tokens

/-!
# The configurations that give a machine

A new machine depends on its configuration in its sizes only. Registering a built-in word writes the
record of the word at the free end of the dictionary and does nothing else to memory
(`Exec.addBuiltin_eq`). So the built-in words make one image, `Vocabulary.image`, which does not
mention any configuration, and the memory of a new machine is that image in an otherwise empty
memory (`Machine.create_memory`).

A word without room is refused, and so a configuration gives a machine exactly if it suffices for
its stacks and for the image (`Machine.exists_create_iff`).
-/

namespace CellForth

/-! ### Registering one word -/

/-- A record whose header is changed afterwards is the record with that header. -/
theorem Memory.overlay_setHeader (memory : Memory) (pos : Nat) (link header header' : Cell)
    (cs : List Cell) :
    (memory.overlay pos (link :: header :: cs)).overlay (pos + 1) [header'] =
      memory.overlay pos (link :: header' :: cs) := by
  have hcells : ((memory.overlay pos (link :: header :: cs)).overlay (pos + 1) [header']).cells =
      (memory.overlay pos (link :: header' :: cs)).cells := by
    refine Array.ext_getElem? fun i => ?_
    simp only [cells_overlay, size_overlay, List.length_cons, List.length_nil]
    by_cases hi : i = pos + 1
    · subst hi
      have hone : pos + 1 - pos = 1 := by omega
      by_cases hsize : pos + 1 < memory.size
      · simp [hsize, hone]
      · simp [hsize]
    · rw [if_neg (by omega)]
      obtain hlow | ⟨k, rfl⟩ : i < pos + 1 ∨ ∃ k, i = pos + 2 + k :=
        if h : i < pos + 1 then .inl h else .inr ⟨i - (pos + 2), by omega⟩
      · congr 1
        obtain hlt | rfl : i < pos ∨ i = pos := by omega
        · simp [Nat.sub_eq_zero_of_le (Nat.le_of_lt hlt)]
        · simp
      · have hsub : pos + 2 + k - pos = k + 2 := by omega
        simp only [hsub, List.getElem?_cons_succ]
  exact congrArg Memory.mk hcells

/-- A built-in word is registered by adding its record and its action. -/
theorem Exec.addBuiltin_eq {m : Machine} (h : m.WithinRegions) {word : Builtin}
    (hname : word.WellNamed) (hroom : word.cells ≤ m.unused)
    (htable : m.table.size < dictionaryStart) :
    ∃ journal, addBuiltin word m = .ok ()
      { m.addRecord (Text.bytes word.name) (UInt16.ofNat m.table.size) word.flags journal with
        table := m.table.push word.action } := by
  obtain ⟨hne, hlen⟩ := hname
  have hruntime := addRuntime_eq word.name word.action m
  rw [if_pos htable] at hruntime
  generalize m.journal.record (.opcode m.table.size word.name) = journal₁ at hruntime
  have h₁ : ({ m with table := m.table.push word.action, journal := journal₁ } :
      Machine).WithinRegions :=
    { h with table_le := by rw [Array.size_push]; omega }
  obtain ⟨journal, hcreate⟩ :=
    createRecord_of_room h₁.ordered (UInt16.ofNat m.table.size) 0 hne hlen hroom
  have hadd : addPrimitive word.name word.action m = .ok (UInt16.ofNat m.table.size) _ :=
    (bind_of_ok hruntime).trans (bind_of_ok hcreate)
  refine ⟨journal, ?_⟩
  unfold addBuiltin
  cases himmediate : word.immediate with
  | false =>
    refine (bind_of_ok hadd).trans ?_
    rw [Builtin.flags, himmediate]
    rfl
  | true =>
    -- The record is made without the flag, which is set in its header afterwards.
    have hset := updateHeader_of_grown
      (Machine.grown_addRecord h₁ (UInt16.ofNat m.table.size) 0 journal hlen hroom)
      (· ||| Record.immediateBit)
    have hflags : word.flags = Record.immediateBit := by rw [Builtin.flags, himmediate]; rfl
    rw [Record.makeHeader_or_immediateBit, UInt16.zero_or] at hset
    refine (bind_of_ok ((bind_of_ok hadd).trans (bind_of_ok hset))).trans ?_
    rw [hflags]
    simp only [Machine.addRecord, Machine.append, Record.cells, Memory.overlay_setHeader]
    rfl

/-! ### The image of the vocabulary -/

/-- The cells of the records of words that are registered one after the other, if `here` is the free
end of the dictionary, `link` the newest record and `op` the next opcode. -/
def Vocabulary.layOut (here link : Cell) (op : Nat) : List Builtin → List Cell
  | [] => []
  | word :: words =>
    Record.cells link (Record.makeHeader word.flags (Text.bytes word.name).length)
        (Text.bytes word.name) (UInt16.ofNat op) ++
      layOut (here + UInt16.ofNat word.cells) here (op + 1) words

/-- The dictionary of a new machine, from the end of the reserved cells on. -/
def Vocabulary.image : List Cell :=
  layOut (UInt16.ofNat dictionaryStart) 0 runtimes.length builtins

theorem Vocabulary.length_layOut (here link : Cell) (op : Nat) (words : List Builtin) :
    (layOut here link op words).length = (words.map Builtin.cells).sum := by
  induction words generalizing here link op with
  | nil => rfl
  | cons word words ih =>
    rw [layOut, List.length_append, Record.length_cells, ih, List.map_cons, List.sum_cons]
    rfl

theorem Vocabulary.length_image : image.length = cells :=
  length_layOut ..

namespace Exec

variable {m m' : Machine}

/-- Words that have been registered one after the other had room, and they have left their records
behind and no other trace in memory. -/
theorem forM_addBuiltin_memory {words : List Builtin} (h : m.WithinRegions)
    (hnames : ∀ word ∈ words, word.WellNamed)
    (htable : m.table.size + words.length ≤ dictionaryStart)
    (hok : words.forM addBuiltin m = .ok () m') :
    (words.map Builtin.cells).sum ≤ m.unused ∧
      m'.memory = m.memory.overlay m.regs.here.toNat
        (Vocabulary.layOut m.regs.here m.regs.latest m.table.size words) := by
  induction words generalizing m with
  | nil =>
    cases hok
    exact ⟨Nat.zero_le _, rfl⟩
  | cons word words ih =>
    rw [List.forall_mem_cons] at hnames
    rw [List.length_cons] at htable
    by_cases hroom : word.cells ≤ m.unused
    · obtain ⟨m₁, hadd, hgrown, henlarged, hpush, hhere⟩ :=
        addBuiltin_of_room h hnames.1 hroom (by omega)
      obtain ⟨hfits, hmemory⟩ := ih hgrown.after hnames.2 (by rw [hpush, Array.size_push]; omega)
        ((bind_of_ok hadd).symm.trans hok)
      constructor
      · have hdata : m₁.regs.dataBase = m.regs.dataBase := by rw [henlarged.regs]
        unfold Machine.unused at hroom hfits ⊢
        rw [hdata, hhere] at hfits
        rw [List.map_cons, List.sum_cons]
        omega
      · obtain ⟨journal, hexplicit⟩ := addBuiltin_eq h hnames.1 hroom (by omega)
        rw [hadd] at hexplicit
        cases hexplicit
        rw [hmemory, hhere, Vocabulary.layOut, Memory.overlay_append, Record.length_cells]
        simp only [Machine.addRecord, Machine.append, Record.length_cells, Array.size_push]
        rfl
    · -- The first word without room is refused, and with it the whole row.
      obtain ⟨f, m₁, hadd⟩ := addBuiltin_refused hroom (by omega)
      rw [show (word :: words).forM addBuiltin m = .error f m₁ from bind_of_error hadd] at hok
      cases hok

end Exec

/-! ### New machines -/

/-- The configuration suffices for its stacks and for the built-in words. -/
def Config.Suffices (config : Config) : Prop :=
  config.coreSize ≤ maxCoreSize ∧ 1 ≤ config.dataStackSize ∧ 1 ≤ config.returnStackSize ∧
    dictionaryStart + Vocabulary.cells + config.dataStackSize + config.returnStackSize ≤
      config.coreSize

instance (config : Config) : Decidable config.Suffices :=
  inferInstanceAs (Decidable (_ ∧ _ ∧ _ ∧ _))

theorem Vocabulary.cells_pos : 0 < cells := by
  decide +kernel

/-- A configuration suffices exactly if it is not refused and its words end below its stacks. -/
theorem Config.suffices_iff {config : Config} :
    config.Suffices ↔ ∃ layout, config.layout = .ok layout ∧
      dictionaryStart + Vocabulary.cells ≤ layout.dataBase := by
  have hpos := Vocabulary.cells_pos
  constructor
  · rintro ⟨hmax, hdata, hreturn, hfits⟩
    exact ⟨_, Config.layout_eq_ok_iff.mpr ⟨hmax, hdata, hreturn, by omega, rfl⟩,
      by dsimp only; omega⟩
  · rintro ⟨layout, hlayout, hroom⟩
    obtain ⟨hmax, hdata, hreturn, hfits, rfl⟩ := Config.layout_eq_ok_iff.mp hlayout
    exact ⟨hmax, hdata, hreturn, by dsimp only at hroom; omega⟩

/-- No two built-in words have the same name, letters of either case being the same. -/
theorem Vocabulary.find?_numbered : ∀ w ∈ numbered,
    (numbered.find? fun v => sameName (Text.bytes v.1.name) (Text.bytes w.1.name)).map Prod.snd =
      some w.2 := by
  decide +kernel

namespace Machine

variable {config : Config} {input : Source} {output : Sink} {verbosity : Verbosity}
  {m : Machine}

/-- A machine is given only where the configuration suffices, and its memory is the image of the
built-in words in an empty memory. -/
theorem create_memory (h : create config input output verbosity = .ok m) :
    config.Suffices ∧
      m.memory = (Memory.zeroed config.coreSize).overlay dictionaryStart Vocabulary.image := by
  obtain ⟨layout, journal, journal', m', hlayout, hwords, rfl⟩ := exists_of_create h
  obtain ⟨hfits, hmemory⟩ := Exec.forM_addBuiltin_memory
    (wordless_withinRegions input output hlayout journal) (by decide +kernel)
    (by simp only [wordless]; decide +kernel) hwords
  refine ⟨Config.suffices_iff.mpr ⟨layout, hlayout, ?_⟩, hmemory⟩
  have hstart := (Config.layout_bounds hlayout).1
  rw [unused_wordless input output hlayout] at hfits
  unfold Vocabulary.cells
  omega

/-- A machine that is given is a new one. -/
theorem new_of_create (h : create config input output verbosity = .ok m) :
    ∃ layout, config.layout = .ok layout ∧ m.New config layout input output := by
  obtain ⟨layout, hlayout, hroom⟩ := Config.suffices_iff.mp (create_memory h).1
  obtain ⟨m', hcreate, hnew⟩ := create_of_room hlayout hroom input output verbosity
  rw [h] at hcreate
  cases hcreate
  exact ⟨layout, hlayout, hnew⟩

/-- A configuration gives a machine exactly if it suffices. -/
theorem exists_create_iff :
    (∃ m, create config input output verbosity = .ok m) ↔ config.Suffices := by
  constructor
  · rintro ⟨m, h⟩
    exact (create_memory h).1
  · intro h
    obtain ⟨layout, hlayout, hroom⟩ := Config.suffices_iff.mp h
    obtain ⟨m, hcreate, -⟩ := create_of_room hlayout hroom input output verbosity
    exact ⟨m, hcreate⟩

/-- The default configuration gives a machine, which has room for many words and items. -/
theorem create_default (input : Source) (output : Sink) (verbosity : Verbosity) :
    ∃ m, create {} input output verbosity = .ok m ∧ m.New {} ⟨32576, 32640, 32768⟩ input output ∧
      m.regs.here = 777 ∧ m.regs.mode = .interpret ∧ m.regs.defining = 0 ∧
      31000 < m.unused ∧ 64 ≤ m.dataStack.room := by
  have hlayout : Config.layout {} = .ok ⟨32576, 32640, 32768⟩ := rfl
  obtain ⟨m, hcreate, hnew⟩ := create_of_room hlayout (by decide +kernel) input output verbosity
  refine ⟨m, hcreate, hnew, UInt16.toNat_inj.mp (hnew.here.trans (by decide +kernel)), ?_,
    ?_, ?_, ?_⟩
  · rw [hnew.regs]
    rfl
  · rw [hnew.regs]
    rfl
  · rw [hnew.unused_eq]
    decide +kernel
  · rw [hnew.room_eq]
    decide +kernel

/-- Sizes are refused because they do not add up only if they do not. -/
theorem overflow_of_create {journal : Journal}
    (h : create config input output verbosity = .error (.sizeOverflow, journal)) :
    hostRange ≤ dictionaryStart + (config.dataStackSize + config.returnStackSize) := by
  unfold create at h
  split at h
  · rename_i e hlayout
    cases h
    unfold Config.layout at hlayout
    by_contra hrange
    split at hlayout
    · cases hlayout
    · split at hlayout
      · cases hlayout
      · dsimp only at hlayout
        rw [if_neg hrange] at hlayout
        split at hlayout <;> cases hlayout
  · split at h <;> cases h

/-! ### What is the same in all new machines -/

/-- The machine stands at the start of its life, with the sizes of a configuration. -/
structure AtStart (m : Machine) (config : Config) : Prop where
  /-- Every runtime action is in the table at its opcode. -/
  runtime : ∀ r : Runtime, m.table[r.opcode.toNat]? = some (.runtime r)
  /-- So is the action of every built-in word. -/
  action : ∀ word op, (word, op) ∈ Vocabulary.numbered → m.table[op]? = some word.action
  /-- The name of a built-in word leads to a record whose code field holds the opcode. -/
  find : ∀ word op, (word, op) ∈ Vocabulary.numbered →
    ∃ r, m.find (Text.bytes word.name) = .ok (some r) ∧
      m.memory.cells[r.codeField]? = some (UInt16.ofNat op)
  /-- The dictionary ends behind the built-in words. -/
  here : m.regs.here.toNat = dictionaryStart + Vocabulary.cells
  /-- All cells behind its end are zero. -/
  zero : ∀ i : Nat, dictionaryStart + Vocabulary.cells ≤ i → i < config.coreSize →
    m.memory.cells[i]? = some 0
  /-- Memory has the size asked for. -/
  size : m.memory.size = config.coreSize
  /-- The data stack is empty. -/
  dataItems : m.dataItems = []
  /-- So is the return stack. -/
  returnItems : m.returnItems = []
  /-- The data stack has the size asked for. -/
  dataCapacity : m.dataStack.capacity = config.dataStackSize
  /-- So has the return stack. -/
  returnCapacity : m.returnStack.capacity = config.returnStackSize

/-- The machines know the same words, in the same places. -/
structure SameWords (m m' : Machine) : Prop where
  /-- They have the same actions. -/
  table : m'.table = m.table
  /-- Their dictionaries end at the same cell. -/
  here : m'.regs.here = m.regs.here
  /-- Their newest records are at the same cell. -/
  latest : m'.regs.latest = m.regs.latest
  /-- The cells of their dictionaries are the same. -/
  memory : ∀ i : Nat, i < dictionaryStart + Vocabulary.cells →
    m'.memory.cells[i]? = m.memory.cells[i]?

section Create

variable {config' : Config} {input' : Source} {output' : Sink} {verbosity' : Verbosity}
  {m' : Machine}

/-- A new machine has empty stacks of the sizes asked for. -/
theorem New.emptyStacks {layout : Layout} (hnew : m.New config layout input output)
    (hlayout : config.layout = .ok layout) :
    m.dataItems = [] ∧ m.returnItems = [] ∧ m.dataStack.capacity = config.dataStackSize ∧
      m.returnStack.capacity = config.returnStackSize := by
  obtain ⟨hmax, -, -, hfits, rfl⟩ := Config.layout_eq_ok_iff.mp hlayout
  unfold maxCoreSize at hmax
  have hitems (memory : Memory) (lo : Nat) : memory.slice lo lo = [] := by
    simp [Memory.slice]
  have hcells : ∀ n ≤ config.coreSize, (UInt16.ofNat n).toNat = n :=
    fun n hn => Cell.toNat_ofNat (by omega)
  simp only [dataItems, returnItems, Stack.toList, Stack.size, Stack.capacity, dataStack,
    returnStack]
  rw [hnew.regs]
  simp only [Registers.initial, Nat.sub_self, Nat.add_zero, hitems, true_and]
  rw [hcells _ (by omega), hcells _ (by omega), hcells _ (by omega)]
  omega

theorem atStart_of_create (h : create config input output verbosity = .ok m) :
    m.AtStart config := by
  obtain ⟨layout, hlayout, hnew⟩ := new_of_create h
  obtain ⟨hdata, hreturn, hdataCapacity, hreturnCapacity⟩ := hnew.emptyStacks hlayout
  refine
    { runtime := fun r => ?_
      action := fun word op hword => (table_of_mem_numbered hnew hword).2.2
      find := fun word op hword => ?_
      here := hnew.here
      zero := fun i hle hlt => ?_
      size := hnew.size
      dataItems := hdata
      returnItems := hreturn
      dataCapacity := hdataCapacity
      returnCapacity := hreturnCapacity }
  · rw [← Array.getElem?_toList, hnew.table]
    cases r <;> rfl
  · have hfound := hnew.understands (Text.bytes word.name)
    obtain ⟨⟨word', op'⟩, hfirst, rfl⟩ :=
      Option.map_eq_some_iff.mp (Vocabulary.find?_numbered (word, op) hword)
    rw [hfirst] at hfound
    obtain ⟨r, hr, -, hcode⟩ := hfound
    exact ⟨r, hr, hcode⟩
  · rw [(create_memory h).2, Memory.cells_overlay_of_le (by rwa [Vocabulary.length_image])]
    simp [Memory.zeroed, hlt]

theorem sameWords_of_create (h : create config input output verbosity = .ok m)
    (h' : create config' input' output' verbosity' = .ok m') : m.SameWords m' := by
  obtain ⟨layout, hlayout, hnew⟩ := new_of_create h
  obtain ⟨layout', hlayout', hnew'⟩ := new_of_create h'
  have hhere : m'.regs.here = m.regs.here := UInt16.toNat_inj.mp (hnew'.here.trans hnew.here.symm)
  refine
    { table := Array.toList_inj.mp (hnew'.table.trans hnew.table.symm)
      here := hhere
      latest := ?_
      memory := fun i hi => ?_ }
  · obtain ⟨word, hlast⟩ : ∃ word, Vocabulary.builtins.getLast? = some word := ⟨_, rfl⟩
    have hlatest := hnew.latest word hlast
    have hlatest' := hnew'.latest word hlast
    rw [hhere] at hlatest'
    exact UInt16.toNat_inj.mp (by omega)
  · obtain ⟨hsuffices, hmemory⟩ := create_memory h
    obtain ⟨hsuffices', hmemory'⟩ := create_memory h'
    have hi₁ : i < config.coreSize := Nat.lt_of_lt_of_le hi (by have := hsuffices.2.2.2; omega)
    have hi₂ : i < config'.coreSize := Nat.lt_of_lt_of_le hi (by have := hsuffices'.2.2.2; omega)
    rw [hmemory, hmemory', Memory.cells_overlay, Memory.cells_overlay, Memory.size_zeroed,
      Memory.size_zeroed]
    simp [Memory.zeroed, hi₁, hi₂]

end Create

/-- **Starting up is exact, and the same for all configurations.** One number of cells, which is not
zero, decides: a configuration gives a machine exactly if its stacks are not empty, its memory is
not too large and what the stacks leave of it holds the reserved cells and that many more. Any other
configuration is refused, and for sizes that cannot be added up only if they cannot. New machines
differ in their sizes only: they have the same actions at the same opcodes and the same records in
the same cells, all other cells are zero, and the stacks are empty. -/
theorem create_exact :
    (0 < Vocabulary.cells ∧ Vocabulary.cells = (Vocabulary.builtins.map fun word =>
      3 + packedLength (Text.bytes word.name).length).sum) ∧
    (∀ config input output verbosity,
      ((∃ m, create config input output verbosity = .ok m) ↔
        config.coreSize ≤ maxCoreSize ∧ 1 ≤ config.dataStackSize ∧ 1 ≤ config.returnStackSize ∧
          dictionaryStart + Vocabulary.cells + config.dataStackSize + config.returnStackSize ≤
            config.coreSize) ∧
      ((¬ ∃ m, create config input output verbosity = .ok m) →
        ∃ e journal, create config input output verbosity = .error (e, journal) ∧
          (e = .sizeOverflow →
            hostRange ≤ dictionaryStart + (config.dataStackSize + config.returnStackSize)))) ∧
    (∀ config input output verbosity m, create config input output verbosity = .ok m →
      m.AtStart config ∧
      ∀ config' input' output' verbosity' m', create config' input' output' verbosity' = .ok m' →
        m.SameWords m') := by
  refine ⟨⟨Vocabulary.cells_pos, rfl⟩, fun config input output verbosity => ⟨exists_create_iff, ?_⟩,
    fun config input output verbosity m h => ⟨atStart_of_create h,
      fun config' input' output' verbosity' m' h' => sameWords_of_create h h'⟩⟩
  intro hnone
  cases h : create config input output verbosity with
  | ok m => exact absurd ⟨m, h⟩ hnone
  | error refusal =>
    obtain ⟨e, journal⟩ := refusal
    refine ⟨e, journal, rfl, ?_⟩
    rintro rfl
    exact overflow_of_create h

/-- The smallest configuration of all has one cell for each stack and none to spare; it knows the
same words as the default one, and with one cell less there is no machine. -/
theorem create_exact_smallest :
    (∃ m m', create ⟨779, 1, 1⟩ Source.empty {} .off = .ok m ∧
      create {} Source.empty {} .off = .ok m' ∧ m.AtStart ⟨779, 1, 1⟩ ∧ m'.AtStart {} ∧
      m.SameWords m' ∧ m.unused = 0) ∧
    ∃ e journal, create ⟨778, 1, 1⟩ Source.empty {} .off = .error (e, journal) ∧
      e ≠ .sizeOverflow := by
  obtain ⟨-, hiff, hstart⟩ := create_exact
  obtain ⟨m, hm⟩ := (hiff ⟨779, 1, 1⟩ Source.empty {} .off).1.mpr (by decide +kernel)
  obtain ⟨m', hm'⟩ := (hiff {} Source.empty {} .off).1.mpr (by decide +kernel)
  obtain ⟨hatStart, hsame⟩ := hstart _ _ _ _ m hm
  constructor
  · refine ⟨m, m', hm, hm', hatStart, (hstart _ _ _ _ m' hm').1, hsame _ _ _ _ m' hm', ?_⟩
    obtain ⟨layout, hlayout, hnew⟩ := new_of_create hm
    cases hlayout
    rw [hnew.unused_eq]
    decide +kernel
  · obtain ⟨e, journal, hrefused, hoverflow⟩ :=
      (hiff ⟨778, 1, 1⟩ Source.empty {} .off).2 fun hsome =>
        absurd ((hiff _ _ _ _).1.mp hsome) (by decide +kernel)
    exact ⟨e, journal, hrefused, fun he => absurd (hoverflow he) (by decide)⟩

end Machine

end CellForth
