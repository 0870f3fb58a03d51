import CellForth.Proofs.Lookup

/-!
# Records and strings are added as a whole

A record and a string take several cells of the dictionary, and a single check in front makes sure
of the room for all of them. So either nothing at all changes, or exactly these cells are written
and the free end moves behind them, and what was written can be read back: `Machine.AddsRecord` and
`Machine.AddsString`. Both operations are described in full by `Exec.allocation_exact`, with the one
fault that each refusal gives.
-/

namespace CellForth

namespace Machine

/-- From `m` to `m'` the dictionary has grown by `n` cells, and no other cell has changed. -/
structure Occupies (m m' : Machine) (n : Nat) : Prop where
  /-- The free end has moved by the number of cells. -/
  here_eq : m'.regs.here.toNat = m.regs.here.toNat + n
  /-- Only the cells that it has moved over can have changed. -/
  cells_eq : ∀ pos, ¬ (m.regs.here.toNat ≤ pos ∧ pos < m'.regs.here.toNat) →
    m'.memory.cells[pos]? = m.memory.cells[pos]?

/-- From `m` to `m'`, the record `r` has been added as the newest one, and it can be read back. -/
structure AddsRecord (m m' : Machine) (r : Record) (name : List UInt8) (code flags : Cell) :
    Prop where
  /-- The cells of the record are new, and no others have changed. -/
  occupies : m.Occupies m' (3 + packedLength name.length)
  /-- Of the registers, the free end and the newest record have changed. -/
  eq_with : m' = { m with
    memory := m'.memory
    regs := { m.regs with here := m'.regs.here, latest := m.regs.here }
    journal := m'.journal }
  /-- The record is where the dictionary has ended. -/
  address_eq : r.address = m.regs.here.toNat
  /-- It is linked to what was the newest record. -/
  link_eq : r.link = m.regs.latest
  /-- Of the flags, its header has the two that exist, and otherwise the length of the name. -/
  header_eq : r.header =
    (flags &&& (Record.immediateBit ||| Record.hiddenBit)) ||| UInt16.ofNat name.length
  /-- The length can be told from the flags. -/
  nameLength_eq : r.nameLength = name.length
  /-- The record is read back. -/
  recordAt_eq : m'.memory.recordAt r.address = .ok r
  /-- So is its name, whatever bytes it has. -/
  recordName_eq : m'.memory.recordName r = .ok name
  /-- So is its code field, the last of its cells. -/
  get_codeField : m'.memory.get r.codeField = .ok code
  /-- The body starts where the dictionary ends. -/
  body_eq : r.body = m'.regs.here.toNat

/-- From `m` to `m'`, a string has been added, and it can be read back. -/
structure AddsString (m m' : Machine) (bs : List UInt8) : Prop where
  /-- The cells of the string are new, and no others have changed. -/
  occupies : m.Occupies m' (1 + packedLength bs.length)
  /-- Of the registers, the free end has changed. -/
  eq_with : m' = { m with memory := m'.memory, regs := { m.regs with here := m'.regs.here } }
  /-- The length is read back. -/
  get_length : m'.memory.get m.regs.here.toNat = .ok (UInt16.ofNat bs.length)
  /-- It is the length, and not only a part of it. -/
  toNat_length : (UInt16.ofNat bs.length).toNat = bs.length
  /-- So are the bytes behind it. -/
  getBytes_eq : m'.memory.getBytes (m.regs.here.toNat + 1) bs.length = .ok bs

variable {m : Machine}

/-- Where there is room, a row of cells is all that is added with it. -/
theorem Ordered.occupies_append (h : m.Ordered) {cs : List Cell} (hroom : cs.length ≤ m.unused) :
    m.Occupies (m.append cs) cs.length where
  here_eq := h.toNat_here_append hroom
  cells_eq pos hpos := by
    rw [h.toNat_here_append hroom] at hpos
    show (m.memory.overlay m.regs.here.toNat cs).cells[pos]? = _
    rw [Memory.cells_overlay, if_neg (by omega)]

/-- Behind the addition, the cells are where the dictionary has ended. -/
theorem Ordered.holds_append (h : m.Ordered) {cs : List Cell} (hroom : cs.length ≤ m.unused) :
    (m.append cs).memory.Holds m.regs.here.toNat cs := by
  have hunused := h.here_add_unused
  have hsize := h.dataBase_le_size
  exact .overlay m.memory (by omega)

theorem Ordered.addsRecord (h : m.Ordered) {name : List UInt8} (code flags : Cell)
    (hlength : name.length ≤ Record.maxNameLength)
    (hroom : Record.cellsFor name.length ≤ m.unused) (journal : Journal) :
    m.AddsRecord (m.addRecord name code flags journal)
      ⟨m.regs.here.toNat, m.regs.latest, Record.makeHeader flags name.length⟩ name code flags := by
  let cs := Record.cells m.regs.latest (Record.makeHeader flags name.length) name code
  have hcs : cs.length = Record.cellsFor name.length := Record.length_cells ..
  have hfit : cs.length ≤ m.unused := by rwa [hcs]
  have hoccupies := h.occupies_append hfit
  have hholds : (m.addRecord name code flags journal).memory.Holds m.regs.here.toNat cs :=
    h.holds_append hfit
  have hname : Record.nameLength
      ⟨m.regs.here.toNat, m.regs.latest, Record.makeHeader flags name.length⟩ = name.length :=
    Record.nameLength_makeHeader hlength _ _
  -- The header keeps eight bits of the length, which are all of it.
  have hmask : UInt16.ofNat name.length &&& Record.nameMask = UInt16.ofNat name.length := by
    refine Cell.eq_of_toNat_eq ?_
    unfold Record.maxNameLength at hlength
    rw [UInt16.toNat_and, Cell.toNat_ofNat (by omega)]
    exact (Nat.and_two_pow_sub_one_eq_mod _ 8).trans (Nat.mod_eq_of_lt (by omega))
  exact
    { occupies := ⟨hoccupies.here_eq.trans (by rw [hcs]; rfl), hoccupies.cells_eq⟩
      eq_with := rfl
      address_eq := rfl
      link_eq := rfl
      header_eq := by rw [← hmask]; rfl
      nameLength_eq := hname
      recordAt_eq := Memory.recordAt_of_holds hholds
      recordName_eq := by
        unfold Memory.recordName
        rw [hname]
        exact Memory.getBytes_of_packed (Memory.name_of_holds hholds)
      get_codeField := Memory.get_of_some (Memory.codeField_of_holds hname hholds)
      body_eq := by
        rw [Memory.body_eq hname, ← hcs]
        exact hoccupies.here_eq.symm }

theorem Ordered.addsString (h : m.Ordered) {bs : List UInt8} (hlength : bs.length ≤ 65535)
    (hroom : 1 + packedLength bs.length ≤ m.unused) :
    m.AddsString (m.append (Memory.stringCells bs)) bs := by
  have hcells := Memory.length_stringCells bs
  have hfit : (Memory.stringCells bs).length ≤ m.unused := by rwa [hcells]
  have hholds := h.holds_append hfit
  exact
    { occupies := hcells ▸ h.occupies_append hfit
      eq_with := rfl
      get_length := Memory.get_of_some (hholds.cell (i := 0) rfl)
      toNat_length := Cell.toNat_ofNat (by omega)
      getBytes_eq := Memory.getBytes_of_packed hholds.tail }

end Machine

namespace Exec

variable {m : Machine} {name : List UInt8}

/-- The four ends of adding a record, of which every name and every amount of room has one. -/
theorem createRecord_cases (h : m.Ordered) (name : List UInt8) (code flags : Cell) :
    (name = [] ∧ createRecord name code flags m = .error .unexpectedEnd m) ∨
    ((name ≠ [] ∧ Record.maxNameLength < name.length) ∧
      createRecord name code flags m = .error .nameTooLong m) ∨
    ((name ≠ [] ∧ name.length ≤ Record.maxNameLength ∧ m.unused < Record.cellsFor name.length) ∧
      createRecord name code flags m = .error .dictionaryOverflow m) ∨
    ((name ≠ [] ∧ name.length ≤ Record.maxNameLength ∧ Record.cellsFor name.length ≤ m.unused) ∧
      ∃ r m', createRecord name code flags m = .ok r m' ∧ m.AddsRecord m' r name code flags) := by
  by_cases hne : name = []
  · subst hne
    exact .inl ⟨rfl, createRecord_of_nil code flags⟩
  · rcases Nat.lt_or_ge Record.maxNameLength name.length with hlong | hlength
    · exact .inr (.inl ⟨⟨hne, hlong⟩, createRecord_of_long code flags hlong⟩)
    · rcases Nat.lt_or_ge m.unused (Record.cellsFor name.length) with hfull | hroom
      · have hrefused := createRecord_of_full code flags hne hlength hfull
        exact .inr (.inr (.inl ⟨⟨hne, hlength, hfull⟩, hrefused⟩))
      · obtain ⟨journal, hok⟩ := createRecord_of_room h code flags hne hlength hroom
        have hadds := h.addsRecord code flags hlength hroom journal
        exact .inr (.inr (.inr ⟨⟨hne, hlength, hroom⟩, _, _, hok, hadds⟩))

/-- Which names are refused, and what a record is that is not. -/
theorem createRecord_iff (h : m.Ordered) (name : List UInt8) (code flags : Cell) :
    (createRecord name code flags m = .error .unexpectedEnd m ↔ name = []) ∧
    (createRecord name code flags m = .error .nameTooLong m ↔
      name ≠ [] ∧ Record.maxNameLength < name.length) ∧
    (createRecord name code flags m = .error .dictionaryOverflow m ↔
      name ≠ [] ∧ name.length ≤ Record.maxNameLength ∧ m.unused < Record.cellsFor name.length) ∧
    ((∃ r m', createRecord name code flags m = .ok r m') ↔
      name ≠ [] ∧ name.length ≤ Record.maxNameLength ∧ Record.cellsFor name.length ≤ m.unused) ∧
    (∀ e m', createRecord name code flags m = .error e m' → m' = m) ∧
    ∀ r m', createRecord name code flags m = .ok r m' → m.AddsRecord m' r name code flags := by
  rcases createRecord_cases h name code flags with ⟨hcase, heq⟩ | ⟨hcase, heq⟩ | ⟨hcase, heq⟩ |
    ⟨hcase, r, m', heq, hadds⟩
  · subst hcase
    rw [heq]
    simp [eq_comm]
  · have hle : ¬ name.length ≤ Record.maxNameLength := by omega
    simp [heq, hcase, hle, eq_comm]
  · have hlt : ¬ Record.maxNameLength < name.length := by omega
    have hroom : ¬ Record.cellsFor name.length ≤ m.unused := by omega
    simp [heq, hcase, hlt, hroom, eq_comm]
  · have hlt : ¬ Record.maxNameLength < name.length := by omega
    have hroom : ¬ m.unused < Record.cellsFor name.length := by omega
    rw [heq]
    simp [hcase, hlt, hroom, hadds]

/-- Which strings are refused, and what a string is that is not. -/
theorem compileString_iff (h : m.Ordered) (bs : List UInt8) :
    (compileString bs m = .error .dictionaryOverflow m ↔
      65535 < bs.length ∨ m.unused < 1 + packedLength bs.length) ∧
    ((∃ m', compileString bs m = .ok () m') ↔
      bs.length ≤ 65535 ∧ 1 + packedLength bs.length ≤ m.unused) ∧
    (∀ e m', compileString bs m = .error e m' → e = .dictionaryOverflow ∧ m' = m) ∧
    ∀ m', compileString bs m = .ok () m' → m.AddsString m' bs := by
  have heq := compileString_eq h bs
  split at heq
  · rename_i hfits
    have hrefused : ¬ (65535 < bs.length ∨ m.unused < 1 + packedLength bs.length) := by omega
    rw [heq]
    simp only [reduceCtorEq, hrefused, hfits, EStateM.Result.ok.injEq, true_and, exists_eq',
      and_self, false_imp_iff, implies_true, forall_eq']
    exact h.addsString hfits.1 hfits.2
  · rename_i hrefused
    have hbad : 65535 < bs.length ∨ m.unused < 1 + packedLength bs.length := by omega
    rw [heq]
    simp [hbad, hrefused, eq_comm]

/-- **A record or a string is added as a whole or not at all.** Of an ordered machine, a record is
refused for an empty name, else for one that is too long, else for want of room for all of it, and a
string for its length or for want of room. What is refused has changed nothing. What is added is all
that has changed, and it is read back as it was given. -/
theorem allocation_exact (h : m.Ordered) :
    (∀ (name : List UInt8) (code flags : Cell),
      (createRecord name code flags m = .error .unexpectedEnd m ↔ name = []) ∧
      (createRecord name code flags m = .error .nameTooLong m ↔ name ≠ [] ∧ 31 < name.length) ∧
      (createRecord name code flags m = .error .dictionaryOverflow m ↔
        name ≠ [] ∧ name.length ≤ 31 ∧
          m.regs.dataBase.toNat - m.regs.here.toNat < 3 + packedLength name.length) ∧
      ((∃ r m', createRecord name code flags m = .ok r m') ↔
        name ≠ [] ∧ name.length ≤ 31 ∧
          3 + packedLength name.length ≤ m.regs.dataBase.toNat - m.regs.here.toNat) ∧
      (∀ e m', createRecord name code flags m = .error e m' → m' = m) ∧
      ∀ r m', createRecord name code flags m = .ok r m' → m.AddsRecord m' r name code flags) ∧
    ∀ bs : List UInt8,
      (compileString bs m = .error .dictionaryOverflow m ↔
        65535 < bs.length ∨
          m.regs.dataBase.toNat - m.regs.here.toNat < 1 + packedLength bs.length) ∧
      ((∃ m', compileString bs m = .ok () m') ↔
        bs.length ≤ 65535 ∧
          1 + packedLength bs.length ≤ m.regs.dataBase.toNat - m.regs.here.toNat) ∧
      (∀ e m', compileString bs m = .error e m' → e = .dictionaryOverflow ∧ m' = m) ∧
      ∀ m', compileString bs m = .ok () m' → m.AddsString m' bs :=
  ⟨createRecord_iff h, compileString_iff h⟩

/-- A machine with 24 free cells, a name that is no text and all flags, and strings of the longest
length for which there is room and of one byte more. -/
theorem allocation_exact_of_small_machine :
    ∃ m : Machine, m.Ordered ∧ m.unused = 24 ∧
      (∃ r m', createRecord [195, 0, 255] 7 65535 m = .ok r m' ∧
        m.AddsRecord m' r [195, 0, 255] 7 65535) ∧
      createRecord (List.replicate 32 120) 7 0 m = .error .nameTooLong m ∧
      (∃ m', compileString (List.replicate 46 0) m = .ok () m' ∧
        m.AddsString m' (List.replicate 46 0)) ∧
      compileString (List.replicate 47 0) m = .error .dictionaryOverflow m := by
  let m := Machine.bare 300 ⟨280, 290, 300⟩ .empty {} .off
  have hm : m.Ordered := by constructor <;> decide +kernel
  obtain ⟨hrecords, hstrings⟩ := allocation_exact hm
  obtain ⟨-, -, -, hok, -, hadds⟩ := hrecords [195, 0, 255] 7 65535
  obtain ⟨r, m₁, hcreate⟩ := hok.mpr (by decide +kernel)
  obtain ⟨-, hfits, -, hbytes⟩ := hstrings (List.replicate 46 0)
  obtain ⟨m₂, hcompile⟩ := hfits.mpr (by decide +kernel)
  refine ⟨m, hm, by decide +kernel, ⟨r, m₁, hcreate, hadds r m₁ hcreate⟩, ?_,
    ⟨m₂, hcompile, hbytes m₂ hcompile⟩, ?_⟩
  · exact (hrecords (List.replicate 32 120) 7 0).2.1.mpr (by decide +kernel)
  · exact (hstrings (List.replicate 47 0)).1.mpr (by decide +kernel)

end Exec

end CellForth
