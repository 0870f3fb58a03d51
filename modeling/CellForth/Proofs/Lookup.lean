import CellForth.Proofs.Links
import CellForth.Proofs.Machine

/-!
# The dictionary as a chain of records

Look-up follows links from the newest record until it meets the link zero, and it carries a
budget because a program may have tied the chain into a loop. `Memory.Chain` says that this has
not happened: the chain from an address ends, and all its records lie between the reserved cells
and a given bound. Such a chain repeats no record (`Memory.Chain.nodup`), so it is shorter than
memory and the budget is never used up; look-up is then a plain search through a list of
records, `Memory.search`.

`Machine.Intact` is the same of a machine, with the free end of its dictionary as the bound. It is
what keeps look-up apart from compilation: cells are added at the free end and above, so no record
that was there before is touched, and the record under construction is passed over because it is
hidden. A program that moves the end of the dictionary back over its own records, or writes to
their links, gives this up.
-/

namespace CellForth

/-- Are two names equal up to the case of ASCII letters? -/
def sameName (a b : List UInt8) : Bool :=
  a.map lowerCase = b.map lowerCase

/-! ### Chains -/

namespace Memory

/-- Links lead from an address to zero over the given records, newest first, and each of these
lies between the reserved cells and `bound`. -/
inductive Chain (memory : Memory) (bound : Nat) : Nat → List Record → Prop
  /-- The chain ends at the link zero. -/
  | nil : Chain memory bound 0 []
  /-- A record, and the chain from its link. -/
  | cons {r : Record} {rs : List Record} (hstart : dictionaryStart ≤ r.address)
    (hbody : r.body ≤ bound) (hrecord : memory.recordAt r.address = .ok r)
    (hrest : Chain memory bound r.link.toNat rs) : Chain memory bound r.address (r :: rs)

/-- The first visible record of that name among those given. -/
def search (memory : Memory) (name : List UInt8) : List Record → Except Fault (Option Record)
  | [] => .ok none
  | r :: rs =>
    match memory.answersTo r name with
    | .error e => .error e
    | .ok true => .ok (some r)
    | .ok false => memory.search name rs

theorem recordAt_of_some {memory : Memory} {address : Nat} {link header : Cell}
    (hlink : memory.cells[address]? = some link)
    (hheader : memory.cells[address + 1]? = some header) :
    memory.recordAt address = .ok ⟨address, link, header⟩ := by
  simp only [recordAt, get_of_some hlink, get_of_some hheader]
  rfl

namespace Chain

variable {memory memory' : Memory} {bound bound' address : Nat} {rs rs' : List Record}

/-- A chain is a way to the link zero. -/
theorem leads (h : memory.Chain bound address rs) : memory.Leads address rs 0 := by
  induction h with
  | nil => exact .nil 0
  | cons hstart _ hrecord _ ih =>
    unfold dictionaryStart at hstart
    exact .cons (by omega) hrecord ih

theorem mono (h : memory.Chain bound address rs) (hle : bound ≤ bound') :
    memory.Chain bound' address rs := by
  induction h with
  | nil => exact .nil
  | cons hstart hbody hrecord _ ih => exact .cons hstart (Nat.le_trans hbody hle) hrecord ih

theorem mem_bounds (h : memory.Chain bound address rs) :
    ∀ r ∈ rs, dictionaryStart ≤ r.address ∧ r.body ≤ bound := by
  induction h with
  | nil => simp
  | cons hstart hbody _ _ ih =>
    rw [List.forall_mem_cons]
    exact ⟨⟨hstart, hbody⟩, ih⟩

/-- A chain does not come back to an address. -/
theorem nodup (h : memory.Chain bound address rs) : (rs.map Record.address).Nodup :=
  h.leads.nodup_or_cyclic.resolve_right h.leads.not_cyclic

/-- A chain has fewer records than there are addresses below its bound. -/
theorem length_le (h : memory.Chain bound address rs) : rs.length ≤ bound - dictionaryStart := by
  have hsub : rs.map Record.address ⊆
      (List.range (bound - dictionaryStart)).map (dictionaryStart + ·) := by
    intro a ha
    obtain ⟨r, hr, rfl⟩ := List.mem_map.mp ha
    obtain ⟨hstart, hbody⟩ := h.mem_bounds r hr
    have hlt : r.address < r.body := by
      simp only [Record.body, Record.codeField, Record.nameAddress]
      omega
    exact List.mem_map.mpr ⟨r.address - dictionaryStart, List.mem_range.mpr (by omega), by omega⟩
  have hle := (List.subperm_of_subset h.nodup hsub).length_le
  simpa using hle

/-- With a budget for all its records, look-up along a chain is a search through them. -/
theorem findFrom_eq (h : memory.Chain bound address rs) (name : List UInt8) {budget : Nat}
    (hbudget : rs.length ≤ budget) :
    memory.findFrom name budget address = memory.search name rs := by
  induction h generalizing budget with
  | nil =>
    unfold findFrom
    rfl
  | @cons r rs hstart hbody hrecord _ ih =>
    have hne : r.address ≠ 0 := by
      unfold dictionaryStart at hstart
      omega
    rw [List.length_cons] at hbudget
    obtain ⟨budget, rfl⟩ := Nat.exists_eq_succ_of_ne_zero (n := budget) (by omega)
    unfold findFrom search
    simp only [hne, if_false, hrecord]
    cases memory.answersTo r name with
    | error e => rfl
    | ok b =>
      cases b with
      | true => rfl
      | false => exact ih (by omega)

/-- With a budget for all of them, the records along a chain are listed. -/
theorem recordsFrom_eq (h : memory.Chain bound address rs) {budget : Nat}
    (hbudget : rs.length ≤ budget) : memory.recordsFrom budget address = .ok rs := by
  induction h generalizing budget with
  | nil =>
    unfold recordsFrom
    rfl
  | @cons r rs hstart hbody hrecord _ ih =>
    have hne : r.address ≠ 0 := by
      unfold dictionaryStart at hstart
      omega
    rw [List.length_cons] at hbudget
    obtain ⟨budget, rfl⟩ := Nat.exists_eq_succ_of_ne_zero (n := budget) (by omega)
    have hrest : memory.recordsFrom budget r.link.toNat = .ok rs := ih (by omega)
    unfold recordsFrom
    simp only [hne, if_false, hrecord, hrest]

end Chain

/-- Along a chain that is a hidden record linked to itself, look-up fails. -/
theorem findFrom_of_loop {memory : Memory} {r : Record}
    (hrecord : memory.recordAt r.address = .ok r)
    (hhidden : r.isHidden = true) (hlink : r.link.toNat = r.address) (hne : r.address ≠ 0)
    (name : List UInt8) (budget : Nat) :
    memory.findFrom name budget r.address = .error .invalidMemoryAddress := by
  have hanswer : memory.answersTo r name = .ok false := if_pos hhidden
  induction budget with
  | zero =>
    unfold findFrom
    simp [hne, hrecord, hanswer]
  | succ budget ih =>
    unfold findFrom
    simp [hne, hrecord, hanswer, hlink, ih]

/-- What a search finds is among the records that are searched. -/
theorem mem_of_search {memory : Memory} {name : List UInt8} {rs : List Record} {r : Record}
    (h : memory.search name rs = .ok (some r)) : r ∈ rs := by
  induction rs with
  | nil => cases h
  | cons r₀ rs ih =>
    unfold search at h
    split at h
    · cases h
    · cases h
      exact List.mem_cons_self
    · exact List.mem_cons_of_mem _ (ih h)

/-! ### Look-up reads nothing above the chain -/

namespace AgreeBelow

variable {bound : Nat} {memory memory' : Memory}

theorem recordAt (h : AgreeBelow bound memory memory') {address : Nat}
    (haddress : address + 1 < bound) : memory.recordAt address = memory'.recordAt address := by
  unfold Memory.recordAt
  rw [h.get (Nat.lt_of_succ_lt haddress), h.get haddress]

theorem spells (h : AgreeBelow bound memory memory') {pos i : Nat} {name : List UInt8}
    (hpos : pos + packedLength (i + name.length) ≤ bound) :
    memory.spells pos i name = memory'.spells pos i name := by
  induction name generalizing i with
  | nil => rfl
  | cons c rest ih =>
    simp only [List.length_cons, packedLength] at hpos
    have hget : memory.get (pos + i / 2) = memory'.get (pos + i / 2) := h.get (by omega)
    have hbyte : memory.getByte pos i = memory'.getByte pos i := by
      unfold Memory.getByte
      rw [hget]
    have hrest := ih (i := i + 1) (by rw [packedLength]; omega)
    unfold Memory.spells
    rw [hbyte]
    cases memory'.getByte pos i with
    | error e => rfl
    | ok b => simp only [hrest]

theorem answersTo (h : AgreeBelow bound memory memory') {r : Record} (hbody : r.body ≤ bound)
    (name : List UInt8) : memory.answersTo r name = memory'.answersTo r name := by
  unfold Memory.answersTo Memory.isNamed
  by_cases hlength : r.nameLength = name.length
  · have hspells : memory.spells r.nameAddress 0 name = memory'.spells r.nameAddress 0 name := by
      refine h.spells ?_
      simp only [Record.body, Record.codeField] at hbody
      rw [Nat.zero_add, ← hlength]
      omega
    rw [hspells]
  · simp only [hlength, if_false]

theorem chain (h : AgreeBelow bound memory memory') {address : Nat} {rs : List Record}
    (hchain : memory'.Chain bound address rs) : memory.Chain bound address rs := by
  induction hchain with
  | nil => exact .nil
  | cons hstart hbody hrecord _ ih =>
    refine .cons hstart hbody ?_ ih
    rw [h.recordAt ?_, hrecord]
    simp only [Record.body, Record.codeField, Record.nameAddress] at hbody
    omega

theorem search (h : AgreeBelow bound memory memory') (name : List UInt8) {rs : List Record}
    (hrs : ∀ r ∈ rs, r.body ≤ bound) : memory.search name rs = memory'.search name rs := by
  induction rs with
  | nil => rfl
  | cons r rs ih =>
    rw [List.forall_mem_cons] at hrs
    unfold Memory.search
    rw [h.answersTo hrs.1, ih hrs.2]

end AgreeBelow

/-! ### Names in memory -/

theorem exists_getByte_iff {memory : Memory} {pos i : Nat} :
    (∃ b, memory.getByte pos i = .ok b) ↔ pos + i / 2 < memory.size := by
  unfold getByte
  constructor
  · rintro ⟨b, hb⟩
    split at hb
    · rename_i hc
      exact lt_size_of_some (get_eq_ok_iff.mp hc)
    · cases hb
  · intro hlt
    obtain ⟨c, hc, -⟩ := get_eq_ok_of_lt hlt
    rw [hc]
    exact ⟨_, rfl⟩

theorem exists_getBytes_iff {memory : Memory} {pos n : Nat} :
    (∃ bs, memory.getBytes pos n = .ok bs) ↔ n = 0 ∨ pos + packedLength n ≤ memory.size := by
  unfold packedLength
  constructor
  · rintro ⟨bs, hbs⟩
    by_cases hn : n = 0
    · exact .inl hn
    · -- The last byte is in the last cell.
      obtain ⟨hlength, hbytes⟩ := getByte_of_getBytes hbs
      have hbyte := hbytes (n - 1) _ (List.getElem?_eq_getElem (by omega))
      have hlast := exists_getByte_iff.mp ⟨_, hbyte⟩
      omega
  · intro h
    cases hbytes : memory.getBytes pos n with
    | ok bs => exact ⟨bs, rfl⟩
    | error e =>
      obtain ⟨i, hi, hbyte⟩ := exists_of_mapM_eq_error hbytes
      rw [List.mem_range] at hi
      obtain ⟨b, hb⟩ := exists_getByte_iff.mpr (show pos + i / 2 < memory.size by omega)
      cases hb.symm.trans hbyte

/-- The name of a record can be read unless memory ends before its code field. -/
theorem exists_recordName_iff {memory : Memory} {r : Record} (h : r.nameAddress ≤ memory.size) :
    (∃ name, memory.recordName r = .ok name) ↔ r.codeField ≤ memory.size := by
  refine exists_getBytes_iff.trans ⟨?_, .inr⟩
  rintro (hzero | hle)
  · rw [Record.codeField, hzero]
    exact h
  · exact hle

/-- Bytes in memory spell what they are, up to case. -/
theorem spells_of_bytes {memory : Memory} {pos : Nat} {bs : List UInt8}
    (h : ∀ i b, bs[i]? = some b → memory.getByte pos i = .ok b) {i : Nat} {name : List UInt8}
    (hlength : i + name.length = bs.length) :
    memory.spells pos i name = .ok (sameName (bs.drop i) name) := by
  induction name generalizing i with
  | nil =>
    rw [List.drop_of_length_le (by simpa using Nat.le_of_eq hlength.symm)]
    rfl
  | cons c rest ih =>
    rw [List.length_cons] at hlength
    have hlt : i < bs.length := by omega
    have hbyte := h i bs[i] (List.getElem?_eq_getElem hlt)
    have hdrop : bs.drop i = bs[i] :: bs.drop (i + 1) := List.drop_eq_getElem_cons hlt
    unfold spells
    simp only [hbyte, hdrop, ih (i := i + 1) (by omega), sameLetter, sameName, List.map_cons,
      List.cons.injEq]
    by_cases hletter : lowerCase bs[i] = lowerCase c
    · simp [hletter]
    · simp [hletter]

/-- A record answers to the bytes of its name, unless it is hidden. -/
theorem answersTo_of_bytes {memory : Memory} {r : Record} {bs : List UInt8}
    (hlength : r.nameLength = bs.length)
    (h : ∀ i b, bs[i]? = some b → memory.getByte r.nameAddress i = .ok b) (token : List UInt8) :
    memory.answersTo r token = .ok (!r.isHidden && sameName bs token) := by
  unfold answersTo isNamed
  cases r.isHidden with
  | true => rfl
  | false =>
    by_cases htoken : bs.length = token.length
    · have hspells : memory.spells r.nameAddress 0 token = .ok (sameName (bs.drop 0) token) :=
        spells_of_bytes h (by omega)
      simp [hlength, htoken, hspells]
    · have hne : sameName bs token = false := by
        refine decide_eq_false fun heq => htoken ?_
        simpa using congrArg List.length heq
      simp [hlength, htoken, hne]

theorem answersTo_of_packed {memory : Memory} {r : Record} {name : List UInt8}
    (hlength : r.nameLength = name.length)
    (hname : memory.Holds r.nameAddress (packCells name)) (token : List UInt8) :
    memory.answersTo r token = .ok (!r.isHidden && sameName name token) :=
  answersTo_of_bytes hlength (fun _ _ hb => getByte_of_packed hname hb) token

end Memory

/-! ### Headers -/

namespace Record

theorem nameLength_makeHeader {flags : Cell} {n : Nat} (hn : n ≤ maxNameLength) (address : Nat)
    (link : Cell) : nameLength ⟨address, link, makeHeader flags n⟩ = n := by
  have hflags : (immediateBit ||| hiddenBit) &&& nameMask = 0 := by decide
  have hmask : nameMask &&& nameMask = nameMask := by decide
  unfold maxNameLength at hn
  simp only [nameLength, makeHeader, Cell.or_and_distrib, UInt16.and_assoc, hflags, hmask,
    UInt16.and_zero, UInt16.zero_or]
  rw [UInt16.toNat_and, Cell.toNat_ofNat (by omega)]
  exact (Nat.and_two_pow_sub_one_eq_mod n 8).trans (Nat.mod_eq_of_lt (by omega))

theorem isHidden_makeHeader (flags : Cell) (n address : Nat) (link : Cell) :
    isHidden ⟨address, link, makeHeader flags n⟩ = (flags &&& hiddenBit != 0) := by
  have hflags : (immediateBit ||| hiddenBit) &&& hiddenBit = hiddenBit := by decide
  have hmask : nameMask &&& hiddenBit = 0 := by decide
  simp only [isHidden, makeHeader, Cell.or_and_distrib, UInt16.and_assoc, hflags, hmask,
    UInt16.and_zero, UInt16.or_zero]

theorem isImmediate_makeHeader (flags : Cell) (n address : Nat) (link : Cell) :
    isImmediate ⟨address, link, makeHeader flags n⟩ = (flags &&& immediateBit != 0) := by
  have hflags : (immediateBit ||| hiddenBit) &&& immediateBit = immediateBit := by decide
  have hmask : nameMask &&& immediateBit = 0 := by decide
  simp only [isImmediate, makeHeader, Cell.or_and_distrib, UInt16.and_assoc, hflags, hmask,
    UInt16.and_zero, UInt16.or_zero]

/-- Revealing a record takes the flag off its header, and nothing else. -/
theorem makeHeader_and_not_hiddenBit (flags : Cell) (n : Nat) :
    makeHeader flags n &&& ~~~hiddenBit = makeHeader (flags &&& ~~~hiddenBit) n := by
  have hflags : (immediateBit ||| hiddenBit) &&& ~~~hiddenBit =
      ~~~hiddenBit &&& (immediateBit ||| hiddenBit) := by decide
  have hmask : nameMask &&& ~~~hiddenBit = nameMask := by decide
  simp only [makeHeader, Cell.or_and_distrib, UInt16.and_assoc, hflags, hmask]

/-- Making a word immediate puts the flag into its header, and nothing else. -/
theorem makeHeader_or_immediateBit (flags : Cell) (n : Nat) :
    makeHeader flags n ||| immediateBit = makeHeader (flags ||| immediateBit) n := by
  have hflags : immediateBit &&& (immediateBit ||| hiddenBit) = immediateBit := by decide
  simp only [makeHeader, Cell.or_and_distrib, hflags, UInt16.or_assoc]
  rw [UInt16.or_comm immediateBit (_ &&& _)]

end Record

/-! ### A new record at the end of a chain -/

namespace Memory

variable {memory memory' : Memory} {address : Nat} {link header code : Cell}
  {name : List UInt8} {rs : List Record}

theorem recordAt_of_holds (hholds : memory.Holds address (Record.cells link header name code)) :
    memory.recordAt address = .ok ⟨address, link, header⟩ :=
  recordAt_of_some (hholds.cell (i := 0) rfl) (hholds.cell (i := 1) rfl)

/-- Another header leaves the rest of a record as it is. -/
theorem Holds.setHeader (hholds : memory.Holds address (Record.cells link header name code))
    (header' : Cell) :
    (memory.overlay (address + 1) [header']).Holds address
      (Record.cells link header' name code) := by
  intro i hi
  match i with
  | 0 => exact (cells_overlay_of_lt _ (Nat.lt_succ_self _)).trans (hholds.cell (i := 0) rfl)
  | 1 => exact cells_overlay_add (i := 0) Nat.one_pos (lt_size_of_some (hholds.cell (i := 1) rfl))
  | i + 2 =>
    rw [Record.length_cells] at hi
    refine (cells_overlay_of_le ?_).trans (hholds (i + 2) (by rwa [Record.length_cells]))
    rw [List.length_singleton]
    omega

theorem name_of_holds (hholds : memory.Holds address (Record.cells link header name code)) :
    memory.Holds (address + 2) (packCells name) :=
  hholds.tail.tail.left

section NewRecord

variable (hlength : Record.nameLength ⟨address, link, header⟩ = name.length)
include hlength

theorem codeField_of_holds (hholds : memory.Holds address (Record.cells link header name code)) :
    memory.cells[Record.codeField ⟨address, link, header⟩]? = some code := by
  have hcode := hholds.tail.tail.right.cell (i := 0) rfl
  rw [length_packCells] at hcode
  rw [Record.codeField, Record.nameAddress, hlength]
  exact hcode

theorem body_eq : Record.body ⟨address, link, header⟩ = address + Record.cellsFor name.length := by
  simp only [Record.body, Record.codeField, Record.nameAddress, hlength, Record.cellsFor]
  omega

/-- A record that is written at the bound of a chain, and linked to it, makes the chain longer. -/
theorem Chain.extend (hchain : memory.Chain address link.toNat rs)
    (hstart : dictionaryStart ≤ address) (hagree : AgreeBelow address memory' memory)
    (hholds : memory'.Holds address (Record.cells link header name code)) :
    memory'.Chain (address + Record.cellsFor name.length) address
      (⟨address, link, header⟩ :: rs) :=
  .cons hstart (Nat.le_of_eq (body_eq hlength)) (recordAt_of_holds hholds)
    ((hagree.chain hchain).mono (Nat.le_add_right _ _))

/-- The new record is found under its name unless it is hidden, and otherwise what was found
before. -/
theorem search_extend (hchain : memory.Chain address link.toNat rs)
    (hagree : AgreeBelow address memory' memory)
    (hholds : memory'.Holds address (Record.cells link header name code)) (token : List UInt8) :
    memory'.search token (⟨address, link, header⟩ :: rs) =
      if !Record.isHidden ⟨address, link, header⟩ && sameName name token then
        .ok (some ⟨address, link, header⟩)
      else memory.search token rs := by
  have hrest := hagree.search token fun r hr => (hchain.mem_bounds r hr).2
  rw [search, answersTo_of_packed hlength (name_of_holds hholds), hrest]
  cases !Record.isHidden ⟨address, link, header⟩ && sameName name token <;> rfl

end NewRecord

end Memory

/-! ### Intact dictionaries -/

namespace Machine

/-- The records of the machine's dictionary, newest first, form a chain that ends and that lies
below the free end. -/
def Intact (m : Machine) : Prop :=
  ∃ rs, m.memory.Chain m.regs.here.toNat m.regs.latest.toNat rs

/-- In an intact dictionary, look-up is a search through its records. -/
theorem find_eq_search {m : Machine} (h : m.WithinRegions) {bound : Nat} {rs : List Record}
    (hchain : m.memory.Chain bound m.regs.latest.toNat rs) (hbound : bound ≤ m.regs.here.toNat)
    (name : List UInt8) : m.find name = m.memory.search name rs := by
  have hlength := hchain.length_le
  have hhere := h.here_le_dataBase
  have hsize := h.dataBase_le_size
  exact hchain.findFrom_eq name (by omega)

/-- Look-up in an intact dictionary depends on its cells and on where it begins and ends. -/
theorem find_congr {m m' : Machine} (h : m.WithinRegions) (h' : m'.WithinRegions) (hm : m.Intact)
    (hlatest : m'.regs.latest = m.regs.latest) (hhere : m'.regs.here = m.regs.here)
    (hagree : Memory.AgreeBelow m.regs.here.toNat m'.memory m.memory) (token : List UInt8) :
    m'.find token = m.find token := by
  obtain ⟨rs, hchain⟩ := hm
  have hchain' := hagree.chain hchain
  rw [← hlatest, ← hhere] at hchain'
  rw [find_eq_search h' hchain' (Nat.le_refl _), find_eq_search h hchain (Nat.le_refl _)]
  exact hagree.search token fun r hr => (hchain.mem_bounds r hr).2

/-- The machine `m'` has, at the end of the dictionary of `m`, one more record, with perhaps more
cells behind it. -/
structure Grown (m m' : Machine) (name : List UInt8) (header code : Cell) : Prop where
  /-- The machine before. -/
  before : m.WithinRegions
  /-- The machine after. -/
  after : m'.WithinRegions
  /-- The new record is the newest. -/
  latest : m'.regs.latest = m.regs.here
  /-- The free end is behind the new record. -/
  here_le : m.regs.here.toNat + Record.cellsFor name.length ≤ m'.regs.here.toNat
  /-- The old dictionary is as it was. -/
  agree : Memory.AgreeBelow m.regs.here.toNat m'.memory m.memory
  /-- The header gives the length of the name. -/
  length : Record.nameLength ⟨m.regs.here.toNat, m.regs.latest, header⟩ = name.length
  /-- The record stands where the free end was. -/
  holds : m'.memory.Holds m.regs.here.toNat (Record.cells m.regs.latest header name code)

namespace Grown

variable {m m' : Machine} {name : List UInt8} {header code : Cell} (g : m.Grown m' name header code)
include g

/-- A dictionary stays intact when a record is added to it. -/
theorem intact (hm : m.Intact) : m'.Intact := by
  obtain ⟨rs, hchain⟩ := hm
  have hnew := hchain.extend g.length g.before.start_le_here g.agree g.holds
  unfold Intact
  rw [g.latest]
  exact ⟨_, hnew.mono g.here_le⟩

/-- In a dictionary with one more record, look-up finds that record under its name unless it is
hidden, and otherwise what it found before. -/
theorem find_eq (hm : m.Intact) (token : List UInt8) :
    m'.find token =
      if !Record.isHidden ⟨m.regs.here.toNat, m.regs.latest, header⟩ && sameName name token then
        .ok (some ⟨m.regs.here.toNat, m.regs.latest, header⟩)
      else m.find token := by
  obtain ⟨rs, hchain⟩ := hm
  have hnew := hchain.extend g.length g.before.start_le_here g.agree g.holds
  rw [find_eq_search g.before hchain (Nat.le_refl _) token,
    ← Memory.search_extend g.length hchain g.agree g.holds]
  exact find_eq_search g.after (g.latest ▸ hnew) g.here_le token

/-- Changing the flags in the header leaves the rest of the record as it is. -/
theorem setHeader {header' : Cell}
    (hlength : Record.nameLength ⟨m.regs.here.toNat, m.regs.latest, header'⟩ = name.length) :
    m.Grown { m' with memory := m'.memory.overlay (m.regs.here.toNat + 1) [header'] }
      name header' code := by
  have hsize : (m'.memory.overlay (m.regs.here.toNat + 1) [header']).size = m'.memory.size :=
    Memory.size_overlay ..
  refine { g with after := ?_, agree := ?_, length := hlength, holds := ?_ }
  · exact
      { g.after with
        returnLimit_eq := g.after.returnLimit_eq.trans hsize.symm
        size_le := Nat.le_trans (Nat.le_of_eq hsize) g.after.size_le }
  · exact (Memory.AgreeBelow.overlay m'.memory [header'] (Nat.le_succ _)).trans g.agree
  · exact g.holds.setHeader header'

theorem codeField :
    m'.memory.cells[Record.codeField ⟨m.regs.here.toNat, m.regs.latest, header⟩]? = some code :=
  Memory.codeField_of_holds g.length g.holds

/-- More cells behind the record leave it as it is. -/
theorem append {cs : List Cell} (hroom : cs.length ≤ m'.unused) :
    m.Grown (m'.append cs) name header code := by
  have hhere := g.after.toNat_here_append hroom
  have hle := g.here_le
  refine { g with after := g.after.append hroom, here_le := by omega, agree := ?_, holds := ?_ }
  · exact (Memory.AgreeBelow.overlay m'.memory cs (by omega)).trans g.agree
  · exact g.holds.of_overlay m'.memory (by rwa [Record.length_cells])

end Grown

theorem toNat_here_addRecord {m : Machine} (h : m.WithinRegions) {name : List UInt8}
    (code flags : Cell) (journal : Journal) (hroom : Record.cellsFor name.length ≤ m.unused) :
    (m.addRecord name code flags journal).regs.here.toNat =
      m.regs.here.toNat + Record.cellsFor name.length := by
  have hlength := Record.length_cells m.regs.latest (Record.makeHeader flags name.length) name code
  rw [← hlength] at hroom ⊢
  exact h.toNat_here_append hroom

/-- Adding a record adds a record. -/
theorem grown_addRecord {m : Machine} (h : m.WithinRegions) {name : List UInt8} (code flags : Cell)
    (journal : Journal) (hlen : name.length ≤ Record.maxNameLength)
    (hroom : Record.cellsFor name.length ≤ m.unused) :
    m.Grown (m.addRecord name code flags journal) name (Record.makeHeader flags name.length)
      code := by
  have hlength := Record.length_cells m.regs.latest (Record.makeHeader flags name.length) name code
  have hcells :
      (Record.cells m.regs.latest (Record.makeHeader flags name.length) name code).length ≤
      m.unused := by rwa [hlength]
  have hunused := h.here_add_unused
  have hsize := h.dataBase_le_size
  exact
    { before := h
      after := { h.append hcells with }
      latest := rfl
      here_le := Nat.le_of_eq (toNat_here_addRecord h code flags journal hroom).symm
      agree := Memory.AgreeBelow.overlay m.memory _ (Nat.le_refl _)
      length := Record.nameLength_makeHeader hlen _ _
      holds := Memory.Holds.overlay m.memory (by omega) }

/-- What look-up finds in an intact dictionary lies in it. -/
theorem Intact.bounds_of_find {m : Machine} (hm : m.Intact) (h : m.WithinRegions)
    {token : List UInt8} {r : Record} (hfind : m.find token = .ok (some r)) :
    dictionaryStart ≤ r.address ∧ r.body ≤ m.regs.here.toNat := by
  obtain ⟨rs, hchain⟩ := hm
  rw [find_eq_search h hchain (Nat.le_refl _)] at hfind
  exact hchain.mem_bounds r (Memory.mem_of_search hfind)

theorem Intact.bounds_of_find_le_size {m : Machine} (hm : m.Intact) (h : m.WithinRegions)
    {token : List UInt8} (r : Record) (hfind : m.find token = .ok (some r)) :
    dictionaryStart ≤ r.address ∧ r.body ≤ m.memory.size := by
  obtain ⟨hstart, hbody⟩ := hm.bounds_of_find h hfind
  exact ⟨hstart, Nat.le_trans hbody (Nat.le_trans h.here_le_dataBase h.dataBase_le_size)⟩

end Machine

/-- The header of a record can be changed. -/
theorem Exec.updateHeader_of_some {m : Machine} {address : Nat} {header : Cell} (hne : address ≠ 0)
    (hheader : m.memory.cells[headerAddress address]? = some header) (f : Cell → Cell) :
    updateHeader address f m =
      .ok () { m with memory := m.memory.overlay (headerAddress address) [f header] } := by
  unfold updateHeader
  refine Eq.trans (bind_of_ok (observe_of_ok (demand_of_pos hne))) ?_
  rw [bind_of_ok (fetch_of_some hheader)]
  exact put_of_lt _ (Memory.lt_size_of_some hheader)

/-- The header of the new record can be changed. -/
theorem Exec.updateHeader_of_grown {m m' : Machine} {name : List UInt8} {header code : Cell}
    (g : m.Grown m' name header code) (f : Cell → Cell) :
    updateHeader m.regs.here.toNat f m' =
      .ok () { m' with memory := m'.memory.overlay (m.regs.here.toNat + 1) [f header] } := by
  have hstart := g.before.start_le_here
  unfold dictionaryStart at hstart
  exact updateHeader_of_some (by omega) (g.holds.cell (i := 1) rfl) f

end CellForth
