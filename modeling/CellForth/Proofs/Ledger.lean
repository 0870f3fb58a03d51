import CellForth.Proofs.Frames
import CellForth.Proofs.Regions
import Mathlib.Data.List.Chain
import Mathlib.Data.Nat.Bitwise

/-!
# The dictionary as a ledger

The records of a dictionary are cells among other cells, and what they say is spread over links,
header bits and packed bytes. A `Ledger` is the same without the cells: a list of entries, newest
first, each with its name, its code and its two flags. `Ledger.records` are the records that these
entries have to have, and `Ledger.lookup` is what a name means in a ledger.

`Ledger.StandsIn` says that a ledger is what stands in memory below a bound. Every entry ends
before the next newer one begins, so an entry is not touched by what is written behind it, and a
flag can be changed in one header without changing any other entry (`Ledger.StandsIn.mark`).

A `Book` is a ledger together with the definition that is open. `Machine.HasBook` ties it to a
machine, and the machine then answers all questions about its words as the book does
(`Machine.HasBook.presents`). A new machine has the book of the built-in words
(`Machine.create_hasBook`).
-/

namespace CellForth

/-! ### Flags -/

/-- A single bit of a cell is there or not. -/
theorem Cell.and_two_pow (c : Cell) {i : Nat} (hi : i < 16) :
    c &&& UInt16.ofNat (2 ^ i) = 0 ∨ c &&& UInt16.ofNat (2 ^ i) = UInt16.ofNat (2 ^ i) := by
  have hpow : (UInt16.ofNat (2 ^ i)).toNat = 2 ^ i :=
    toNat_ofNat (Nat.pow_lt_pow_right (by omega) hi)
  have hand : (c &&& UInt16.ofNat (2 ^ i)).toNat = (c.toNat.testBit i).toNat * 2 ^ i := by
    rw [UInt16.toNat_and, hpow, Nat.and_two_pow]
  cases hbit : c.toNat.testBit i with
  | false =>
    rw [hbit, Bool.toNat_false, Nat.zero_mul] at hand
    exact .inl (eq_of_toNat_eq hand)
  | true =>
    rw [hbit, Bool.toNat_true, Nat.one_mul] at hand
    exact .inr (eq_of_toNat_eq (hand.trans hpow.symm))

namespace Record

/-- The header bits of two flags. -/
def flagBits (immediate hidden : Bool) : Cell :=
  (if immediate then immediateBit else 0) ||| (if hidden then hiddenBit else 0)

theorem flagBits_or_immediateBit (immediate hidden : Bool) :
    flagBits immediate hidden ||| immediateBit = flagBits true hidden := by
  revert immediate hidden
  decide

theorem flagBits_and_not_hiddenBit (immediate hidden : Bool) :
    flagBits immediate hidden &&& ~~~hiddenBit = flagBits immediate false := by
  revert immediate hidden
  decide

theorem flagBits_and_immediateBit (immediate hidden : Bool) :
    (flagBits immediate hidden &&& immediateBit != 0) = immediate := by
  revert immediate hidden
  decide

theorem flagBits_and_hiddenBit (immediate hidden : Bool) :
    (flagBits immediate hidden &&& hiddenBit != 0) = hidden := by
  revert immediate hidden
  decide

/-- Of the flags that are given to a new record, the header keeps those that exist. -/
theorem makeHeader_flagBits (flags : Cell) (n : Nat) :
    makeHeader (flagBits (flags &&& immediateBit != 0) (flags &&& hiddenBit != 0)) n =
      makeHeader flags n := by
  have hkept (immediate hidden : Bool) :
      flagBits immediate hidden &&& (immediateBit ||| hiddenBit) =
      flagBits immediate hidden := by
    revert immediate hidden
    decide
  have hboth : flags &&& (immediateBit ||| hiddenBit) =
      (flags &&& immediateBit) ||| (flags &&& hiddenBit) := by
    apply UInt16.eq_of_toBitVec_eq
    simp [BitVec.and_or_distrib_left]
  have himmediate : flags &&& immediateBit = 0 ∨ flags &&& immediateBit = immediateBit :=
    Cell.and_two_pow flags (i := 15) (by omega)
  have hhidden : flags &&& hiddenBit = 0 ∨ flags &&& hiddenBit = hiddenBit :=
    Cell.and_two_pow flags (i := 14) (by omega)
  rw [makeHeader, makeHeader, hkept, hboth]
  rcases himmediate with himmediate | himmediate <;> rcases hhidden with hhidden | hhidden <;>
    rw [himmediate, hhidden] <;> rfl

end Record

/-! ### Entries -/

/-- What a record says, apart from its link. -/
structure Entry where
  /-- Where the record starts. -/
  address : Nat
  /-- The name of the word. -/
  name : List UInt8
  /-- What its code field holds. -/
  code : Cell
  /-- Does it run even while compiling? -/
  immediate : Bool
  /-- Does look-up pass it over? -/
  hidden : Bool
  deriving DecidableEq

namespace Entry

/-- The entry of a record that is created with the given flags. -/
def ofFlags (address : Nat) (name : List UInt8) (code flags : Cell) : Entry where
  address := address
  name := name
  code := code
  immediate := flags &&& Record.immediateBit != 0
  hidden := flags &&& Record.hiddenBit != 0

/-- The header of the entry's record. -/
def header (e : Entry) : Cell :=
  Record.makeHeader (Record.flagBits e.immediate e.hidden) e.name.length

/-- The last cell of the entry's record, which is its code field. -/
def codeField (e : Entry) : Nat :=
  e.address + 2 + packedLength e.name.length

/-- The entry's record, with a link to the given address. -/
def record (e : Entry) (link : Nat) : Record :=
  ⟨e.address, UInt16.ofNat link, e.header⟩

/-- The cells of the entry's record, with a link to the given address. -/
def cells (e : Entry) (link : Nat) : List Cell :=
  Record.cells (UInt16.ofNat link) e.header e.name e.code

/-- Is it a visible word of that name, up to the case of letters? -/
def answersTo (e : Entry) (name : List UInt8) : Bool :=
  !e.hidden && sameName e.name name

theorem header_ofFlags (address : Nat) (name : List UInt8) (code flags : Cell) :
    (ofFlags address name code flags).header = Record.makeHeader flags name.length :=
  Record.makeHeader_flagBits flags name.length

theorem lt_codeField (e : Entry) : e.address + 1 < e.codeField := by
  unfold codeField
  omega

theorem length_cells (e : Entry) (link : Nat) :
    e.address + (e.cells link).length = e.codeField + 1 := by
  rw [cells, Record.length_cells, Record.cellsFor, codeField]
  omega

theorem isHidden_record (e : Entry) (link : Nat) : (e.record link).isHidden = e.hidden :=
  (Record.isHidden_makeHeader ..).trans (Record.flagBits_and_hiddenBit ..)

theorem isImmediate_record (e : Entry) (link : Nat) : (e.record link).isImmediate = e.immediate :=
  (Record.isImmediate_makeHeader ..).trans (Record.flagBits_and_immediateBit ..)

section

variable {e : Entry} (hlength : e.name.length ≤ Record.maxNameLength) (link : Nat)
include hlength

theorem nameLength_record : (e.record link).nameLength = e.name.length :=
  Record.nameLength_makeHeader hlength _ _

theorem codeField_record : (e.record link).codeField = e.codeField := by
  rw [Record.codeField, nameLength_record hlength]
  rfl

end

end Entry

/-- A change to the flags of a record that exists. -/
inductive Mark where
  /-- It runs even while compiling from now on. -/
  | immediate
  /-- Look-up sees it from now on. -/
  | visible
  deriving DecidableEq

namespace Mark

/-- What becomes of an entry. -/
def apply : Mark → Entry → Entry
  | immediate, e => { e with immediate := true }
  | visible, e => { e with hidden := false }

/-- What becomes of a header. -/
def set : Mark → Cell → Cell
  | immediate => (· ||| Record.immediateBit)
  | visible => (· &&& ~~~Record.hiddenBit)

@[simp] theorem address_apply (mark : Mark) (e : Entry) : (mark.apply e).address = e.address := by
  cases mark <;> rfl

@[simp] theorem name_apply (mark : Mark) (e : Entry) : (mark.apply e).name = e.name := by
  cases mark <;> rfl

@[simp] theorem code_apply (mark : Mark) (e : Entry) : (mark.apply e).code = e.code := by
  cases mark <;> rfl

/-- The header bits do what they stand for. -/
theorem header_apply (mark : Mark) (e : Entry) : (mark.apply e).header = mark.set e.header := by
  cases mark with
  | immediate =>
    refine Eq.trans ?_ (Record.makeHeader_or_immediateBit _ _).symm
    rw [Record.flagBits_or_immediateBit]
    rfl
  | visible =>
    refine Eq.trans ?_ (Record.makeHeader_and_not_hiddenBit _ _).symm
    rw [Record.flagBits_and_not_hiddenBit]
    rfl

end Mark

/-! ### Ledgers -/

/-- The entries of a dictionary, newest first. -/
abbrev Ledger := List Entry

namespace Ledger

/-- Where the newest record starts, or zero. -/
def newest : Ledger → Nat
  | [] => 0
  | e :: _ => e.address

/-- Where the records start. -/
def addresses (es : Ledger) : List Nat :=
  es.map Entry.address

/-- The records of the entries, each linked to the one before it and the first to zero. -/
def records : Ledger → List Record
  | [] => []
  | e :: es => e.record (newest es) :: records es

/-- The newest visible record of that name, up to the case of letters. -/
def lookup (name : List UInt8) : Ledger → Option Record
  | [] => none
  | e :: es => if e.answersTo name then some (e.record (newest es)) else lookup name es

/-- The ledger after a change to the flags of the record at an address. -/
def mark (address : Nat) (mark : Mark) (es : Ledger) : Ledger :=
  es.map fun e => if e.address = address then mark.apply e else e

@[simp] theorem addresses_mark (address : Nat) (mark : Mark) (es : Ledger) :
    (es.mark address mark).addresses = es.addresses := by
  rw [addresses, Ledger.mark, List.map_map]
  refine List.map_congr_left fun e _ => ?_
  rw [Function.comp_apply]
  split <;> simp

@[simp] theorem newest_mark (address : Nat) (mark : Mark) (es : Ledger) :
    (es.mark address mark).newest = es.newest := by
  cases es with
  | nil => rfl
  | cons e es =>
    simp only [Ledger.mark, List.map_cons, newest]
    split <;> simp

theorem mark_of_not_mem {address : Nat} {es : Ledger} (mark : Mark) (h : address ∉ es.addresses) :
    es.mark address mark = es := by
  have hsame : ∀ e ∈ es, (if e.address = address then mark.apply e else e) = e :=
    fun e he => if_neg fun heq => h (List.mem_map.mpr ⟨e, he, heq⟩)
  exact (List.map_congr_left hsame).trans (List.map_id' es)

theorem mark_cons_self {e : Entry} {es : Ledger} (mark : Mark) (h : e.address ∉ es.addresses) :
    Ledger.mark e.address mark (e :: es) = mark.apply e :: es := by
  rw [Ledger.mark, List.map_cons, if_pos rfl]
  exact congrArg (_ :: ·) (mark_of_not_mem mark h)

/-- What a name means is a visible entry of that name. -/
theorem exists_of_lookup {name : List UInt8} {es : Ledger} {r : Record}
    (h : es.lookup name = some r) :
    ∃ e ∈ es, e.answersTo name = true ∧ ∃ link, r = e.record link := by
  induction es with
  | nil => cases h
  | cons e es ih =>
    rw [lookup] at h
    split at h
    · rename_i hanswer
      cases h
      exact ⟨e, List.mem_cons_self, hanswer, newest es, rfl⟩
    · obtain ⟨e', he', hanswer⟩ := ih h
      exact ⟨e', List.mem_cons_of_mem _ he', hanswer⟩

/-- Each link leads to the next record, and the last to none. -/
theorem records_linked (es : Ledger) (hsmall : ∀ a ∈ es.addresses, a < 65536) :
    es.records.IsChain (fun r r' => r.link.toNat = r'.address) ∧
      ∀ r ∈ es.records.getLast?, r.link = 0 := by
  induction es with
  | nil => exact ⟨.nil, by simp [records]⟩
  | cons e es ih =>
    rw [addresses, List.map_cons, List.forall_mem_cons] at hsmall
    obtain ⟨hchain, hlast⟩ := ih hsmall.2
    cases es with
    | nil => exact ⟨.singleton _, by simp [records, newest, Entry.record]⟩
    | cons e' es =>
      rw [List.map_cons, List.forall_mem_cons] at hsmall
      refine ⟨.cons_cons ?_ hchain, by simpa [records] using hlast⟩
      exact Cell.toNat_ofNat hsmall.2.1

/-! ### Ledgers in memory -/

/-- The ledger stands in memory below a bound: each entry ends before the next newer one begins, and
its record is linked to the one before it. -/
inductive StandsIn (memory : Memory) : Nat → Ledger → Prop
  /-- Nothing is said of memory. -/
  | nil {bound : Nat} : StandsIn memory bound []
  /-- The newest record, and the others below it. -/
  | cons {bound : Nat} {e : Entry} {es : Ledger} (hstart : dictionaryStart ≤ e.address)
    (hlength : e.name.length ≤ Record.maxNameLength) (hcode : e.codeField < bound)
    (hholds : memory.Holds e.address (e.cells es.newest)) (hrest : StandsIn memory e.address es) :
    StandsIn memory bound (e :: es)

namespace StandsIn

variable {memory memory' : Memory} {bound bound' : Nat} {es : Ledger}

theorem mono (h : es.StandsIn memory bound) (hle : bound ≤ bound') : es.StandsIn memory bound' := by
  cases h with
  | nil => exact .nil
  | cons hstart hlength hcode hholds hrest =>
    exact .cons hstart hlength (Nat.lt_of_lt_of_le hcode hle) hholds hrest

/-- What is written above the bound does not matter. -/
theorem congr (h : es.StandsIn memory bound) (hagree : Memory.AgreeBelow bound memory' memory) :
    es.StandsIn memory' bound := by
  induction h with
  | nil => exact .nil
  | @cons bound e es hstart hlength hcode hholds _ ih =>
    have hlt := e.lt_codeField
    have hend := e.length_cells es.newest
    exact .cons hstart hlength hcode (hagree.holds hholds (by omega)) (ih (hagree.mono (by omega)))

theorem mem_bounds (h : es.StandsIn memory bound) :
    ∀ e ∈ es, dictionaryStart ≤ e.address ∧ e.codeField < bound := by
  induction h with
  | nil => simp
  | @cons bound e es hstart _ hcode _ _ ih =>
    have hlt := e.lt_codeField
    rintro e' (_ | ⟨_, he'⟩)
    · exact ⟨hstart, hcode⟩
    · obtain ⟨hstart', hcode'⟩ := ih e' he'
      exact ⟨hstart', by omega⟩

theorem address_lt (h : es.StandsIn memory bound) {address : Nat} (hmem : address ∈ es.addresses) :
    dictionaryStart ≤ address ∧ address + 1 < bound := by
  obtain ⟨e, he, rfl⟩ := List.mem_map.mp hmem
  obtain ⟨hstart, hcode⟩ := h.mem_bounds e he
  have hlt := e.lt_codeField
  exact ⟨hstart, by omega⟩

/-- No two records start at the same address. -/
theorem nodup (h : es.StandsIn memory bound) : es.addresses.Nodup := by
  induction h with
  | nil => exact List.nodup_nil
  | cons _ _ _ _ hrest ih =>
    refine List.nodup_cons.mpr ⟨fun hmem => ?_, ih⟩
    have hlt := hrest.address_lt hmem
    omega

theorem newest_lt (h : es.StandsIn memory bound) (hpos : 0 < bound) : es.newest < bound := by
  cases h with
  | nil => exact hpos
  | @cons _ e _ _ _ hcode _ _ =>
    have hlt := e.lt_codeField
    exact Nat.lt_trans (Nat.lt_of_succ_lt hlt) hcode

/-- A ledger in memory is a chain of its records. -/
theorem chain (h : es.StandsIn memory bound) (hbound : bound ≤ 65536) :
    memory.Chain bound es.newest es.records := by
  induction h with
  | nil => exact .nil
  | @cons bound e es hstart hlength hcode hholds hrest ih =>
    have hlt := e.lt_codeField
    have hpos : 0 < e.address := Nat.lt_of_lt_of_le (by decide) hstart
    have hlink : (e.record es.newest).link.toNat = es.newest := by
      have hnewest := hrest.newest_lt hpos
      exact Cell.toNat_ofNat (by omega)
    refine .cons (r := e.record es.newest) hstart ?_ (Memory.recordAt_of_holds hholds) ?_
    · rw [Record.body, Entry.codeField_record hlength]
      exact hcode
    · rw [hlink]
      exact (ih (by omega)).mono (by omega)

/-- The name of an entry stands packed in its record. -/
theorem name_of_holds {e : Entry} {link : Nat} (hholds : memory.Holds e.address (e.cells link)) :
    memory.Holds (e.record link).nameAddress (Memory.packCells e.name) :=
  Memory.name_of_holds hholds

/-- Looking a name up in memory finds what the ledger says. -/
theorem search_eq (h : es.StandsIn memory bound) (name : List UInt8) :
    memory.search name es.records = .ok (es.lookup name) := by
  induction h with
  | nil => rfl
  | @cons bound e es hstart hlength hcode hholds _ ih =>
    have hanswer : memory.answersTo (e.record es.newest) name = .ok (e.answersTo name) := by
      rw [Memory.answersTo_of_packed (Entry.nameLength_record hlength _) (name_of_holds hholds),
        Entry.isHidden_record]
      rfl
    rw [records, Memory.search, hanswer, ih, lookup]
    cases e.answersTo name <;> rfl

end StandsIn

end Ledger

/-- The record is what the entry says, and memory holds what it describes. -/
structure Memory.Decodes (memory : Memory) (e : Entry) (r : Record) : Prop where
  /-- It stands at the entry's address. -/
  recordAt : memory.recordAt e.address = .ok r
  /-- It has the entry's name. -/
  name : memory.recordName r = .ok e.name
  /-- Its code field holds the entry's code. -/
  code : memory.get r.codeField = .ok e.code
  /-- It is immediate if the entry is. -/
  immediate : r.isImmediate = e.immediate
  /-- It is hidden if the entry is. -/
  hidden : r.isHidden = e.hidden

namespace Ledger.StandsIn

variable {memory memory' : Memory} {bound bound' : Nat} {es : Ledger}

/-- Every record decodes to its entry. -/
theorem decodes (h : es.StandsIn memory bound) : List.Forall₂ memory.Decodes es es.records := by
  induction h with
  | nil => exact .nil
  | @cons bound e es hstart hlength hcode hholds _ ih =>
    refine .cons ?_ ih
    have hnameLength := Entry.nameLength_record hlength es.newest
    constructor
    · exact Memory.recordAt_of_holds hholds
    · rw [Memory.recordName, hnameLength]
      exact Memory.getBytes_of_packed (name_of_holds hholds)
    · exact Memory.get_of_some (Memory.codeField_of_holds hnameLength hholds)
    · exact e.isImmediate_record es.newest
    · exact e.isHidden_record es.newest

/-- The record of an entry can be read. -/
theorem exists_holds (h : es.StandsIn memory bound) {address : Nat}
    (hmem : address ∈ es.addresses) :
    ∃ (e : Entry) (link : Nat), e.address = address ∧ e.name.length ≤ Record.maxNameLength ∧
      memory.Holds address (e.cells link) := by
  induction h with
  | nil => cases hmem
  | @cons bound e es _ hlength _ hholds _ ih =>
    rcases List.mem_cons.mp hmem with rfl | hin
    · exact ⟨e, es.newest, rfl, hlength, hholds⟩
    · exact ih hin

/-- Older records end before newer ones begin. -/
theorem pairwise (h : es.StandsIn memory bound) (hbound : bound ≤ 65536) :
    es.records.Pairwise fun r r' => r'.codeField < r.address := by
  induction h with
  | nil => exact .nil
  | @cons bound e es hstart hlength hcode hholds hrest ih =>
    have hlt := e.lt_codeField
    refine .cons (fun r hr => ?_) (ih (by omega))
    exact ((hrest.chain (by omega)).mem_bounds r hr).2

/-- A flag can be changed in the header of one record, and only its entry changes. -/
theorem mark (h : es.StandsIn memory bound) {address : Nat} (hmem : address ∈ es.addresses)
    (mark : Mark) :
    ∃ header, memory.cells[headerAddress address]? = some header ∧
      (es.mark address mark).StandsIn (memory.overlay (headerAddress address) [mark.set header])
        bound := by
  induction h with
  | nil => cases hmem
  | @cons bound e es hstart hlength hcode hholds hrest ih =>
    by_cases heq : e.address = address
    · -- It is the newest record. The others are below its header, and none has its address.
      subst heq
      have hnot : e.address ∉ es.addresses := fun hin => by
        have hlt := hrest.address_lt hin
        omega
      have hcell : memory.cells[headerAddress e.address]? = some e.header :=
        hholds.cell (i := 1) rfl
      have hbelow := Memory.AgreeBelow.overlay memory [mark.set e.header]
        (Nat.le_succ e.address)
      refine ⟨e.header, hcell, ?_⟩
      rw [mark_cons_self mark hnot]
      refine .cons ?_ ?_ ?_ ?_ ?_
      · rwa [Mark.address_apply]
      · rwa [Mark.name_apply]
      · simpa [Entry.codeField] using hcode
      · simpa [Entry.cells, Mark.header_apply, headerAddress] using
          hholds.setHeader (mark.set e.header)
      · rw [Mark.address_apply]
        exact hrest.congr hbelow
    · -- It is an older record, whose header is below the newest one.
      have hin : address ∈ es.addresses := by
        rcases List.mem_cons.mp hmem with rfl | hin
        · exact absurd rfl heq
        · exact hin
      obtain ⟨header, hcell, hstands⟩ := ih hin
      have hbefore := hrest.address_lt hin
      refine ⟨header, hcell, ?_⟩
      have hmark : Ledger.mark address mark (e :: es) = e :: Ledger.mark address mark es := by
        rw [Ledger.mark, List.map_cons, if_neg heq]
        rfl
      rw [hmark]
      refine .cons hstart hlength hcode ?_ hstands
      rw [newest_mark]
      refine hholds.congr fun i hi _ => Memory.cells_overlay_of_le ?_
      rw [headerAddress, List.length_singleton]
      omega

end Ledger.StandsIn

/-! ### Books -/

/-- A ledger, and the address of the definition that is open, if one is. -/
structure Book where
  /-- The entries, newest first. -/
  ledger : Ledger
  /-- Where the record of the open definition starts. -/
  opened : Option Nat

/-- What the words of a machine look like from outside, told by a book. -/
structure Machine.Presents (m : Machine) (book : Book) : Prop where
  /-- The list of words is that of the book. -/
  records : m.records = .ok book.ledger.records
  /-- Every record is what its entry says. -/
  decodes : List.Forall₂ m.memory.Decodes book.ledger book.ledger.records
  /-- Links lead from each record to the next older one. -/
  linked : book.ledger.records.IsChain fun r r' => r.link.toNat = r'.address
  /-- The oldest record is linked to zero. -/
  last : ∀ r ∈ book.ledger.records.getLast?, r.link = 0
  /-- Older records end before newer ones begin. -/
  disjoint : book.ledger.records.Pairwise fun r r' => r'.codeField < r.address
  /-- All records are in the dictionary. -/
  bounds : ∀ r ∈ book.ledger.records,
    dictionaryStart ≤ r.address ∧ r.codeField < m.regs.here.toNat
  /-- A name means what it means in the book. -/
  find : ∀ name, m.find name = .ok (book.ledger.lookup name)

/-- The machine's dictionary is what the book says. -/
structure Machine.HasBook (m : Machine) (book : Book) : Prop where
  /-- The machine is within its regions. -/
  within : m.WithinRegions
  /-- The newest record is that of the newest entry. -/
  latest_eq : m.regs.latest.toNat = book.ledger.newest
  /-- The entries stand in the dictionary. -/
  stands : book.ledger.StandsIn m.memory m.regs.here.toNat
  /-- The open definition is that of the book. -/
  defining_eq : m.regs.defining.toNat = book.opened.getD 0
  /-- The open definition has an entry. -/
  opened_mem : ∀ address ∈ book.opened, address ∈ book.ledger.addresses

namespace Machine.HasBook

variable {m m' : Machine} {book : Book}

theorem here_le_size (h : m.HasBook book) : m.regs.here.toNat ≤ m.memory.size :=
  Nat.le_trans h.within.here_le_dataBase h.within.dataBase_le_size

theorem chain (h : m.HasBook book) :
    m.memory.Chain m.regs.here.toNat m.regs.latest.toNat book.ledger.records := by
  rw [h.latest_eq]
  exact h.stands.chain (Nat.le_of_lt m.regs.here.toNat_lt)

/-- A machine that has a book presents it. -/
theorem presents (h : m.HasBook book) : m.Presents book := by
  have hhere := m.regs.here.toNat_lt
  have hlinked := book.ledger.records_linked fun a ha => by
    have := h.stands.address_lt ha
    omega
  constructor
  · have hlength := h.chain.length_le
    have hsize := h.here_le_size
    exact h.chain.recordsFrom_eq (by omega)
  · exact h.stands.decodes
  · exact hlinked.1
  · exact hlinked.2
  · exact h.stands.pairwise (Nat.le_of_lt hhere)
  · exact h.chain.mem_bounds
  · intro name
    rw [find_eq_search h.within h.chain (Nat.le_refl _)]
    exact h.stands.search_eq name

/-- What is written behind the dictionary does not matter, and neither does where it ends, unless it
ends earlier. -/
theorem of_agree (h : m.HasBook book) (hwithin : m'.WithinRegions)
    (hlatest : m'.regs.latest = m.regs.latest) (hdefining : m'.regs.defining = m.regs.defining)
    (hhere : m.regs.here.toNat ≤ m'.regs.here.toNat)
    (hagree : Memory.AgreeBelow m.regs.here.toNat m'.memory m.memory) : m'.HasBook book where
  within := hwithin
  latest_eq := by rw [hlatest, h.latest_eq]
  stands := (h.stands.congr hagree).mono hhere
  defining_eq := by rw [hdefining, h.defining_eq]
  opened_mem := h.opened_mem

theorem deviceFree (book : Book) : DeviceFree (·.HasBook book) :=
  fun _ _ _ _ _ h => { h with within := { h.within with } }

/-! ### Operations that leave the book alone -/

theorem append (h : m.HasBook book) {cs : List Cell} (hroom : cs.length ≤ m.unused) :
    (m.append cs).HasBook book := by
  have hhere := h.within.toNat_here_append hroom
  exact h.of_agree (h.within.append hroom) rfl rfl (by omega)
    (.overlay m.memory cs (Nat.le_refl _))

theorem compileCell (c : Cell) : Keeps (·.HasBook book) (Exec.compileCell c) := by
  intro m h
  rw [Exec.compileCell_eq h.within.ordered]
  split
  · rename_i hroom
    exact h.append hroom
  · exact h

theorem compileString (bs : List UInt8) : Keeps (·.HasBook book) (Exec.compileString bs) := by
  intro m h
  rw [Exec.compileString_eq h.within.ordered]
  split
  · rename_i hroom
    refine h.append ?_
    rw [Memory.length_stringCells]
    exact hroom.2
  · exact h

theorem compileInteger (c : Cell) : Keeps (·.HasBook book) (Exec.compileInteger c) :=
  .bind (compileCell _) fun _ => compileCell c

theorem compileReference (r : Record) : Keeps (·.HasBook book) (Exec.compileReference r) :=
  .bind (.observe _) fun _ => .ite (compileCell _) (compileCell _)

/-- The dictionary may be made longer. -/
theorem allot {n : Int} (hn : 0 ≤ n) : Keeps (·.HasBook book) (Exec.allot n) := by
  intro m h
  have hwithin := Elementary.withinRegions.allot n m h.within
  rw [Exec.allot_eq] at hwithin ⊢
  split
  · rename_i hle
    split
    · rename_i hstart
      rw [if_pos hle, if_pos hstart] at hwithin
      refine h.of_agree hwithin rfl rfl ?_ (.refl _ _)
      have hlt := m.regs.dataBase.toNat_lt
      have hhere : (UInt16.ofNat ((m.regs.here.toNat : Int) + n).toNat).toNat =
          ((m.regs.here.toNat : Int) + n).toNat := Cell.toNat_ofNat (by omega)
      show _ ≤ (UInt16.ofNat ((m.regs.here.toNat : Int) + n).toNat).toNat
      omega
    · exact h
  · exact h

theorem replaceData (h : m.HasBook book) {n : Nat} {vs : List Cell}
    (hfits : m.dataStack.Fits n vs) : (m.replaceData n vs).HasBook book := by
  have hhere := h.within.here_le_dataBase
  refine h.of_agree (h.within.replaceData hfits) rfl rfl (Nat.le_refl _) fun i hi => ?_
  exact h.within.cells_replaceData hfits (.inl (by omega))

theorem replaceReturn (h : m.HasBook book) {n : Nat} {vs : List Cell}
    (hfits : m.returnStack.Fits n vs) : (m.replaceReturn n vs).HasBook book := by
  have hhere := h.within.here_le_dataBase
  have hdata : m.regs.dataBase.toNat ≤ m.regs.returnBase.toNat := by
    rw [← h.within.dataLimit_eq]
    exact Nat.le_trans h.within.dataBase_le_sp h.within.sp_le_dataLimit
  refine h.of_agree (h.within.replaceReturn hfits) rfl rfl (Nat.le_refl _) fun i hi => ?_
  exact h.within.cells_replaceReturn hfits (by omega)

variable {α : Type} {op : StackM α}

theorem onData (hop : Stack.Replaces op) : Keeps (·.HasBook book) (Exec.onData op) :=
  Exec.keeps_onData (fun _ h => h.within.dataStack) (fun _ _ _ h => h.replaceData) hop

theorem onReturn (hop : Stack.Replaces op) : Keeps (·.HasBook book) (Exec.onReturn op) := by
  intro m h
  obtain ⟨e, he⟩ | ⟨a, n, vs, hfits, hok⟩ := hop m.returnStack h.within.returnStack
  · rw [Exec.onReturn_of_error he]
    exact h
  · rw [Exec.onReturn_of_ok hok]
    exact h.replaceReturn hfits

theorem pop : Keeps (·.HasBook book) Exec.pop := onData Stack.drops_pop.replaces

theorem pushControl (address : Cell) (tag : ControlTag) :
    Keeps (·.HasBook book) (Exec.pushControl address tag) :=
  onData (Stack.replaces_pushTwo _ _)

theorem popControl (tag : ControlTag) : Keeps (·.HasBook book) (Exec.popControl tag) :=
  .bind (.observe _) fun _ => .bind (onData (Stack.drops_pick 0).replaces) fun _ =>
    .bind (.settle _) fun _ => .bind pop fun _ => pop

/-! ### Operations that change the book -/

/-- A new record becomes the newest entry. -/
theorem grown (h : m.HasBook book) {e : Entry} (haddress : e.address = m.regs.here.toNat)
    (hlength : e.name.length ≤ Record.maxNameLength) (g : m.Grown m' e.name e.header e.code)
    (hdefining : m'.regs.defining = m.regs.defining) :
    m'.HasBook { book with ledger := e :: book.ledger } := by
  have hlink : UInt16.ofNat book.ledger.newest = m.regs.latest := by
    rw [← h.latest_eq, UInt16.ofNat_toNat]
  have hbelow := h.stands.congr g.agree
  have hholds := g.holds
  rw [← haddress] at hbelow hholds
  constructor
  · exact g.after
  · rw [g.latest, ← haddress]
    rfl
  · refine .cons ?_ hlength ?_ ?_ hbelow
    · rw [haddress]
      exact h.within.start_le_here
    · have hhere := g.here_le
      rw [Record.cellsFor] at hhere
      rw [Entry.codeField, haddress]
      omega
    · rw [Entry.cells, hlink]
      exact hholds
  · rw [hdefining, h.defining_eq]
  · intro address hopened
    exact List.mem_cons_of_mem _ (h.opened_mem address hopened)

/-- A record is refused, or it becomes the newest entry. -/
theorem createRecord (h : m.HasBook book) (name : List UInt8) (code flags : Cell) :
    (∃ f, Exec.createRecord name code flags m = .error f m) ∨
      ∃ r m', Exec.createRecord name code flags m = .ok r m' ∧
        m'.HasBook
        { book with ledger := Entry.ofFlags r.address name code flags :: book.ledger } := by
  by_cases hgood : name ≠ [] ∧ name.length ≤ Record.maxNameLength ∧
      Record.cellsFor name.length ≤ m.unused
  · obtain ⟨hne, hlength, hroom⟩ := hgood
    obtain ⟨journal, hok⟩ := Exec.createRecord_of_room h.within.ordered code flags hne hlength hroom
    have g := grown_addRecord h.within code flags journal hlength hroom
    rw [← Entry.header_ofFlags m.regs.here.toNat name code flags] at g
    exact .inr ⟨_, _, hok, h.grown rfl hlength g rfl⟩
  · exact .inl (Exec.createRecord_refused code flags hgood)

/-- The flags of a record that is in the book can be changed. -/
theorem updateHeader (h : m.HasBook book) {address : Nat} (hmem : address ∈ book.ledger.addresses)
    (mark : Mark) :
    ∃ memory, Exec.updateHeader address mark.set m = .ok () { m with memory := memory } ∧
      ({ m with memory := memory } : Machine).HasBook
        { book with ledger := book.ledger.mark address mark } := by
  obtain ⟨header, hcell, hstands⟩ := h.stands.mark hmem mark
  have hstart := (h.stands.address_lt hmem).1
  unfold dictionaryStart at hstart
  refine ⟨_, Exec.updateHeader_of_some (by omega) hcell mark.set, ?_⟩
  have hbounded : Machine.Bounded m.regions m := ⟨h.within, rfl⟩
  constructor
  · exact (hbounded.withMemory (Memory.size_overlay ..)).1
  · exact h.latest_eq.trans (Ledger.newest_mark ..).symm
  · exact hstands
  · exact h.defining_eq
  · intro opened hopened
    rw [Ledger.addresses_mark]
    exact h.opened_mem opened hopened

end Machine.HasBook

/-! ### The book of a new machine -/

/-- The entry of a built-in word. -/
def Builtin.entry (word : Builtin) (address op : Nat) : Entry where
  address := address
  name := Text.bytes word.name
  code := UInt16.ofNat op
  immediate := word.immediate
  hidden := false

theorem Builtin.flags_eq (word : Builtin) : word.flags = Record.flagBits word.immediate false := by
  unfold Builtin.flags
  cases word.immediate <;> decide

namespace Vocabulary

/-- The ledger after words have been registered, from an address and an opcode on. -/
def register : (address op : Nat) → Ledger → List Builtin → Ledger
  | _, _, ledger, [] => ledger
  | address, op, ledger, word :: words =>
    register (address + word.cells) (op + 1) (word.entry address op :: ledger) words

/-- The book of the built-in words. -/
def book : Book where
  ledger := register dictionaryStart runtimes.length [] builtins
  opened := none

end Vocabulary

namespace Exec

/-- A word without room is not registered. -/
theorem addBuiltin_refused {m : Machine} {word : Builtin} (hroom : ¬ word.cells ≤ m.unused)
    (htable : m.table.size < dictionaryStart) : ∃ f m', addBuiltin word m = .error f m' := by
  have hruntime := addRuntime_eq word.name word.action m
  rw [if_pos htable] at hruntime
  obtain ⟨f, hcreate⟩ := createRecord_refused (m := { m with
    table := m.table.push word.action
    journal := m.journal.record (.opcode m.table.size word.name) }) (UInt16.ofNat m.table.size) 0
    fun hgood : Text.bytes word.name ≠ [] ∧ _ => hroom hgood.2.2
  have hadd : addPrimitive word.name word.action m = .error f _ :=
    (bind_of_ok hruntime).trans (bind_of_error hcreate)
  unfold addBuiltin
  cases word.immediate with
  | false => exact ⟨f, _, bind_of_error hadd⟩
  | true => exact ⟨f, _, bind_of_error (bind_of_error hadd)⟩

/-- Words that are registered get their entries, one after the other. -/
theorem forM_addBuiltin_hasBook {m m' : Machine} {book : Book} {words : List Builtin}
    (h : m.HasBook book) (hnames : ∀ word ∈ words, word.WellNamed)
    (htable : m.table.size + words.length ≤ dictionaryStart)
    (hok : words.forM addBuiltin m = .ok () m') :
    m'.HasBook { book with
      ledger := Vocabulary.register m.regs.here.toNat m.table.size book.ledger words } := by
  induction words generalizing m book with
  | nil =>
    cases hok
    exact h
  | cons word words ih =>
    rw [List.forall_mem_cons] at hnames
    rw [List.length_cons] at htable
    have hrow : (word :: words).forM addBuiltin m =
        (addBuiltin word >>= fun _ => words.forM addBuiltin) m := rfl
    rw [hrow] at hok
    by_cases hroom : word.cells ≤ m.unused
    · obtain ⟨m₁, hadd, g, henlarged, hpush, hhere⟩ :=
        addBuiltin_of_room h.within hnames.1 hroom (by omega)
      have hsize : m₁.table.size = m.table.size + 1 := by rw [hpush, Array.size_push]
      have hdefining : m₁.regs.defining = m.regs.defining := by rw [henlarged.regs]
      rw [word.flags_eq] at g
      have h₁ := h.grown (e := word.entry m.regs.here.toNat m.table.size) rfl hnames.1.2 g hdefining
      rw [bind_of_ok hadd] at hok
      have hrest := ih h₁ hnames.2 (by omega) hok
      rw [hhere, hsize] at hrest
      exact hrest
    · -- A row with a word that has no room is refused, against `hok`.
      obtain ⟨f, m₁, hadd⟩ := addBuiltin_refused hroom (by omega)
      rw [bind_of_error hadd] at hok
      cases hok

end Exec

/-- A new machine has the book of the built-in words. -/
theorem Machine.create_hasBook {config : Config} {input : Source} {output : Sink}
    {verbosity : Verbosity} {m : Machine} (h : create config input output verbosity = .ok m) :
    m.HasBook Vocabulary.book := by
  obtain ⟨layout, journal, journal', m', hlayout, hwords, rfl⟩ := exists_of_create h
  -- With the runtime actions alone, the machine has no entry yet.
  have hnone : (wordless config.coreSize layout input output journal).HasBook ⟨[], none⟩ :=
    { within := wordless_withinRegions input output hlayout journal
      latest_eq := rfl
      stands := .nil
      defining_eq := rfl
      opened_mem := by simp }
  have hbook := Exec.forM_addBuiltin_hasBook hnone (by decide +kernel)
    (by simp only [wordless]; decide +kernel) hwords
  exact { hbook with within := { hbook.within with } }

end CellForth
