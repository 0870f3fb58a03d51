import CellForth.Proofs.Allocation
import CellForth.Proofs.Instructions
import CellForth.Proofs.Streams

/-!
# Strings in compiled code

The word `."` reads a text up to a quote. While words are run it writes the text at once, and while
they are compiled it adds three things to the dictionary: the opcode of the action that prints, the
length of the text and its packed bytes. The main result, `OutputWord.dotQuote_exact`, says that
nothing is lost on the way. As long as these cells are as they were, running the action behind the
opcode writes the text, and goes on behind the last of them.
-/

namespace CellForth

/-! ### Sinks and sources -/

/-- There is room in the sink for a number of bytes. -/
def Sink.Accepts (sink : Sink) (n : Nat) : Prop :=
  ∀ room ∈ sink.room, n ≤ room

theorem Sink.write_of_accepts {sink : Sink} {bs : List UInt8} (h : sink.Accepts bs.length) :
    sink.write bs = .ok () (sink.accept bs) := by
  unfold Sink.write
  split
  · rfl
  · rename_i room hroom
    exact if_pos (h room hroom)

/-- A text and a quote, or another delimiter, are what the source offers first, interruptions
aside. -/
def Source.StartsWith (s : Source) (text : List UInt8) (delimiter : UInt8) (rest : List ReadEvent) :
    Prop :=
  delimiter ∉ text ∧
    ∃ front, s.events = front ++ .byte delimiter :: rest ∧ ReadEvent.calm front = text.map .byte

/-- A text is read up to its delimiter, which is used up. -/
theorem Scan.upTo_of_calm {delimiter : UInt8} {text : List UInt8} (htext : delimiter ∉ text)
    {front : List ReadEvent} (hfront : ReadEvent.calm front = text.map .byte) (seen : List UInt8)
    (rest : List ReadEvent) :
    upTo delimiter seen (front ++ .byte delimiter :: rest) =
      ⟨seen.reverse ++ text, rest, none⟩ := by
  -- By induction on the events, not on the text: interruptions are events, but no part of the text.
  induction front generalizing text seen with
  | nil =>
    obtain rfl : text = [] := List.map_eq_nil_iff.mp hfront.symm
    simp [upTo]
  | cons event front ih =>
    cases event with
    | interruption => exact ih htext hfront seen
    | byte b =>
      obtain ⟨c, text, rfl⟩ : ∃ c text', text = c :: text' := by
        cases text with
        | nil => cases hfront
        | cons c text => exact ⟨c, text, rfl⟩
      obtain ⟨hb, hrest⟩ := List.cons.inj hfront
      obtain rfl : b = c := ReadEvent.byte.inj hb
      simp only [List.mem_cons, not_or] at htext
      have hne : ¬ b = delimiter := fun h => htext.1 h.symm
      rw [List.cons_append, upTo, if_neg hne, ih htext.2 hrest]
      simp
    | ending | failure =>
      exfalso
      cases text <;> cases hfront

namespace Exec

variable {m : Machine}

theorem write_of_accepts {bs : List UInt8} (h : m.output.Accepts bs.length) :
    write bs m = .ok () { m with output := m.output.accept bs } := by
  unfold write
  rw [Sink.write_of_accepts h]

theorem parse_of_startsWith {text : List UInt8} {delimiter : UInt8} {rest : List ReadEvent}
    (h : m.input.StartsWith text delimiter rest) :
    parse delimiter m = .ok text { m with input := ⟨rest⟩ } := by
  obtain ⟨htext, front, hevents, hfront⟩ := h
  unfold parse
  rw [hevents, Scan.upTo_of_calm htext hfront]
  rfl

theorem operand_of_some {c : Cell} (hip : m.regs.ip ≠ 0)
    (hcell : m.memory.cells[m.regs.ip.toNat]? = some c) :
    operand m = .ok c { m with regs := { m.regs with ip := m.regs.ip + 1 } } := by
  unfold operand
  rw [bind_of_ok (requireThread_of_ne_zero hip), bind_reg, bind_of_ok (fetch_of_some hcell)]
  rfl

end Exec

/-! ### Printing -/

/-- The action that prints writes the string at the instruction pointer, and moves the pointer
behind it. -/
theorem Runtime.print_of_holds {m : Machine} {text : List UInt8} (hip : m.regs.ip ≠ 0)
    (hend : m.regs.ip.toNat + 1 + packedLength text.length < 65536) (hlength : text.length ≤ 65535)
    (hholds : m.memory.Holds m.regs.ip.toNat (Memory.stringCells text))
    (hsink : m.output.Accepts text.length) :
    Runtime.print.perform m = .ok () { m with
      regs := { m.regs with ip := UInt16.ofNat (m.regs.ip.toNat + 1 + packedLength text.length) }
      output := m.output.accept text } := by
  have htoNat : (UInt16.ofNat text.length).toNat = text.length := Cell.toNat_ofNat (by omega)
  have hnext : (m.regs.ip + 1).toNat = m.regs.ip.toNat + 1 :=
    Cell.toNat_add_ofNat (n := 1) (by omega)
  have hbytes :
      m.memory.getBytes (m.regs.ip + 1).toNat (UInt16.ofNat text.length).toNat = .ok text := by
    rw [htoNat, hnext]
    exact Memory.getBytes_of_packed hholds.tail
  have hbehind : m.regs.ip + 1 + UInt16.ofNat (packedLength text.length) =
      UInt16.ofNat (m.regs.ip.toNat + 1 + packedLength text.length) := by
    refine Cell.eq_of_toNat_eq ?_
    rw [Cell.toNat_add_ofNat (by omega), hnext, Cell.toNat_ofNat (by omega)]
  let m₁ : Machine := { m with regs := { m.regs with ip := m.regs.ip + 1 } }
  have hread : (observe fun m' : Machine =>
      m'.memory.getBytes m₁.regs.ip.toNat (UInt16.ofNat text.length).toNat : Exec (List UInt8)) m₁ =
        .ok text m₁ := observe_of_ok hbytes
  refine (bind_of_ok (Exec.operand_of_some hip (hholds.cell (i := 0) rfl))).trans ?_
  rw [Exec.bind_reg, bind_of_ok hread]
  -- The pointer is moved before the bytes are written.
  rw [htoNat, ← hbehind]
  exact Exec.write_of_accepts (m := { m with
    regs := { m.regs with ip := m.regs.ip + 1 + UInt16.ofNat (packedLength text.length) } }) hsink

/-! ### Compiling a text -/

/-- The cells that a text is compiled to. -/
def printingCells (text : List UInt8) : List Cell :=
  Runtime.print.opcode :: Memory.stringCells text

theorem length_printingCells (text : List UInt8) :
    (printingCells text).length = 2 + packedLength text.length := by
  rw [printingCells, List.length_cons, Memory.length_stringCells]
  omega

/-- Where the code of a text stands, running the action behind its opcode prints the text. -/
theorem Machine.print_of_printingCells {m : Machine} {pos : Nat} {text : List UInt8}
    (hlength : text.length ≤ 65535) (hend : pos + 2 + packedLength text.length < 65536)
    (hholds : m.memory.Holds pos (printingCells text)) (hip : m.regs.ip.toNat = pos + 1)
    (hsink : m.output.Accepts text.length) :
    Runtime.print.perform m = .ok () { m with
      regs := { m.regs with ip := UInt16.ofNat (pos + 2 + packedLength text.length) }
      output := m.output.accept text } := by
  have hne : m.regs.ip ≠ 0 := by
    rw [← Cell.toNat_ne_zero_iff, hip]
    omega
  have hstring : m.memory.Holds m.regs.ip.toNat (Memory.stringCells text) := hip ▸ hholds.tail
  rw [Runtime.print_of_holds hne (by omega) hlength hstring hsink, hip]

/-- So it is once the code has been added to the dictionary, for as long as its cells are as they
were. -/
theorem Machine.Ordered.print_of_append {m m₂ : Machine} (h : m.Ordered) {text : List UInt8}
    (hlength : text.length ≤ 65535) (hroom : (printingCells text).length ≤ m.unused)
    (hsame : ∀ pos, m.regs.here.toNat ≤ pos →
      pos < (m.append (printingCells text)).regs.here.toNat →
      m₂.memory.cells[pos]? = (m.append (printingCells text)).memory.cells[pos]?)
    (hip : m₂.regs.ip.toNat = m.regs.here.toNat + 1) (hsink : m₂.output.Accepts text.length) :
    m₂.memory.get m.regs.here.toNat = .ok Runtime.print.opcode ∧
      Runtime.print.perform m₂ = .ok () { m₂ with
        regs := { m₂.regs with ip := (m.append (printingCells text)).regs.here }
        output := m₂.output.accept text } := by
  have hhere := h.toNat_here_append hroom
  have hcells := length_printingCells text
  have hholds : m₂.memory.Holds m.regs.here.toNat (printingCells text) :=
    (h.holds_append hroom).congr fun pos hle hlt => hsame pos hle (by rwa [hhere])
  have hend := UInt16.toNat_lt (m.append (printingCells text)).regs.here
  rw [hhere, hcells, ← Nat.add_assoc] at hend
  have hprint := print_of_printingCells hlength hend hholds hip hsink
  rw [Nat.add_assoc, ← hcells, ← hhere, UInt16.ofNat_toNat] at hprint
  exact ⟨Memory.get_of_some (hholds.cell (i := 0) rfl), hprint⟩

namespace Exec

variable {m : Machine} {text : List UInt8}

/-- The code of a text is added if there is room for all of it. -/
theorem compileText_of_room (h : m.Ordered) (hlength : text.length ≤ 65535)
    (hroom : 2 + packedLength text.length ≤ m.unused) :
    (do compileCell Runtime.print.opcode; compileString text) m =
      .ok () (m.append (printingCells text)) := by
  have hone : [Runtime.print.opcode].length ≤ m.unused := by
    rw [List.length_singleton]
    omega
  have hfree := h.unused_append hone
  have hall : ([Runtime.print.opcode] ++ Memory.stringCells text).length ≤ m.unused := by
    rw [List.singleton_append, ← printingCells, length_printingCells]
    exact hroom
  rw [List.length_singleton] at hfree
  rw [bind_of_ok (compileCell_of_room h (by omega)), compileString_eq (h.append hone),
    if_pos ⟨hlength, by omega⟩, h.append_append hone hall]
  rfl

/-- If there is less room, the dictionary is full. -/
theorem compileText_of_full (h : m.Ordered) (hroom : m.unused < 2 + packedLength text.length) :
    ∃ m', (do compileCell Runtime.print.opcode; compileString text) m =
      .error .dictionaryOverflow m' := by
  by_cases hone : 0 < m.unused
  · have hcell : [Runtime.print.opcode].length ≤ m.unused := hone
    have hfree := h.unused_append hcell
    rw [List.length_singleton] at hfree
    rw [bind_of_ok (compileCell_of_room h hone), compileString_eq (h.append hcell),
      if_neg (by omega)]
    exact ⟨_, rfl⟩
  · have hcell := compileCell_eq h Runtime.print.opcode
    rw [if_neg hone] at hcell
    exact ⟨m, bind_of_error hcell⟩

end Exec

namespace OutputWord

variable {m : Machine} {text : List UInt8} {rest : List ReadEvent}

/-- The text is read in any case. What happens then depends on whether words are compiled. -/
theorem dotQuote_of_startsWith (hinput : m.input.StartsWith text Ascii.quote rest) :
    dotQuote.perform m =
      (if m.regs.isCompiling then do
        Exec.compileCell Runtime.print.opcode
        Exec.compileString text
      else Exec.write text) { m with input := ⟨rest⟩ } :=
  (bind_of_ok (Exec.parse_of_startsWith hinput)).trans (Exec.bind_reg ..)

/-- **A compiled string prints what was written.** From a source that starts with a text and a
quote, the word uses up both. While words are compiled, it adds the code of the text if there is
room for all of it, and fails for want of room otherwise. As long as the cells of the code are as
they were, the action behind its opcode writes the bytes of the text, which are the bytes that the
word itself writes while words are run, and changes nothing else but the instruction pointer, which
it moves behind the code. -/
theorem dotQuote_exact (h : m.Ordered) (hlength : text.length ≤ 65535)
    (hinput : m.input.StartsWith text Ascii.quote rest) :
    (m.regs.mode = .compile →
      2 + packedLength text.length ≤ m.regs.dataBase.toNat - m.regs.here.toNat →
      ∃ m', dotQuote.perform m = .ok () m' ∧
        m.Occupies m' (2 + packedLength text.length) ∧
        m' = { m with
          memory := m'.memory
          regs := { m.regs with here := m'.regs.here }
          input := ⟨rest⟩ } ∧
        ∀ m₂ : Machine,
          (∀ pos, m.regs.here.toNat ≤ pos → pos < m'.regs.here.toNat →
            m₂.memory.cells[pos]? = m'.memory.cells[pos]?) →
          m₂.regs.ip.toNat = m.regs.here.toNat + 1 → m₂.output.Accepts text.length →
          let m₃ := { m₂ with
            regs := { m₂.regs with ip := m'.regs.here }, output := m₂.output.accept text }
          m₂.memory.get m.regs.here.toNat = .ok Runtime.print.opcode ∧
            Runtime.print.perform m₂ = .ok () m₃ ∧
            (m₂.Equipped → Exec.execute Runtime.print.opcode m₂ = .ok .done m₃) ∧
            m₃.output.bytes = m₂.output.bytes ++ text) ∧
    (m.regs.mode = .compile →
      m.regs.dataBase.toNat - m.regs.here.toNat < 2 + packedLength text.length →
      ∃ m', dotQuote.perform m = .error .dictionaryOverflow m') ∧
    (m.regs.mode = .interpret → m.output.Accepts text.length →
      dotQuote.perform m = .ok () { m with input := ⟨rest⟩, output := m.output.accept text } ∧
      (m.output.accept text).bytes = m.output.bytes ++ text) := by
  have h₁ : ({ m with input := ⟨rest⟩ } : Machine).Ordered := { h with }
  have hread := dotQuote_of_startsWith hinput
  refine ⟨fun hmode hroom => ?_, fun hmode hroom => ?_, fun hmode hsink => ?_⟩
  · have hcompiling : m.regs.isCompiling = true := decide_eq_true hmode
    have hcells := length_printingCells text
    have hfit : (printingCells text).length ≤ ({ m with input := ⟨rest⟩ } : Machine).unused := by
      rwa [hcells]
    have hoccupies := h₁.occupies_append hfit
    rw [if_pos hcompiling, Exec.compileText_of_room h₁ hlength hroom] at hread
    refine ⟨_, hread, ⟨hcells ▸ hoccupies.here_eq, hoccupies.cells_eq⟩, rfl, ?_⟩
    intro m₂ hsame hip hsink
    obtain ⟨hopcode, hprint⟩ := h₁.print_of_append hlength hfit hsame hip hsink
    refine ⟨hopcode, hprint, fun hequipped => ?_, Sink.bytes_accept ..⟩
    rw [(hequipped.native (r := .print) rfl).execute nofun nofun]
    exact bind_of_ok hprint
  · have hcompiling : m.regs.isCompiling = true := decide_eq_true hmode
    rw [if_pos hcompiling] at hread
    rw [hread]
    exact Exec.compileText_of_full h₁ hroom
  · have hcompiling : ¬ m.regs.isCompiling = true := by
      simp [Registers.isCompiling, hmode]
    rw [if_neg hcompiling] at hread
    exact ⟨hread.trans (Exec.write_of_accepts (m := { m with input := ⟨rest⟩ }) hsink),
      Sink.bytes_accept ..⟩

/-- A text of odd length, whose reading is interrupted, in a machine with room for its code and no
more: it is printed from there. -/
theorem dotQuote_exact_hi :
    ∃ (m m' : Machine) (text : List UInt8), m.Ordered ∧ text = [72, 105, 33] ∧
      m.input.StartsWith text Ascii.quote [.byte 32] ∧ m.regs.mode = .compile ∧ m.unused = 4 ∧
      dotQuote.perform m = .ok () m' ∧ m'.regs.here.toNat = 260 ∧
      ∃ m₃, Runtime.print.perform { m' with regs := { m'.regs with ip := 257 } } = .ok () m₃ ∧
        m₃.regs.ip = 260 ∧ m₃.output.bytes = text := by
  let m₀ := Machine.bare 300 ⟨260, 280, 300⟩
    ⟨[.byte 72, .interruption, .byte 105, .byte 33, .byte Ascii.quote, .byte 32]⟩ {} .off
  let m : Machine := { m₀ with regs := { m₀.regs with mode := .compile } }
  have hm : m.Ordered := by constructor <;> decide +kernel
  have hinput : m.input.StartsWith [72, 105, 33] Ascii.quote [.byte 32] :=
    ⟨by decide, [.byte 72, .interruption, .byte 105, .byte 33], rfl, rfl⟩
  obtain ⟨hcompiles, -, -⟩ := dotQuote_exact hm (by decide) hinput
  obtain ⟨m', hok, hoccupies, hwith, hlater⟩ := hcompiles rfl (by decide)
  have hhere : m'.regs.here.toNat = 260 := hoccupies.here_eq
  have houtput : m'.output = {} := by rw [hwith]; rfl
  obtain ⟨-, hprint, -, hbytes⟩ := hlater { m' with regs := { m'.regs with ip := 257 } }
    (fun _ _ _ => rfl) rfl (by rw [Sink.Accepts, houtput]; nofun)
  refine ⟨m, m', _, hm, rfl, hinput, rfl, by decide, hok, hhere, _, hprint,
    Cell.eq_of_toNat_eq hhere, ?_⟩
  rw [hbytes, houtput]
  rfl

end OutputWord

end CellForth
