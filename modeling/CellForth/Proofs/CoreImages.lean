import CellForth.Proofs.CompiledStrings

/-!
# Core images are faithful

A core image is a row of bytes, and `Image.decode` reads it as a row of cells, the low byte of each
cell first. It gives back what `Image.encode` has written, whatever the cells are, so nothing of
them is lost; and the registers can be told from the fourteen cells that they are written as, since
the two among them that are no cells are written as one of two numbers each. Equal images are
therefore images of machines with equal registers and equal memory (`Machine.eq_of_image_eq`).

A dump hands the image to a sink in one write and flushes the sink. What the sink gets is as much of
the image as it has room for, and the dump fails exactly if that is not all of it, or if the flush
fails. In neither case does the machine change, except that it makes a note of a dump that has
succeeded. All of this is `Machine.dump_faithful`.
-/

namespace CellForth

/-! ### Reading an image -/

namespace Image

/-- Bytes as cells, the low byte of a cell first; `none` if half a cell is left over. -/
def decode : List UInt8 → Option (List Cell)
  | [] => some []
  | [_] => none
  | low :: high :: rest => (decode rest).map (Cell.ofBytes low high :: ·)

theorem decode_encode (cs : List Cell) : decode (encode cs) = some cs := by
  induction cs with
  | nil => rfl
  | cons c cs ih =>
    have hcons : encode (c :: cs) = Cell.lowByte c :: Cell.highByte c :: encode cs := rfl
    rw [hcons, decode, ih, Option.map_some, Cell.ofBytes_lowByte_highByte]

theorem length_encode (cs : List Cell) : (encode cs).length = 2 * cs.length := by
  induction cs with
  | nil => rfl
  | cons c cs ih =>
    have hcons : (encode (c :: cs)).length = (encode cs).length + 2 := rfl
    rw [hcons, ih, List.length_cons, Nat.mul_succ]

theorem encode_inj {cs ds : List Cell} (h : encode cs = encode ds) : cs = ds := by
  have hdecode := congrArg decode h
  rwa [decode_encode, decode_encode, Option.some_inj] at hdecode

end Image

/-! ### The image of a machine -/

theorem Registers.length_toCells (regs : Registers) : regs.toCells.length = Registers.count :=
  rfl

/-- The registers can be told from their cells, also the two that are written as zero or one. -/
theorem Registers.toCells_inj {r r' : Registers} (h : r.toCells = r'.toCells) : r = r' := by
  have hflag {b b' : Bool} (hb : (if b then 1 else 0 : Cell) = if b' then 1 else 0) : b = b' := by
    cases b <;> cases b' <;> revert hb <;> decide
  have hmode {mode mode' : Mode} (hb : decide (mode = .compile) = decide (mode' = .compile)) :
      mode = mode' := by
    cases mode <;> cases mode' <;> revert hb <;> decide
  cases r
  cases r'
  simp only [toCells, isCompiling, List.cons.injEq] at h
  obtain ⟨hip, hw, hsp, hrp, hhere, hbase, hm, hlatest, hdefining, hf, hs₀, hs, hr₀, hr, -⟩ := h
  simp only [mk.injEq]
  exact ⟨hip, hw, hsp, hrp, hhere, hbase, hmode (hflag hm), hlatest, hdefining, hflag hf, hs₀, hs,
    hr₀, hr⟩

namespace Machine

variable {m m' : Machine}

/-- The length that a machine gives for its image is the length of the image. -/
theorem length_image (m : Machine) : m.image.length = m.imageLength := by
  rw [image, Image.length_encode, imageCells, List.length_append, Registers.length_toCells,
    Array.length_toList, imageLength, Memory.size, Nat.mul_comm]

/-- Machines with the same image have the same registers and the same memory. -/
theorem eq_of_image_eq (h : m.image = m'.image) : m.regs = m'.regs ∧ m.memory = m'.memory := by
  have hcells :
      m.regs.toCells ++ m.memory.cells.toList = m'.regs.toCells ++ m'.memory.cells.toList :=
    Image.encode_inj h
  have hlength : m.regs.toCells.length = m'.regs.toCells.length := rfl
  obtain ⟨hregs, hmemory⟩ := List.append_inj hcells hlength
  refine ⟨Registers.toCells_inj hregs, ?_⟩
  rw [show m.memory = ⟨m.memory.cells⟩ from rfl, Array.toList_inj.mp hmemory]

end Machine

/-! ### Dumps -/

/-- A sink without a bound has room for everything. -/
theorem Sink.accepts_of_room_eq_none {sink : Sink} (h : sink.room = none) (n : Nat) :
    sink.Accepts n := by
  simp [Accepts, h]

theorem Sink.accepts_iff_of_room {sink : Sink} {room n : Nat} (h : sink.room = some room) :
    sink.Accepts n ↔ n ≤ room := by
  simp [Accepts, h]

theorem Sink.exists_room_of_not_accepts {sink : Sink} {n : Nat} (h : ¬sink.Accepts n) :
    ∃ room, sink.room = some room ∧ room < n := by
  simpa [Accepts] using h

namespace Machine

variable {m m' : Machine}

theorem poison?_of_isPoisoned (h : m.isPoisoned = false) : m.poison? = none := by
  unfold poison?
  rw [show m.regs.fault = false from h]
  rfl

section Dump

variable (h : m.isPoisoned = false) {sink : Sink}
include h

/-- A sink with room for the image gets all of it, and the dump succeeds if the sink can be
flushed. -/
theorem dump_of_accepts (hroom : sink.Accepts m.imageLength) :
    m.dump sink = (if sink.flushFails then .error (.device .flushFailed) m
      else .ok () (m.report (.dumped m.imageLength)), sink.accept m.image) := by
  have hwrite : sink.write m.image = .ok () (sink.accept m.image) :=
    Sink.write_of_accepts (by rwa [length_image])
  have hflush : (sink.accept m.image).flushFails = sink.flushFails := rfl
  unfold dump Sink.flush
  simp only [poison?_of_isPoisoned h, length_image, hwrite, hflush]
  cases sink.flushFails <;> rfl

/-- Any other sink gets as much of the image as it has room for, and the dump fails. -/
theorem dump_of_lt {room : Nat} (hroom : sink.room = some room) (hlt : room < m.imageLength) :
    m.dump sink = (.error (.device (if sink.stalls then .stalled else .closed)) m,
      sink.accept (m.image.take room)) := by
  have hfull : ¬m.image.length ≤ room := by
    rw [length_image]
    omega
  unfold dump
  simp only [poison?_of_isPoisoned h, Sink.write, hroom, if_neg hfull]

/-- A sink without a bound gets the image. -/
theorem bytes_dump (hroom : sink.room = none) : (m.dump sink).2.bytes = sink.bytes ++ m.image := by
  rw [dump_of_accepts h (Sink.accepts_of_room_eq_none hroom _), Sink.bytes_accept]

/-- A bounded sink gets as much of the image as it has room for. -/
theorem bytes_dump_of_room {room : Nat} (hroom : sink.room = some room) :
    (m.dump sink).2.bytes = sink.bytes ++ m.image.take (min room m.imageLength) := by
  rcases Nat.lt_or_ge room m.imageLength with hlt | hge
  · rw [dump_of_lt h hroom hlt, Sink.bytes_accept, Nat.min_eq_left (Nat.le_of_lt hlt)]
  · rw [dump_of_accepts h ((Sink.accepts_iff_of_room hroom).mpr hge), Sink.bytes_accept,
      Nat.min_eq_right hge, ← length_image, List.take_length]

/-- A dump fails if the sink has no room for the image or cannot be flushed, and the machine is as
it was. -/
theorem exists_dump_eq_error_iff : (∃ e, (m.dump sink).1 = .error (.device e) m) ↔
    ¬sink.Accepts m.imageLength ∨ sink.flushFails = true := by
  by_cases haccepts : sink.Accepts m.imageLength
  · rw [dump_of_accepts h haccepts]
    cases sink.flushFails <;> simp [haccepts]
  · obtain ⟨room, hroom, hlt⟩ := Sink.exists_room_of_not_accepts haccepts
    rw [dump_of_lt h hroom hlt]
    simp [haccepts]

/-- Otherwise it succeeds, and the machine has at most made a note of it. -/
theorem exists_dump_eq_ok_iff :
    (∃ journal, (m.dump sink).1 = .ok () { m with journal := journal }) ↔
    sink.Accepts m.imageLength ∧ sink.flushFails = false := by
  by_cases haccepts : sink.Accepts m.imageLength
  · rw [dump_of_accepts h haccepts]
    cases sink.flushFails <;> simp [haccepts, report]
  · obtain ⟨room, hroom, hlt⟩ := Sink.exists_room_of_not_accepts haccepts
    rw [dump_of_lt h hroom hlt]
    simp [haccepts]

end Dump

/-- **A dump is a faithful image.** The image of a machine has two bytes for each of the fourteen
registers and for each cell of memory, and read as cells it is the registers and then the memory. A
dump to a sink without a bound writes the image, so machines whose dumps are equal have equal
registers and equal memory. A dump to a bounded sink writes as much of the image as there is room
for. It fails exactly if that is not all of it, or if the sink cannot be flushed, and leaves the
machine as it was, which means that it is not poisoned either; a dump that succeeds changes nothing
but the journal. -/
theorem dump_faithful (hm : m.isPoisoned = false) :
    (m.imageLength = 2 * (14 + m.memory.size) ∧ m.image.length = m.imageLength ∧
      Image.decode m.image = some (m.regs.toCells ++ m.memory.cells.toList)) ∧
    (∀ sink : Sink, sink.room = none →
      (m.dump sink).2.bytes = sink.bytes ++ m.image ∧
      ((∃ e, (m.dump sink).1 = .error (.device e) m) ↔ sink.flushFails = true) ∧
      ((∃ journal, (m.dump sink).1 = .ok () { m with journal := journal }) ↔
        sink.flushFails = false)) ∧
    (∀ m' : Machine, m'.isPoisoned = false → ∀ sink : Sink, sink.room = none →
      (m.dump sink).2.bytes = (m'.dump sink).2.bytes → m.regs = m'.regs ∧ m.memory = m'.memory) ∧
    (∀ (sink : Sink) (limit : Nat), sink.room = some limit →
      (m.dump sink).2.bytes = sink.bytes ++ m.image.take (min limit m.imageLength) ∧
      ((∃ e, (m.dump sink).1 = .error (.device e) m) ↔
        limit < m.imageLength ∨ sink.flushFails = true) ∧
      ((∃ journal, (m.dump sink).1 = .ok () { m with journal := journal }) ↔
        m.imageLength ≤ limit ∧ sink.flushFails = false)) := by
  refine ⟨⟨Nat.mul_comm .., m.length_image, Image.decode_encode _⟩, fun sink hroom => ?_,
    fun m' hm' sink hroom hbytes => ?_, fun sink limit hroom => ?_⟩
  · have haccepts := Sink.accepts_of_room_eq_none hroom m.imageLength
    refine ⟨bytes_dump hm hroom, ?_, ?_⟩
    · rw [exists_dump_eq_error_iff hm, or_iff_right (not_not_intro haccepts)]
    · rw [exists_dump_eq_ok_iff hm, and_iff_right haccepts]
  · rw [bytes_dump hm hroom, bytes_dump hm' hroom] at hbytes
    exact eq_of_image_eq (List.append_cancel_left hbytes)
  · refine ⟨bytes_dump_of_room hm hroom, ?_, ?_⟩
    · rw [exists_dump_eq_error_iff hm, Sink.accepts_iff_of_room hroom, Nat.not_le]
    · rw [exists_dump_eq_ok_iff hm, Sink.accepts_iff_of_room hroom]

/-- A machine with three cells of memory, and a sink that has room for one byte less than its
image. -/
theorem dump_faithful_of_full_sink :
    ∃ m : Machine, m.isPoisoned = false ∧ m.imageLength = 34 ∧
      (m.dump { room := some 33 }).2.bytes = m.image.take 33 ∧
      (∃ e, (m.dump { room := some 33 }).1 = .error (.device e) m) ∧
      Image.decode (m.dump {}).2.bytes = some (m.regs.toCells ++ [0, 513, 65535]) := by
  let m₀ := bare 3 ⟨1, 2, 3⟩ Source.empty {} .off
  obtain ⟨m, hm, hlength, hcells⟩ : ∃ m : Machine, m.isPoisoned = false ∧ m.imageLength = 34 ∧
      m.memory.cells.toList = [0, 513, 65535] :=
    ⟨{ m₀ with memory := ⟨#[0, 513, 65535]⟩ }, rfl, rfl, rfl⟩
  obtain ⟨⟨-, -, hdecode⟩, hunbounded, -, hbounded⟩ := dump_faithful hm
  obtain ⟨hbytes, herror, -⟩ := hbounded { room := some 33 } 33 rfl
  refine ⟨m, hm, hlength, ?_, herror.mpr (.inl (by omega)), ?_⟩
  · rw [hbytes, hlength]
    rfl
  · rw [(hunbounded {} rfl).1, ← hcells]
    exact hdecode

end Machine

end CellForth
