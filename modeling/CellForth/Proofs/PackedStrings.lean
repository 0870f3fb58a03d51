import CellForth.Proofs.Memory

/-!
# Packed strings

Names and the texts of compiled strings are packed, two bytes to a cell. They are written cell by
cell and read byte by byte, so the writer and the reader have to agree on which half of a cell comes
first, and on the half that a string of odd length leaves over.

`Memory.Receives` says what packing a string does to memory. Cell `k` of the string holds the bytes
`2 * k` and `2 * k + 1` (`Memory.packedCell`), as far as memory reaches, and no other cell has
changed. This determines the memory, and it is the same whether or not all of the string has found
room; a string that has not is only told so by a fault (`Memory.putBytes_eq`). What is read back,
and that strings in different places can be written in either order, follows from it:
`Memory.putBytes_exact`.
-/

namespace CellForth

namespace Memory

variable {memory memory' : Memory} {pos pos' : Nat} {bs bs' : List UInt8} {cs ds : List Cell}

/-- Memories with the same cells are the same. -/
theorem eq_of_cells (h : ∀ i : Nat, memory.cells[i]? = memory'.cells[i]?) : memory = memory' := by
  cases memory
  cases memory'
  exact congrArg Memory.mk (Array.ext_getElem? h)

/-! ### Overlays that miss memory or each other -/

/-- Behind the end of memory nothing is written. -/
theorem overlay_of_size_le (h : memory.size ≤ pos) : memory.overlay pos cs = memory := by
  refine eq_of_cells fun i => ?_
  rw [cells_overlay, if_neg (by omega)]

/-- Rows that share no offset can be written in either order. -/
theorem overlay_comm
    (h : ∀ i, ¬((pos ≤ i ∧ i < pos + cs.length) ∧ pos' ≤ i ∧ i < pos' + ds.length)) :
    (memory.overlay pos cs).overlay pos' ds = (memory.overlay pos' ds).overlay pos cs := by
  refine eq_of_cells fun i => ?_
  have hi := h i
  simp only [cells_overlay, size_overlay]
  by_cases hcs : pos ≤ i ∧ i < pos + cs.length ∧ i < memory.size
  · have hds : ¬(pos' ≤ i ∧ i < pos' + ds.length ∧ i < memory.size) := by omega
    rw [if_neg hds, if_pos hcs, if_pos hcs]
  · rw [if_neg hcs, if_neg hcs]

/-! ### The cells of a string -/

/-- The cell at place `k` of a packed string. Bytes that the string does not have count as zero. -/
def packedCell (bs : List UInt8) (k : Nat) : Cell :=
  Cell.ofBytes (bs.getD (2 * k) 0) (bs.getD (2 * k + 1) 0)

theorem getElem?_packCells {k : Nat} (hk : k < packedLength bs.length) :
    (packCells bs)[k]? = some (packedCell bs k) := by
  induction bs using packCells.induct generalizing k with
  | case1 => simp [packedLength] at hk
  | case2 low =>
    obtain rfl : k = 0 := by
      simp only [packedLength, List.length_singleton] at hk
      omega
    rfl
  | case3 low high rest ih =>
    cases k with
    | zero => rfl
    | succ k =>
      have hrest : k < packedLength rest.length := by
        simp only [packedLength, List.length_cons] at hk ⊢
        omega
      rw [packCells, List.getElem?_cons_succ, ih hrest]
      rfl

/-- The offset is in the range of a string that is packed from `pos` on. -/
def Spans (pos : Nat) (bs : List UInt8) (i : Nat) : Prop :=
  pos ≤ i ∧ i < pos + packedLength bs.length

/-- The second memory is the first one after a string has been packed from `pos` on, as far as it
reaches. -/
structure Receives (memory : Memory) (pos : Nat) (bs : List UInt8) (memory' : Memory) : Prop where
  /-- Memory has the same size. -/
  size_eq : memory'.size = memory.size
  /-- The cells of the range that are in memory are those of the string. -/
  packed : ∀ k, k < packedLength bs.length → pos + k < memory.size →
    memory'.cells[pos + k]? = some (packedCell bs k)
  /-- All other cells are as they were. -/
  unchanged : ∀ i, ¬Spans pos bs i → memory'.cells[i]? = memory.cells[i]?

namespace Receives

theorem overlay (memory : Memory) (pos : Nat) (bs : List UInt8) :
    memory.Receives pos bs (memory.overlay pos (packCells bs)) where
  size_eq := size_overlay ..
  packed k hk hlt := by
    rw [cells_overlay, length_packCells, if_pos (by omega), Nat.add_sub_cancel_left,
      getElem?_packCells hk]
  unchanged i hi := by
    rw [cells_overlay, length_packCells, if_neg fun h => hi ⟨h.1, h.2.1⟩]

/-- A byte whose cell is in memory can be read back. The half that is left over reads as zero. -/
theorem getByte (h : memory.Receives pos bs memory') {i : Nat} (hi : i < 2 * packedLength bs.length)
    (hlt : pos + i / 2 < memory.size) : memory'.getByte pos i = .ok (bs.getD i 0) := by
  have hget : memory'.get (pos + i / 2) = .ok (packedCell bs (i / 2)) :=
    get_of_some (h.packed _ (by omega) hlt)
  unfold Memory.getByte
  rw [hget]
  rcases Nat.mod_two_eq_zero_or_one i with hmod | hmod
  · have hlow : 2 * (i / 2) = i := by omega
    simp [packedCell, hmod, hlow]
  · have hhigh : 2 * (i / 2) + 1 = i := by omega
    simp [packedCell, hmod, hhigh]

end Receives

/-! ### Packing a string -/

/-- A string that does not fit is written up to the end of memory. -/
theorem putBytes_of_lt (hne : bs ≠ []) (h : memory.size < pos + packedLength bs.length) :
    putBytes pos bs memory = .error .invalidMemoryAddress (memory.overlay pos (packCells bs)) := by
  induction bs using packCells.induct generalizing memory pos with
  | case1 => exact absurd rfl hne
  | case2 low =>
    have hle : memory.size ≤ pos := by
      simp only [packedLength, List.length_singleton] at h
      omega
    rw [overlay_of_size_le hle]
    exact put_of_le _ hle
  | case3 low high rest ih =>
    rw [putBytes]
    rcases Nat.lt_or_ge pos memory.size with hlt | hle
    · have hrest : memory.size < pos + 1 + packedLength rest.length := by
        simp only [packedLength, List.length_cons] at h ⊢
        omega
      have hsome : rest ≠ [] := by
        rintro rfl
        simp only [packedLength, List.length_nil] at hrest
        omega
      rw [packCells, overlay_cons, bind_of_ok (put_eq_overlay _ hlt)]
      exact ih hsome (by rwa [size_overlay])
    · rw [bind_of_error (put_of_le _ hle), overlay_of_size_le hle]

/-- Packing a string has the same effect whether it fits or not, and succeeds if it does. -/
theorem putBytes_eq (memory : Memory) (pos : Nat) (bs : List UInt8) :
    putBytes pos bs memory =
      if bs = [] ∨ pos + packedLength bs.length ≤ memory.size then
        .ok () (memory.overlay pos (packCells bs))
      else .error .invalidMemoryAddress (memory.overlay pos (packCells bs)) := by
  split
  · rename_i hfits
    rcases hfits with rfl | hfits
    · rfl
    · exact putBytes_eq_overlay hfits
  · rename_i hnot
    simp only [not_or, Nat.not_le] at hnot
    exact putBytes_of_lt hnot.1 hnot.2

theorem endState_putBytes (memory : Memory) (pos : Nat) (bs : List UInt8) :
    endState (putBytes pos bs memory) = memory.overlay pos (packCells bs) := by
  rw [putBytes_eq]
  split <;> rfl

theorem succeeded_putBytes (memory : Memory) (pos : Nat) (bs : List UInt8) :
    succeeded (putBytes pos bs memory) =
      decide (bs = [] ∨ pos + packedLength bs.length ≤ memory.size) := by
  rw [putBytes_eq]
  split <;> simp [succeeded, *]

/-- **Packed strings come back as they were.** A string is packed without a fault exactly if it is
empty or its range ends in memory, and the only fault is that of an address outside. In both cases
the cells of the range that are in memory receive the string and no other cell changes. Of a string
that was packed without a fault every byte is read back, and behind the last one of an odd number a
zero. Strings whose ranges have no offset in common can be packed in either order: the memory is the
same in the end, and each of them fits or does not fit whether or not the other one has been
written. -/
theorem putBytes_exact (memory : Memory) (pos : Nat) (bs : List UInt8) :
    ((∃ memory', putBytes pos bs memory = .ok () memory') ↔
      bs = [] ∨ pos + packedLength bs.length ≤ memory.size) ∧
    (∀ e memory', putBytes pos bs memory = .error e memory' → e = .invalidMemoryAddress) ∧
    memory.Receives pos bs (endState (putBytes pos bs memory)) ∧
    (∀ memory', putBytes pos bs memory = .ok () memory' →
      (∀ i b, bs[i]? = some b → memory'.getByte pos i = .ok b) ∧
      (bs.length % 2 = 1 → memory'.getByte pos bs.length = .ok 0)) ∧
    ∀ pos' bs', (∀ i, ¬(Spans pos bs i ∧ Spans pos' bs' i)) →
      let first := endState (putBytes pos bs memory)
      let second := endState (putBytes pos' bs' memory)
      endState (putBytes pos' bs' first) = endState (putBytes pos bs second) ∧
      succeeded (putBytes pos' bs' first) = succeeded (putBytes pos' bs' memory) ∧
      succeeded (putBytes pos bs second) = succeeded (putBytes pos bs memory) := by
  have hreceives : memory.Receives pos bs (endState (putBytes pos bs memory)) := by
    rw [endState_putBytes]
    exact .overlay memory pos bs
  have hiff : (∃ memory', putBytes pos bs memory = .ok () memory') ↔
      bs = [] ∨ pos + packedLength bs.length ≤ memory.size := by
    rw [putBytes_eq]
    split <;> simp [*]
  refine ⟨hiff, ?_, hreceives, ?_, ?_⟩
  · intro e memory' h
    rw [putBytes_eq] at h
    split at h
    · cases h
    · cases h
      rfl
  · intro memory' h
    have hread :
        ∀ i, i < 2 * packedLength bs.length → memory'.getByte pos i = .ok (bs.getD i 0) := by
      intro i hi
      rw [h] at hreceives
      refine hreceives.getByte hi ?_
      rcases hiff.mp ⟨memory', h⟩ with rfl | hfits
      · simp [packedLength] at hi
      · omega
    constructor
    · intro i b hb
      obtain ⟨hlt, rfl⟩ := List.getElem?_eq_some_iff.mp hb
      rw [hread i (by unfold packedLength; omega)]
      simp [hlt]
    · intro hodd
      rw [hread _ (by unfold packedLength; omega)]
      simp
  · intro pos' bs' hapart
    simp only [endState_putBytes, succeeded_putBytes, size_overlay, and_self, and_true]
    refine overlay_comm fun i hi => hapart i ?_
    rwa [length_packCells, length_packCells] at hi

/-- In a memory of four cells, a string of three bytes is packed from the second cell on, and of a
string of five bytes behind it only the first two find room. -/
theorem putBytes_exact_at_end :
    ∃ memory memory' : Memory, memory = zeroed 4 ∧
      putBytes 1 [97, 98, 99] memory = .ok () memory' ∧ memory'.cells = #[0, 25185, 99, 0] ∧
      memory'.getByte 1 2 = .ok 99 ∧ memory'.getByte 1 3 = .ok 0 ∧
      succeeded (putBytes 3 [100, 101, 102, 103, 104] memory') = false ∧
      (endState (putBytes 3 [100, 101, 102, 103, 104] memory')).cells = #[0, 25185, 99, 25956] ∧
      (∀ i, ¬(Spans 1 [97, 98, 99] i ∧ Spans 3 [100, 101, 102, 103, 104] i)) ∧
      endState (putBytes 1 [97, 98, 99] (endState (putBytes 3 [100, 101, 102, 103, 104] memory))) =
        endState (putBytes 3 [100, 101, 102, 103, 104] memory') := by
  have hapart : ∀ i, ¬(Spans 1 [97, 98, 99] i ∧ Spans 3 [100, 101, 102, 103, 104] i) := by
    rintro i ⟨⟨-, hlt⟩, hle, -⟩
    simp only [packedLength, List.length_cons, List.length_nil] at hlt
    omega
  obtain ⟨hiff, -, -, hread, hcomm⟩ := putBytes_exact (zeroed 4) 1 [97, 98, 99]
  obtain ⟨memory', hput⟩ := hiff.mpr (.inr (by decide))
  obtain ⟨hbytes, hodd⟩ := hread memory' hput
  obtain ⟨hsame, hfails, -⟩ := hcomm 3 [100, 101, 102, 103, 104] hapart
  simp only [hput, endState_ok] at hsame hfails
  have hcells : memory' = ⟨#[0, 25185, 99, 0]⟩ := (congrArg endState hput).symm
  exact ⟨zeroed 4, memory', rfl, hput, by rw [hcells], hbytes 2 99 rfl, hodd rfl,
    hfails.trans (by decide), by rw [hcells]; decide, hapart, hsame.symm⟩

end Memory

end CellForth
