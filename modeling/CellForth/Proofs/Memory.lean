import CellForth.Memory
import CellForth.Proofs.Cell
import CellForth.Proofs.Effect

/-!
# Writing to memory

Everything that the machine stores, it stores as a row of cells at consecutive offsets: an item
on a stack, a cell of code, a packed string, a whole record. `Memory.overlay` is the memory
after such a row has been written, and it is total; the row is cut off where memory ends. What
is known of it is one equation, `Memory.cells_overlay`, which gives every cell of the result.

The operations of memory are then stated as overlays: `Memory.put_eq_overlay` for a single
cell and `Memory.putBytes_eq_overlay` for a packed string, whose cells are `packCells`.

What is known of a part of memory is said in two ways. `Memory.Holds pos cs` says that the row
`cs` stands at `pos`, as code or a record does. `Memory.AgreeBelow` compares two memories below
an offset, the form in which look-up needs to know that nothing it reads has changed.
-/

namespace CellForth

namespace Memory

/-- A memory is known from its cells. -/
theorem ext_cells {memory memory' : Memory}
    (h : ∀ i : Nat, memory.cells[i]? = memory'.cells[i]?) : memory = memory' := by
  cases memory
  cases memory'
  exact congrArg Memory.mk (Array.ext_getElem? h)

/-! ### Overlays -/

/-- The memory after a row of cells has been written from `pos` on, as far as it reaches. -/
def overlay (memory : Memory) (pos : Nat) : List Cell → Memory
  | [] => memory
  | c :: cs => overlay ⟨memory.cells.setIfInBounds pos c⟩ (pos + 1) cs

@[simp] theorem overlay_nil (memory : Memory) (pos : Nat) : memory.overlay pos [] = memory := rfl

theorem overlay_cons (memory : Memory) (pos : Nat) (c : Cell) (cs : List Cell) :
    memory.overlay pos (c :: cs) = (memory.overlay pos [c]).overlay (pos + 1) cs := rfl

@[simp] theorem size_overlay (memory : Memory) (pos : Nat) (cs : List Cell) :
    (memory.overlay pos cs).size = memory.size := by
  induction cs generalizing memory pos with
  | nil => rfl
  | cons c cs ih => rw [overlay, ih]; simp [size]

/-- Every cell of an overlay: the row where it was written, the old memory elsewhere. -/
theorem cells_overlay (memory : Memory) (pos : Nat) (cs : List Cell) (i : Nat) :
    (memory.overlay pos cs).cells[i]? =
      if pos ≤ i ∧ i < pos + cs.length ∧ i < memory.size then cs[i - pos]?
      else memory.cells[i]? := by
  induction cs generalizing memory pos with
  | nil =>
    rw [if_neg (by simp; omega)]
    rfl
  | cons c cs ih =>
    rw [overlay, ih]
    have hsize : Memory.size ⟨memory.cells.setIfInBounds pos c⟩ = memory.size := by simp [size]
    simp only [hsize, List.length_cons, Array.getElem?_setIfInBounds]
    -- Above its first cell the rest of the row is laid, at it the head, and below it nothing.
    by_cases hlow : pos + 1 ≤ i
    · have hne : pos ≠ i := by omega
      have hsub : i - pos = (i - (pos + 1)) + 1 := by omega
      simp only [hne, if_false, hsub, List.getElem?_cons_succ]
      congr 1
      simp only [eq_iff_iff]
      omega
    · rw [if_neg (by omega)]
      by_cases hi : pos = i
      · subst hi
        rw [if_pos rfl]
        by_cases hlt : pos < memory.cells.size
        · rw [if_pos hlt, if_pos ⟨Nat.le_refl _, by omega, hlt⟩, Nat.sub_self]
          rfl
        · rw [if_neg hlt, if_neg fun h => hlt h.2.2]
          exact (Array.getElem?_eq_none (Nat.le_of_not_lt hlt)).symm
      · rw [if_neg hi, if_neg (by omega)]

theorem cells_overlay_of_lt {memory : Memory} {pos i : Nat} (cs : List Cell) (h : i < pos) :
    (memory.overlay pos cs).cells[i]? = memory.cells[i]? := by
  rw [cells_overlay, if_neg (by omega)]

theorem cells_overlay_of_le {memory : Memory} {pos i : Nat} {cs : List Cell}
    (h : pos + cs.length ≤ i) : (memory.overlay pos cs).cells[i]? = memory.cells[i]? := by
  rw [cells_overlay, if_neg (by omega)]

/-- A row that fits is found where it was written. -/
theorem cells_overlay_add {memory : Memory} {pos i : Nat} {cs : List Cell}
    (hi : i < cs.length) (hfit : pos + cs.length ≤ memory.size) :
    (memory.overlay pos cs).cells[pos + i]? = cs[i]? := by
  rw [cells_overlay, if_pos (by omega), Nat.add_sub_cancel_left]

/-- Two rows that follow each other are one row. -/
theorem overlay_append (memory : Memory) (pos : Nat) (cs ds : List Cell) :
    memory.overlay pos (cs ++ ds) = (memory.overlay pos cs).overlay (pos + cs.length) ds := by
  induction cs generalizing memory pos with
  | nil => rfl
  | cons c cs ih =>
    rw [List.cons_append, overlay, ih, overlay, List.length_cons, Nat.add_assoc, Nat.add_comm 1]

/-! ### Reading -/

theorem get_eq_ok_of_lt {memory : Memory} {pos : Nat} (h : pos < memory.size) :
    ∃ c, memory.get pos = .ok c ∧ memory.cells[pos]? = some c :=
  ⟨memory.cells[pos], by
    rw [get_eq_ok_iff]; exact Array.getElem?_eq_getElem h, Array.getElem?_eq_getElem h⟩

theorem get_of_some {memory : Memory} {pos : Nat} {c : Cell} (h : memory.cells[pos]? = some c) :
    memory.get pos = .ok c :=
  get_eq_ok_iff.mpr h

theorem lt_size_of_some {memory : Memory} {pos : Nat} {c : Cell}
    (h : memory.cells[pos]? = some c) : pos < memory.size :=
  (Array.getElem?_eq_some_iff.mp h).1

/-- Reading depends on the one cell that is read. -/
theorem get_congr {memory memory' : Memory} {pos : Nat}
    (h : memory.cells[pos]? = memory'.cells[pos]?) : memory.get pos = memory'.get pos := by
  unfold get
  rw [h]

theorem getElem?_slice (memory : Memory) (lo hi i : Nat) :
    (memory.slice lo hi)[i]? = if lo + i < hi then memory.cells[lo + i]? else none := by
  rw [slice, Array.getElem?_toList, Array.getElem?_extract]
  by_cases hsize : lo + i < memory.cells.size
  · congr 1
    simp only [eq_iff_iff]
    omega
  · rw [if_neg (by omega), Array.getElem?_eq_none (by omega)]
    split <;> rfl

theorem length_slice {memory : Memory} {lo hi : Nat} (h : hi ≤ memory.size) :
    (memory.slice lo hi).length = hi - lo := by
  have hsize : hi ≤ memory.cells.size := h
  rw [slice, Array.length_toList, Array.size_extract]
  omega

/-! ### The operations of memory as overlays -/

theorem put_eq_overlay {memory : Memory} {pos : Nat} (c : Cell) (h : pos < memory.size) :
    put pos c memory = .ok () (memory.overlay pos [c]) := by
  rw [put_of_lt c h]
  simp only [overlay]
  congr
  exact (Array.setIfInBounds_def ..).trans (dif_pos h) |>.symm

/-- Storing a cell never changes the size of memory. -/
theorem size_endState_put (pos : Nat) (c : Cell) (memory : Memory) :
    (endState (put pos c memory)).size = memory.size := by
  rcases Nat.lt_or_ge pos memory.size with h | h
  · rw [put_eq_overlay c h, endState_ok, size_overlay]
  · rw [put_of_le c h, endState_error]

/-- The cells of a packed string. -/
def packCells : List UInt8 → List Cell
  | [] => []
  | [low] => [Cell.ofBytes low 0]
  | low :: high :: rest => Cell.ofBytes low high :: packCells rest

@[simp] theorem length_packCells (bs : List UInt8) :
    (packCells bs).length = packedLength bs.length := by
  induction bs using packCells.induct with
  | case1 => rfl
  | case2 low => simp [packCells, packedLength]
  | case3 low high rest ih =>
    simp only [packCells, List.length_cons, ih, packedLength]
    omega

/-- The cells that hold a string: its length and its packed bytes. -/
def stringCells (bs : List UInt8) : List Cell :=
  UInt16.ofNat bs.length :: packCells bs

theorem length_stringCells (bs : List UInt8) :
    (stringCells bs).length = 1 + packedLength bs.length := by
  rw [stringCells, List.length_cons, length_packCells, Nat.add_comm]

theorem putBytes_eq_overlay {memory : Memory} {pos : Nat} {bs : List UInt8}
    (h : pos + packedLength bs.length ≤ memory.size) :
    putBytes pos bs memory = .ok () (memory.overlay pos (packCells bs)) := by
  induction bs using packCells.induct generalizing memory pos with
  | case1 => rfl
  | case2 low =>
    simp only [putBytes, packCells]
    exact put_eq_overlay _ (by simp [packedLength] at h; omega)
  | case3 low high rest ih =>
    simp only [List.length_cons, packedLength] at h
    rw [putBytes, packCells, bind_of_ok (put_eq_overlay _ (by omega)), overlay_cons]
    have hrest : pos + 1 + packedLength rest.length ≤ memory.size := by
      rw [packedLength]; omega
    exact ih (Nat.le_trans hrest (Nat.le_of_eq (size_overlay ..).symm))

/-! ### Rows in memory -/

/-- The row of cells stands at `pos`. -/
def Holds (memory : Memory) (pos : Nat) (cs : List Cell) : Prop :=
  ∀ i : Nat, i < cs.length → memory.cells[pos + i]? = cs[i]?

namespace Holds

variable {memory memory' : Memory} {pos : Nat} {cs ds : List Cell}

theorem overlay (memory : Memory) (hfit : pos + cs.length ≤ memory.size) :
    (memory.overlay pos cs).Holds pos cs :=
  fun _ hi => cells_overlay_add hi hfit

theorem of_cell {c : Cell} (h : memory.cells[pos]? = some c) : memory.Holds pos [c] := by
  intro i hi
  obtain rfl : i = 0 := by simpa using hi
  exact h

theorem cell (h : memory.Holds pos cs) {i : Nat} {c : Cell} (hc : cs[i]? = some c) :
    memory.cells[pos + i]? = some c :=
  (h i (List.getElem?_eq_some_iff.mp hc).1).trans hc

theorem get (h : memory.Holds pos cs) {i : Nat} {c : Cell} (hc : cs[i]? = some c) :
    memory.get (pos + i) = .ok c :=
  get_of_some (h.cell hc)

theorem congr (h : memory.Holds pos cs)
    (hsame : ∀ i : Nat, pos ≤ i → i < pos + cs.length → memory'.cells[i]? = memory.cells[i]?) :
    memory'.Holds pos cs :=
  fun i hi => (hsame (pos + i) (by omega) (by omega)).trans (h i hi)

theorem of_overlay (memory : Memory) {pos' : Nat} (hfar : pos + cs.length ≤ pos')
    (h : memory.Holds pos cs) : (memory.overlay pos' ds).Holds pos cs :=
  h.congr fun _ _ hi => cells_overlay_of_lt ds (by omega)

theorem append_iff : memory.Holds pos (cs ++ ds) ↔
    memory.Holds pos cs ∧ memory.Holds (pos + cs.length) ds := by
  refine ⟨fun h => ⟨fun i hi => ?_, fun i hi => ?_⟩, fun ⟨hcs, hds⟩ i hi => ?_⟩
  · rw [h i (by rw [List.length_append]; omega), List.getElem?_append_left hi]
  · rw [Nat.add_assoc, h (cs.length + i) (by rw [List.length_append]; omega),
      List.getElem?_append_right (by omega), Nat.add_sub_cancel_left]
  · rw [List.length_append] at hi
    by_cases hlt : i < cs.length
    · rw [hcs i hlt, List.getElem?_append_left hlt]
    · have := hds (i - cs.length) (by omega)
      rw [List.getElem?_append_right (by omega), ← this]
      congr 1
      omega

theorem left (h : memory.Holds pos (cs ++ ds)) : memory.Holds pos cs :=
  (append_iff.mp h).1

theorem right (h : memory.Holds pos (cs ++ ds)) : memory.Holds (pos + cs.length) ds :=
  (append_iff.mp h).2

theorem tail {c : Cell} (h : memory.Holds pos (c :: cs)) : memory.Holds (pos + 1) cs :=
  (append_iff.mp (show memory.Holds pos ([c] ++ cs) from h)).2

end Holds

theorem getByte_of_packed {memory : Memory} {pos : Nat} {bs : List UInt8}
    (h : memory.Holds pos (packCells bs)) {i : Nat} {b : UInt8} (hb : bs[i]? = some b) :
    memory.getByte pos i = .ok b := by
  induction bs using packCells.induct generalizing pos i with
  | case1 => simp at hb
  | case2 low =>
    obtain ⟨hi, -⟩ := List.getElem?_eq_some_iff.mp hb
    obtain rfl : i = 0 := by simpa using hi
    have hcell : memory.get pos = .ok (Cell.ofBytes low 0) := h.get (i := 0) rfl
    simpa [getByte, hcell] using hb
  | case3 low high rest ih =>
    have hcell : memory.get pos = .ok (Cell.ofBytes low high) := h.get (i := 0) rfl
    match i with
    | 0 => simpa [getByte, hcell] using hb
    | 1 => simpa [getByte, hcell] using hb
    | i + 2 =>
      have hrest := ih h.tail hb
      have hdiv : pos + (i + 2) / 2 = pos + 1 + i / 2 := by omega
      have hmod : (i + 2) % 2 = i % 2 := by omega
      rw [getByte, hdiv, hmod]
      exact hrest

/-- A packed string can be read back. -/
theorem getBytes_of_packed {memory : Memory} {pos : Nat} {bs : List UInt8}
    (h : memory.Holds pos (packCells bs)) : memory.getBytes pos bs.length = .ok bs := by
  refine mapM_eq_ok_iff.mpr (List.ext_getElem (by simp) fun i _ hi => ?_)
  rw [List.length_map] at hi
  rw [List.getElem_map, List.getElem_map, List.getElem_range]
  exact getByte_of_packed h (List.getElem?_eq_getElem hi)

/-- Bytes that have been read together can be read one by one. -/
theorem getByte_of_getBytes {memory : Memory} {pos n : Nat} {bs : List UInt8}
    (h : memory.getBytes pos n = .ok bs) :
    bs.length = n ∧ ∀ i b, bs[i]? = some b → memory.getByte pos i = .ok b := by
  have hrow : (List.range n).map (memory.getByte pos) = bs.map .ok := mapM_eq_ok_iff.mp h
  have hlength : n = bs.length := by simpa using congrArg List.length hrow
  refine ⟨hlength.symm, fun i b hb => ?_⟩
  obtain ⟨hi, rfl⟩ := List.getElem?_eq_some_iff.mp hb
  have hbyte := congrArg (·[i]?) hrow
  simpa [hlength, hi] using hbyte

theorem fault_of_getByte {memory : Memory} {pos i : Nat} {e : Fault}
    (h : memory.getByte pos i = .error e) : e = .invalidMemoryAddress := by
  unfold getByte at h
  cases hget : memory.get (pos + i / 2) with
  | ok c =>
    rw [hget] at h
    cases h
  | error e' =>
    rw [hget] at h
    cases h
    exact (get_eq_error_iff.mp hget).2

/-- Whichever byte is the first that cannot be read, it is for its address. -/
theorem fault_of_getBytes {memory : Memory} {pos n : Nat} {e : Fault}
    (h : memory.getBytes pos n = .error e) : e = .invalidMemoryAddress := by
  obtain ⟨i, -, hi⟩ := exists_of_mapM_eq_error h
  exact fault_of_getByte hi

/-! ### Agreement below an offset -/

/-- Two memories have the same cells below an offset. -/
def AgreeBelow (bound : Nat) (memory memory' : Memory) : Prop :=
  ∀ i : Nat, i < bound → memory.cells[i]? = memory'.cells[i]?

namespace AgreeBelow

variable {bound : Nat} {memory memory' memory'' : Memory}

theorem refl (bound : Nat) (memory : Memory) : AgreeBelow bound memory memory :=
  fun _ _ => rfl

theorem trans (h : AgreeBelow bound memory memory') (h' : AgreeBelow bound memory' memory'') :
    AgreeBelow bound memory memory'' :=
  fun i hi => (h i hi).trans (h' i hi)

theorem mono {bound' : Nat} (h : AgreeBelow bound memory memory') (hle : bound' ≤ bound) :
    AgreeBelow bound' memory memory' :=
  fun i hi => h i (Nat.lt_of_lt_of_le hi hle)

theorem get (h : AgreeBelow bound memory memory') {pos : Nat} (hpos : pos < bound) :
    memory.get pos = memory'.get pos :=
  get_congr (h pos hpos)

theorem holds (h : AgreeBelow bound memory memory') {pos : Nat} {cs : List Cell}
    (hholds : memory'.Holds pos cs) (hle : pos + cs.length ≤ bound) : memory.Holds pos cs :=
  hholds.congr fun i _ hi => h i (Nat.lt_of_lt_of_le hi hle)

theorem overlay (memory : Memory) {pos : Nat} (cs : List Cell) (hle : bound ≤ pos) :
    AgreeBelow bound (memory.overlay pos cs) memory :=
  fun _ hi => cells_overlay_of_lt cs (Nat.lt_of_lt_of_le hi hle)

end AgreeBelow

end Memory

end CellForth
