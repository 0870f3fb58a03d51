import CellForth.Stack
import CellForth.Proofs.Cell
import CellForth.Proofs.Memory

/-!
# Stacks as lists

A stack whose pointer lies in its range, and whose range lies in memory, is `WithinBounds`; it
means the list `Stack.items` of its cells, the top first. Every operation that changes a stack
is then one and the same function of it: `Stack.replaced n vs` takes `n` items off and puts the
row `vs` in their place. The list after that is `WithinBounds.items_replaced`, the cells that it
may have touched are `Stack.cells_replaced`, and the bounds are kept (`WithinBounds.replaced`).

What remains is to say for each operation when it is refused, and with which replacement it
ends otherwise, as `WithinBounds.push_eq` and `WithinBounds.set_eq` do. The words are rows of such
operations; `CellForth.Proofs.Exchange` says of each row what it comes to.
-/

namespace CellForth

namespace Stack

/-- The pointer lies in the range of the stack, and the range in memory. -/
structure WithinBounds (s : Stack) : Prop where
  /-- The pointer is not below the range. -/
  base_le : s.base.toNat ≤ s.pointer.toNat
  /-- The pointer is not above the range. -/
  pointer_le : s.pointer.toNat ≤ s.limit.toNat
  /-- The range does not leave memory. -/
  limit_le : s.limit.toNat ≤ s.memory.size

/-- The items, top first. -/
def items (s : Stack) : List Cell :=
  s.toList.reverse

/-- The stack after its top `n` items have made way for `vs`, the last one on top. -/
def replaced (n : Nat) (vs : List Cell) (s : Stack) : Stack where
  memory := s.memory.overlay (s.pointer.toNat - n) vs
  pointer := s.pointer - UInt16.ofNat n + UInt16.ofNat vs.length
  base := s.base
  limit := s.limit
  kind := s.kind

@[simp] theorem base_replaced (s : Stack) (n : Nat) (vs : List Cell) :
    (s.replaced n vs).base = s.base := rfl

@[simp] theorem limit_replaced (s : Stack) (n : Nat) (vs : List Cell) :
    (s.replaced n vs).limit = s.limit := rfl

@[simp] theorem kind_replaced (s : Stack) (n : Nat) (vs : List Cell) :
    (s.replaced n vs).kind = s.kind := rfl

theorem memory_replaced (s : Stack) (n : Nat) (vs : List Cell) :
    (s.replaced n vs).memory = s.memory.overlay (s.pointer.toNat - n) vs := rfl

/-- There are `n` items to take off, and `vs` fits in their place. -/
def Fits (n : Nat) (vs : List Cell) (s : Stack) : Prop :=
  n ≤ s.size ∧ vs.length ≤ n + s.room

theorem getElem?_toList (s : Stack) (i : Nat) :
    s.toList[i]? = if i < s.size then s.memory.cells[s.base.toNat + i]? else none := by
  rw [toList, Memory.getElem?_slice]
  congr 1
  simp only [eq_iff_iff]
  omega

/-- The items depend on the cells between base and pointer. -/
theorem items_congr {s s' : Stack} (hbase : s'.base = s.base) (hpointer : s'.pointer = s.pointer)
    (hcells : ∀ i : Nat, s.base.toNat ≤ i → i < s.pointer.toNat →
      s'.memory.cells[i]? = s.memory.cells[i]?) : s'.items = s.items := by
  have hsize : s'.size = s.size := by rw [size, size, hbase, hpointer]
  unfold items
  congr 1
  refine List.ext_getElem? fun i => ?_
  rw [getElem?_toList, getElem?_toList, hsize, hbase]
  split
  · rename_i hi
    unfold size at hi
    exact hcells _ (by omega) (by omega)
  · rfl

section Bounds

variable {s : Stack} {n : Nat} {vs : List Cell} (h : s.WithinBounds)
include h

theorem WithinBounds.size_eq : s.base.toNat + s.size = s.pointer.toNat := by
  have := h.base_le
  unfold size
  omega

theorem WithinBounds.room_eq : s.pointer.toNat + s.room = s.limit.toNat := by
  have := h.base_le
  have := h.pointer_le
  unfold room capacity size
  omega

theorem WithinBounds.length_toList : s.toList.length = s.size := by
  have := h.size_eq
  have := h.pointer_le
  have := h.limit_le
  rw [toList, Memory.length_slice (by omega)]
  omega

theorem WithinBounds.length_items : s.items.length = s.size := by
  rw [items, List.length_reverse, h.length_toList]

/-- The item at a depth is the cell that far below the pointer. -/
theorem WithinBounds.getElem?_items {i : Nat} (hi : i < s.size) :
    s.items[i]? = s.memory.cells[s.pointer.toNat - 1 - i]? := by
  have hsize := h.size_eq
  rw [items, List.getElem?_reverse (by rwa [h.length_toList]), h.length_toList,
    getElem?_toList, if_pos (by omega)]
  congr 1
  omega

/-! ### Replacing the top -/

theorem WithinBounds.toNat_pointer_replaced (hfits : s.Fits n vs) :
    (s.replaced n vs).pointer.toNat = s.pointer.toNat - n + vs.length := by
  have hsize := h.size_eq
  have hroom := h.room_eq
  have hlt := s.limit.toNat_lt
  obtain ⟨hn, hvs⟩ := hfits
  have hsub : (s.pointer - UInt16.ofNat n).toNat = s.pointer.toNat - n :=
    Cell.toNat_sub_ofNat (by omega)
  rw [replaced, Cell.toNat_add_ofNat (by omega), hsub]

theorem WithinBounds.replaced (hfits : s.Fits n vs) : (s.replaced n vs).WithinBounds := by
  have hpointer := h.toNat_pointer_replaced hfits
  have hsize := h.size_eq
  have hroom := h.room_eq
  obtain ⟨hn, hvs⟩ := hfits
  refine ⟨?_, ?_, ?_⟩
  · rw [base_replaced]
    omega
  · rw [limit_replaced]
    omega
  · rw [memory_replaced, Memory.size_overlay, limit_replaced]
    exact h.limit_le

theorem WithinBounds.size_replaced (hfits : s.Fits n vs) :
    (s.replaced n vs).size = s.size - n + vs.length := by
  have hpointer := h.toNat_pointer_replaced hfits
  have hnew := (h.replaced hfits).size_eq
  have hsize := h.size_eq
  obtain ⟨hn, hvs⟩ := hfits
  rw [base_replaced] at hnew
  omega

/-- Bottom first, the new items follow the ones that stayed. -/
theorem WithinBounds.toList_replaced (hfits : s.Fits n vs) :
    (s.replaced n vs).toList = s.toList.take (s.size - n) ++ vs := by
  have hsize := h.size_eq
  have hnew := h.size_replaced hfits
  have hroom := h.room_eq
  have hlimit := h.limit_le
  have hlen : (s.toList.take (s.size - n)).length = s.size - n := by
    rw [List.length_take, h.length_toList]
    omega
  obtain ⟨hn, hvs⟩ := hfits
  refine List.ext_getElem? fun i => ?_
  rw [getElem?_toList, hnew, List.getElem?_append, hlen, base_replaced, memory_replaced,
    Memory.cells_overlay]
  by_cases hi : i < s.size - n
  · rw [if_pos (by omega), if_neg (by omega), if_pos hi, List.getElem?_take, if_pos hi,
      getElem?_toList, if_pos (by omega)]
  · rw [if_neg hi]
    by_cases htop : i < s.size - n + vs.length
    · rw [if_pos (by omega), if_pos (by omega)]
      congr 1
      omega
    · rw [if_neg (by omega), List.getElem?_eq_none (by omega)]

/-- Top first, the new items stand in front of the ones that stayed. -/
theorem WithinBounds.items_replaced (hfits : s.Fits n vs) :
    (s.replaced n vs).items = vs.reverse ++ s.items.drop n := by
  have hdrop : s.items.drop n = (s.toList.take (s.size - n)).reverse := by
    rw [items, List.drop_reverse, h.length_toList]
  rw [hdrop, items, h.toList_replaced hfits, List.reverse_append]

end Bounds

/-- Outside of the slots that were rewritten, memory stays as it was. -/
theorem cells_replaced {s : Stack} {n : Nat} {vs : List Cell} {i : Nat}
    (hi : i < s.pointer.toNat - n ∨ s.pointer.toNat - n + vs.length ≤ i) :
    (s.replaced n vs).memory.cells[i]? = s.memory.cells[i]? := by
  rcases hi with hi | hi
  · exact Memory.cells_overlay_of_lt vs hi
  · exact Memory.cells_overlay_of_le hi

@[simp] theorem memory_size_replaced (s : Stack) (n : Nat) (vs : List Cell) :
    (s.replaced n vs).memory.size = s.memory.size :=
  Memory.size_overlay ..

/-! ### Taking off, on any stack -/

theorem isEmpty_iff {s : Stack} : s.isEmpty = true ↔ s.size = 0 := by
  rw [isEmpty, decide_eq_true_iff, UInt16.le_iff_toNat_le, size]
  omega

theorem pop_of_size_eq_zero {s : Stack} (h : s.size = 0) : pop s = .error s.kind.underflow s := by
  unfold pop
  rw [if_pos (isEmpty_iff.mpr h)]

/-- What was taken off leaves a stack that is one item smaller. -/
theorem exists_of_pop {s s' : Stack} {c : Cell} (h : pop s = .ok c s') :
    ∃ pointer, s' = { s with pointer := pointer } ∧ s.size = s'.size + 1 := by
  unfold pop at h
  split at h
  · cases h
  · rename_i hempty
    split at h <;> cases h
    refine ⟨s.pointer - 1, rfl, ?_⟩
    have hlt : s.base.toNat < s.pointer.toNat := by
      rw [isEmpty_iff, size] at hempty
      omega
    have hpointer : (s.pointer - 1).toNat = s.pointer.toNat - 1 :=
      UInt16.toNat_sub_of_le _ _ (UInt16.le_iff_toNat_le.mpr (Nat.one_le_of_lt hlt))
    simp only [size, hpointer]
    omega

/-! ### Reading -/

section Operations

variable {s : Stack} (h : s.WithinBounds)
include h

/-- Peeking reads the list, and is refused where it ends. -/
theorem WithinBounds.peekAt_eq (n : Nat) :
    peekAt n s = match s.items[n]? with
      | some c => .ok c
      | none => .error s.kind.underflow := by
  have hsize := h.size_eq
  have hlen := h.length_items
  unfold peekAt
  split
  · rename_i hn
    rw [h.getElem?_items hn]
    have hin : s.pointer.toNat - 1 - n < s.memory.size := by
      have := h.pointer_le
      have := h.limit_le
      omega
    obtain ⟨c, hget, hcell⟩ := Memory.get_eq_ok_of_lt hin
    rw [hget, hcell]
  · rw [List.getElem?_eq_none (by omega)]

theorem WithinBounds.pick_of_some {n : Nat} {c : Cell} (hc : s.items[n]? = some c) :
    pick n s = .ok c s :=
  observe_of_ok (by rw [h.peekAt_eq, hc])

theorem WithinBounds.pick_of_none {n : Nat} (hn : s.items[n]? = none) :
    pick n s = .error s.kind.underflow s :=
  observe_of_error (by rw [h.peekAt_eq, hn])

theorem WithinBounds.peek_of_cons {c : Cell} {rest : List Cell} (hitems : s.items = c :: rest) :
    peek s = .ok c s :=
  h.pick_of_some (by rw [hitems]; rfl)

theorem WithinBounds.peek_of_nil (hitems : s.items = []) : peek s = .error s.kind.underflow s :=
  h.pick_of_none (by rw [hitems]; rfl)

theorem WithinBounds.require_of_le {n : Nat} (hn : n ≤ s.items.length) :
    require n s = .ok () s :=
  observe_of_ok (demand_of_pos (h.length_items ▸ hn))

theorem WithinBounds.require_of_lt {n : Nat} (hn : s.items.length < n) :
    require n s = .error s.kind.underflow s :=
  observe_of_error (demand_of_neg (by rw [h.length_items] at hn; omega))

/-! ### Writing -/

theorem WithinBounds.push_eq (v : Cell) :
    push v s = if 0 < s.room then .ok () (s.replaced 0 [v]) else .error s.kind.overflow s := by
  have hroom := h.room_eq
  have hlimit := h.limit_le
  by_cases hlt : 0 < s.room
  · have hin : s.pointer.toNat < s.memory.size := by omega
    have hput := Memory.put_eq_overlay v hin
    have hptr : s.pointer < s.limit := UInt16.lt_iff_toNat_lt.mpr (by omega)
    rw [if_pos hlt]
    cases s
    simp only [push, hptr, if_true] at hput ⊢
    rw [hput]
    simp [Stack.replaced]
  · have hptr : ¬ s.pointer < s.limit := by
      rw [UInt16.lt_iff_toNat_lt]
      omega
    rw [if_neg hlt]
    cases s
    simp only [push] at hptr ⊢
    rw [if_neg hptr]

theorem WithinBounds.pop_of_cons {c : Cell} {rest : List Cell} (hitems : s.items = c :: rest) :
    pop s = .ok c (s.replaced 1 []) := by
  have hlen := h.length_items
  have hsize := h.size_eq
  rw [hitems, List.length_cons] at hlen
  have hcell := h.getElem?_items (i := 0) (by omega)
  rw [hitems, List.getElem?_cons_zero, Nat.sub_zero] at hcell
  have hne : s.isEmpty = false := by
    simp only [isEmpty, decide_eq_false_iff_not, UInt16.le_iff_toNat_le]
    omega
  unfold pop
  rw [hne, Memory.get_of_some hcell.symm]
  simp [Stack.replaced]

theorem WithinBounds.pop_of_nil (hitems : s.items = []) : pop s = .error s.kind.underflow s :=
  pop_of_size_eq_zero (by rw [← h.length_items, hitems, List.length_nil])

theorem WithinBounds.set_eq (n : Nat) (v : Cell) :
    set n v s =
      if n < s.size then
        .ok () { s with memory := s.memory.overlay (s.pointer.toNat - 1 - n) [v] }
      else .error s.kind.underflow s := by
  have hsize := h.size_eq
  have hlimit := h.limit_le
  have hpointer := h.pointer_le
  by_cases hn : n < s.size
  · have hin : s.pointer.toNat - 1 - n < s.memory.size := by omega
    have hput := Memory.put_eq_overlay v hin
    rw [if_pos hn]
    cases s
    simp only [set, size] at hn hput ⊢
    rw [if_pos hn, hput]
  · rw [if_neg hn]
    cases s
    simp only [set, size] at hn ⊢
    rw [if_neg hn]

/-- Overwriting the top is replacing it. -/
theorem WithinBounds.set_zero_of_cons {c : Cell} {rest : List Cell} (v : Cell)
    (hitems : s.items = c :: rest) : set 0 v s = .ok () (s.replaced 1 [v]) := by
  have hlen := h.length_items
  rw [hitems, List.length_cons] at hlen
  rw [h.set_eq, if_pos (by omega)]
  simp [Stack.replaced]

end Operations

end Stack

end CellForth
