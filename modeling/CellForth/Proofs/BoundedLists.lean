import CellForth.Request
import CellForth.Proofs.Stack

/-!
# Stacks are bounded lists

Seen from outside, a stack is a list of at most so many cells. `StackRequest.onList` says what such
a list answers to a request, bottom first, as `Stack.toList` gives it: a push is refused if and only
if the list is full, any other request if and only if it needs more items than there are, and a
refusal leaves the list alone. It knows nothing of memory, of a pointer, or of the cells that
earlier items have left behind above it.

`Stack.serve_refines_list` says that a stack in memory answers every row of requests as the list
does. One request is `StackRequest.perform_cases`, and a row of them follows by induction, for what
a request leaves behind is a stack in its bounds again. What has become of a stack, `Stack.Carries`,
also says what has not: cells outside of the range are never touched.
-/

namespace CellForth

/-! ### Rows of requests -/

section Serve

variable {ι ε σ α : Type}

/-- What the one who asks is told. -/
def told : EStateM.Result ε σ α → Except ε α
  | .ok a _ => .ok a
  | .error e _ => .error e

/-- Makes requests one after the other, going on behind a refusal: what is told, and the state in
the end. -/
def serve (op : ι → EStateM ε σ α) : List ι → σ → List (Except ε α) × σ
  | [], s => ([], s)
  | request :: rest, s =>
    let r := op request s
    let (replies, t) := serve op rest (endState r)
    (told r :: replies, t)

theorem serve_cons (op : ι → EStateM ε σ α) (request : ι) (rest : List ι) (s : σ) :
    serve op (request :: rest) s =
      (told (op request s) :: (serve op rest (endState (op request s))).1,
        (serve op rest (endState (op request s))).2) := rfl

end Serve

/-! ### Bounded lists -/

namespace StackRequest

/-- The number of items that have to be there. -/
def needs : StackRequest → Nat
  | pop | peek => 1
  | pick n | set n _ => n + 1
  | require n => n
  | push _ | size | isEmpty | capacity | items => 0

/-- What a list of at most `bound` cells, bottom first, answers, and what becomes of it. -/
def onList (kind : StackKind) (bound : Nat) (request : StackRequest) :
    EStateM Fault (List Cell) Answer := fun l =>
  if l.length < request.needs then .error kind.underflow l
  else
    match request with
    | push c => if l.length = bound then .error kind.overflow l else .ok .done (l ++ [c])
    | pop => .ok (.number (l.getLastD 0).toNat) l.dropLast
    | peek => .ok (.number (l.getLastD 0).toNat) l
    | pick n => .ok (.number (l.getD (l.length - 1 - n) 0).toNat) l
    | set n c => .ok .done (l.set (l.length - 1 - n) c)
    | require _ => .ok .done l
    | size => .ok (.number l.length) l
    | isEmpty => .ok (.truth l.isEmpty) l
    | capacity => .ok (.number bound) l
    | items => .ok (.cells l) l

end StackRequest

/-! ### What has become of a stack -/

namespace Stack

/-- The stack `s` is what has become of `s₀`: it carries the given items, bottom first, it is in the
same range, with its pointer inside, and the memory around is as it was. -/
structure Carries (s₀ s : Stack) (l : List Cell) : Prop where
  /-- The pointer is in the range, and the range in memory. -/
  within : s.WithinBounds
  /-- These are the items. -/
  toList_eq : s.toList = l
  /-- The range begins where it began. -/
  base_eq : s.base = s₀.base
  /-- The range ends where it ended. -/
  limit_eq : s.limit = s₀.limit
  /-- The stack raises the same faults. -/
  kind_eq : s.kind = s₀.kind
  /-- Memory has as many cells as before. -/
  size_eq : s.memory.size = s₀.memory.size
  /-- No cell outside of the range has changed. -/
  outside (i : Nat) (hi : i < s₀.base.toNat ∨ s₀.limit.toNat ≤ i) :
    s.memory.cells[i]? = s₀.memory.cells[i]?

namespace Carries

variable {s₀ s s' : Stack} {l l' : List Cell} {n : Nat} {vs : List Cell}

theorem refl (h : s.WithinBounds) : s.Carries s s.toList where
  within := h
  toList_eq := rfl
  base_eq := rfl
  limit_eq := rfl
  kind_eq := rfl
  size_eq := rfl
  outside _ _ := rfl

theorem trans (h : s₀.Carries s l) (h' : s.Carries s' l') : s₀.Carries s' l' where
  within := h'.within
  toList_eq := h'.toList_eq
  base_eq := h'.base_eq.trans h.base_eq
  limit_eq := h'.limit_eq.trans h.limit_eq
  kind_eq := h'.kind_eq.trans h.kind_eq
  size_eq := h'.size_eq.trans h.size_eq
  outside i hi := by
    have hi' : i < s.base.toNat ∨ s.limit.toNat ≤ i := by rwa [h.base_eq, h.limit_eq]
    exact (h'.outside i hi').trans (h.outside i hi)

theorem capacity_eq (h : s₀.Carries s l) : s.capacity = s₀.capacity := by
  rw [capacity, capacity, h.base_eq, h.limit_eq]

/-- A stack in its bounds after a replacement at its top. -/
theorem replaced (h : s.WithinBounds) (hfits : s.Fits n vs) :
    s.Carries (s.replaced n vs) (s.toList.take (s.size - n) ++ vs) where
  within := h.replaced hfits
  toList_eq := h.toList_replaced hfits
  base_eq := rfl
  limit_eq := rfl
  kind_eq := rfl
  size_eq := memory_size_replaced s n vs
  outside i hi := by
    have hsize := h.size_eq
    have hroom := h.room_eq
    obtain ⟨hn, hvs⟩ := hfits
    exact cells_replaced (by omega)

/-- A stack in its bounds after one of its items has been overwritten. -/
theorem overwritten (h : s.WithinBounds) (hn : n < s.size) (v : Cell) :
    s.Carries { s with memory := s.memory.overlay (s.pointer.toNat - 1 - n) [v] }
      (s.toList.set (s.size - 1 - n) v) := by
  have hsize := h.size_eq
  have hpointer := h.pointer_le
  have hlimit := h.limit_le
  have hmemory : (s.memory.overlay (s.pointer.toNat - 1 - n) [v]).size = s.memory.size :=
    Memory.size_overlay ..
  refine
    { within := ⟨h.base_le, h.pointer_le, by rwa [hmemory]⟩
      toList_eq := List.ext_getElem? fun i => ?_
      base_eq := rfl
      limit_eq := rfl
      kind_eq := rfl
      size_eq := hmemory
      outside := fun i hi => ?_ }
  · -- The cell that is overwritten is the only one that differs, on both sides.
    have hnew :
        ({ s with memory := s.memory.overlay (s.pointer.toNat - 1 - n) [v] } : Stack).toList[i]? =
        if i < s.size then (s.memory.overlay (s.pointer.toNat - 1 - n) [v]).cells[s.base.toNat + i]?
        else none := getElem?_toList _ i
    rw [hnew, List.getElem?_set, h.length_toList, getElem?_toList, Memory.cells_overlay,
      List.length_singleton]
    by_cases hi : s.size - 1 - n = i
    · rw [if_pos hi, if_pos (by omega), if_pos (by omega), if_pos (by omega),
        show s.base.toNat + i - (s.pointer.toNat - 1 - n) = 0 by omega]
      rfl
    · rw [if_neg hi, if_neg (c := _ ∧ _) (by omega)]
  · show (s.memory.overlay (s.pointer.toNat - 1 - n) [v]).cells[i]? = _
    rw [Memory.cells_overlay, if_neg (by rw [List.length_singleton]; omega)]

end Carries

/-! ### One request -/

section Requests

variable {s : Stack} (h : s.WithinBounds)
include h

/-- The item at a depth, counted from the other end of the list. -/
theorem WithinBounds.pick_of_lt {n : Nat} (hn : n < s.toList.length) :
    pick n s = .ok (s.toList.getD (s.toList.length - 1 - n) 0) s := by
  refine h.pick_of_some ?_
  rw [items, List.getElem?_reverse hn, List.getD_eq_getElem?_getD,
    List.getElem?_eq_getElem (by omega), Option.getD_some]

theorem WithinBounds.pick_of_le {n : Nat} (hn : s.toList.length ≤ n) :
    pick n s = .error s.kind.underflow s :=
  h.pick_of_none (List.getElem?_eq_none (by rwa [items, List.length_reverse]))

theorem WithinBounds.peek_of_ne_nil (hne : s.toList ≠ []) :
    peek s = .ok (s.toList.getLastD 0) s := by
  have hpick := h.pick_of_lt (List.length_pos_iff.mpr hne)
  rw [peek, hpick, Nat.sub_zero, List.getLastD_eq_getLast?, List.getLast?_eq_getElem?,
    List.getD_eq_getElem?_getD]

theorem WithinBounds.pop_of_ne_nil (hne : s.toList ≠ []) :
    pop s = .ok (s.toList.getLastD 0) (s.replaced 1 []) := by
  obtain ⟨l, c, hlist⟩ := List.eq_nil_or_concat s.toList |>.resolve_left hne
  have hitems : s.items = c :: l.reverse := by rw [items, hlist, List.concat_eq_append]; simp
  rw [h.pop_of_cons hitems, hlist]
  simp

end Requests

end Stack

theorem StackKind.underflow_ne (kind : StackKind) : kind.underflow ≠ .invalidMemoryAddress := by
  cases kind <;> decide

theorem StackKind.overflow_ne (kind : StackKind) : kind.overflow ≠ .invalidMemoryAddress := by
  cases kind <;> decide

namespace StackRequest

open Stack (Carries)

variable {s : Stack}

/-- A stack without enough items refuses, and is left as it was. -/
theorem perform_of_lt (h : s.WithinBounds) {request : StackRequest}
    (hneeds : s.toList.length < request.needs) :
    request.perform s = .error s.kind.underflow s := by
  have hsize := h.length_toList
  have hempty (hlt : s.toList.length < 1) : s.items = [] := by
    rw [Stack.items, List.length_eq_zero_iff.mp (Nat.lt_one_iff.mp hlt), List.reverse_nil]
  cases request with
  | pop => exact bind_of_error (h.pop_of_nil (hempty hneeds))
  | peek => exact bind_of_error (h.peek_of_nil (hempty hneeds))
  | pick n => exact bind_of_error (h.pick_of_le (Nat.lt_succ_iff.mp hneeds))
  | set n c =>
    have hset := h.set_eq n c
    rw [if_neg (by rw [← hsize]; exact Nat.not_lt.mpr (Nat.lt_succ_iff.mp hneeds))] at hset
    exact bind_of_error hset
  | require n =>
    exact bind_of_error (h.require_of_lt (by rwa [Stack.items, List.length_reverse]))
  | push | size | isEmpty | capacity | items => exact absurd hneeds (Nat.not_lt_zero _)

/-- A stack answers a request as the list of its items does: both refuse, with a fault that is not
one of memory, and nothing has changed; or both give the same answer, and the stack carries the
items that the list has become. -/
theorem perform_cases (h : s.WithinBounds) (request : StackRequest) :
    (∃ e, e ≠ .invalidMemoryAddress ∧
      request.onList s.kind s.capacity s.toList = .error e s.toList ∧
      request.perform s = .error e s) ∨
    ∃ a l s', request.onList s.kind s.capacity s.toList = .ok a l ∧
      request.perform s = .ok a s' ∧ s.Carries s' l := by
  have hsize := h.length_toList
  by_cases hneeds : s.toList.length < request.needs
  · exact .inl ⟨_, s.kind.underflow_ne, if_pos hneeds, perform_of_lt h hneeds⟩
  -- From here on the operands are there, so that only a push can still be refused.
  have hlist : request.onList s.kind s.capacity s.toList = _ := if_neg hneeds
  cases request with
  | push c =>
    have hroom : s.size + s.room = s.capacity := by
      have := h.size_eq
      have := h.room_eq
      have := h.pointer_le
      unfold Stack.capacity
      omega
    have hpush := h.push_eq c
    by_cases hfull : s.toList.length = s.capacity
    · rw [if_neg (by omega)] at hpush
      exact .inl ⟨_, s.kind.overflow_ne, hlist.trans (if_pos hfull), bind_of_error hpush⟩
    · rw [if_pos (by omega)] at hpush
      have hfits : s.Fits 0 [c] := ⟨Nat.zero_le _, by rw [List.length_singleton]; omega⟩
      have hcarries := Carries.replaced h hfits
      rw [Nat.sub_zero, ← hsize, List.take_length] at hcarries
      exact .inr ⟨_, _, _, hlist.trans (if_neg hfull), bind_of_ok hpush, hcarries⟩
  | pop =>
    have hpos : 0 < s.toList.length := Nat.not_lt.mp hneeds
    have hfits : s.Fits 1 [] := ⟨by omega, Nat.zero_le _⟩
    have hcarries := Carries.replaced h hfits
    rw [List.append_nil, ← hsize, ← List.dropLast_eq_take] at hcarries
    exact .inr ⟨_, _, _, hlist, bind_of_ok (h.pop_of_ne_nil (List.length_pos_iff.mp hpos)),
      hcarries⟩
  | peek =>
    have hpos : 0 < s.toList.length := Nat.not_lt.mp hneeds
    exact .inr ⟨_, _, _, hlist, bind_of_ok (h.peek_of_ne_nil (List.length_pos_iff.mp hpos)),
      .refl h⟩
  | pick n => exact .inr ⟨_, _, _, hlist, bind_of_ok (h.pick_of_lt (Nat.not_lt.mp hneeds)), .refl h⟩
  | set n c =>
    have hn : n < s.size := hsize ▸ Nat.not_lt.mp hneeds
    have hset := h.set_eq n c
    rw [if_pos hn] at hset
    have hcarries := Carries.overwritten h hn c
    rw [← hsize] at hcarries
    exact .inr ⟨_, _, _, hlist, bind_of_ok hset, hcarries⟩
  | require n =>
    have hrequire := h.require_of_le (n := n) (by
      rw [Stack.items, List.length_reverse]
      exact Nat.not_lt.mp hneeds)
    exact .inr ⟨_, _, _, hlist, bind_of_ok hrequire, .refl h⟩
  | size => exact .inr ⟨_, _, _, hlist, by rw [hsize]; rfl, .refl h⟩
  | isEmpty =>
    have hempty : s.isEmpty = s.toList.isEmpty := by
      have hpointer := h.size_eq
      rw [Bool.eq_iff_iff, List.isEmpty_iff_length_eq_zero, Stack.isEmpty, decide_eq_true_iff,
        UInt16.le_iff_toNat_le]
      omega
    exact .inr ⟨_, _, _, hlist, by rw [← hempty]; rfl, .refl h⟩
  | capacity => exact .inr ⟨_, _, _, hlist, rfl, .refl h⟩
  | items => exact .inr ⟨_, _, _, hlist, rfl, .refl h⟩

end StackRequest

/-! ### Rows of requests to a stack -/

namespace Stack

/-- **A stack refines a bounded list.** Whatever is asked of a stack in its bounds, and in whatever
order, it answers as the list of its items does, of which it holds as many as its range has cells.
It stays in its bounds and its range, and no cell outside of that range ever changes; no fault is
one of memory; and whatever has been asked before, a request that is refused leaves the stack as it
was. -/
theorem serve_refines_list {s : Stack} (h : s.WithinBounds) (requests : List StackRequest) :
    (serve StackRequest.perform requests s).1 =
        (serve (StackRequest.onList s.kind s.capacity) requests s.toList).1 ∧
      s.Carries (serve StackRequest.perform requests s).2
        (serve (StackRequest.onList s.kind s.capacity) requests s.toList).2 ∧
      (∀ reply ∈ (serve StackRequest.perform requests s).1, reply ≠ .error .invalidMemoryAddress) ∧
      ∀ (request : StackRequest) (e : Fault) (t : Stack),
        request.perform (serve StackRequest.perform requests s).2 = .error e t →
          t = (serve StackRequest.perform requests s).2 := by
  -- The induction is on the row; what one request has left is a stack in its bounds, with its list.
  induction requests generalizing s with
  | nil =>
    refine ⟨rfl, .refl h, fun _ hreply => absurd hreply List.not_mem_nil, fun request e t ht => ?_⟩
    obtain ⟨e', -, -, herror⟩ | ⟨a, l, s', -, hok, -⟩ := request.perform_cases h
    · exact (EStateM.Result.error.inj (ht.symm.trans herror)).2
    · cases hok.symm.trans ht
  | cons request rest ih =>
    obtain ⟨e, hne, hlist, herror⟩ | ⟨a, l, s', hlist, hok, hcarries⟩ := request.perform_cases h
    · obtain ⟨hreplies, hend, hfaults, hrefused⟩ := ih h
      simp only [serve_cons, hlist, herror, endState_error, told]
      refine ⟨congrArg _ hreplies, hend, ?_, hrefused⟩
      rw [List.forall_mem_cons]
      exact ⟨fun heq => hne (Except.error.inj heq), hfaults⟩
    · obtain ⟨hreplies, hend, hfaults, hrefused⟩ := ih hcarries.within
      rw [hcarries.kind_eq, hcarries.capacity_eq, hcarries.toList_eq] at hreplies hend
      simp only [serve_cons, hlist, hok, endState_ok, told]
      refine ⟨congrArg _ hreplies, hcarries.trans hend, ?_, hrefused⟩
      rw [List.forall_mem_cons]
      exact ⟨nofun, hfaults⟩

/-- A stack for two items between other cells: the third push overflows, a look below the bottom and
the third pop underflow, and the cells on either side are as they were. -/
theorem serve_refines_list_of_two :
    ∃ s : Stack, s.WithinBounds ∧ s.toList = [] ∧ s.capacity = 2 ∧
      (serve StackRequest.perform
        [.push 7, .push 8, .push 9, .pick 2, .set 1 5, .items, .pop, .pop, .pop] s).1 =
        [.ok .done, .ok .done, .error .stackOverflow, .error .stackUnderflow, .ok .done,
          .ok (.cells [5, 8]), .ok (.number 8), .ok (.number 5), .error .stackUnderflow] ∧
      ∃ t, s.Carries t [] := by
  obtain ⟨s, hs, hlist, hcapacity, hkind⟩ :
      ∃ s : Stack, s.WithinBounds ∧ s.toList = [] ∧ s.capacity = 2 ∧ s.kind = .data :=
    ⟨⟨⟨#[1, 2, 3, 4, 5]⟩, 1, 1, 3, .data⟩, by constructor <;> decide, rfl, rfl, rfl⟩
  obtain ⟨hreplies, hend, -, -⟩ := serve_refines_list hs
    [.push 7, .push 8, .push 9, .pick 2, .set 1 5, .items, .pop, .pop, .pop]
  rw [hlist, hcapacity, hkind] at hreplies hend
  exact ⟨s, hs, hlist, hcapacity, hreplies, _, hend⟩

end Stack

end CellForth
