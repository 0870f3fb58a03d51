import CellForth.Words.Arithmetic
import CellForth.Words.Stacks
import CellForth.Proofs.Stack

/-!
# Words as exchanges

A word on a stack is a row of looks, overwritings, pushes and pops, and each of them could be
refused where the ones before it have already written. The words are made so that this does not
happen, and this module says what each of them comes to: on a stack within its bounds, its row is an
*exchange*. `Stack.exchange n vs` takes `n` items off and puts the row `vs` in their place, or it is
refused with the stack as it was, for want of items or else of room.

For most words the new items are copies of the old ones. A `Shuffle` states such a word as data, by
the depths of the items that it leaves, and `StackWord.shuffle?` is the table of them. The body of
every stack word is its exchange (`StackWord.effect_eq`), and so are the bodies of the words that
compute (`WithinBounds.unary_eq`, `WithinBounds.binary_eq` and `WithinBounds.divMod_eq`).

A row is run on a stack of the form `s.replaced n us`, which has its top items `us` in view: an item
that is overwritten is replaced in `us` (`WithinBounds.set_replaced`), and one that is pushed is
added to it (`WithinBounds.push_replaced`). In the beginning the items in view are those that are
there anyway (`WithinBounds.replaced_top`).
-/

namespace CellForth

/-- A rearrangement of the top of a stack. -/
structure Shuffle where
  /-- The number of items taken off. -/
  needs : Nat
  /-- The items left in their place, the last one on top; each is given by its depth before. -/
  leaves : List Nat
  deriving DecidableEq

/-- The words that are shuffles. -/
def StackWord.shuffle? : StackWord → Option Shuffle
  | dup => some ⟨1, [0, 0]⟩
  | drop => some ⟨1, []⟩
  | swap => some ⟨2, [0, 1]⟩
  | copySecond => some ⟨2, [1, 0, 1]⟩
  | rot => some ⟨3, [1, 0, 2]⟩
  | minusRot => some ⟨3, [0, 2, 1]⟩
  | nip => some ⟨2, [0]⟩
  | tuck => some ⟨2, [0, 1, 0]⟩
  | twoDup => some ⟨2, [1, 0, 1, 0]⟩
  | twoDrop => some ⟨2, []⟩
  | twoSwap => some ⟨4, [1, 0, 3, 2]⟩
  | twoOver => some ⟨4, [3, 2, 1, 0, 3, 2]⟩
  | pick | questionDup | depth => none

namespace Stack

/-- Takes `n` items off and puts `vs` in their place, the last one on top, or refuses with the stack
as it was. -/
def exchange (n : Nat) (vs : List Cell) : StackM Unit := fun s =>
  if s.items.length < n then .error s.kind.underflow s
  else if n + s.capacity < s.items.length + vs.length then .error s.kind.overflow s
  else .ok () (s.replaced n vs)

/-- Rearranges the top of a stack. -/
def shuffle (shuffle : Shuffle) : StackM Unit := do
  require shuffle.needs
  let vs ← shuffle.leaves.mapM pick
  exchange shuffle.needs vs

/-- Replaces the top item, a depth, by the item at that depth below it. -/
def pickByDepth : StackM Unit := do
  let u ← peek
  let x ← pick (u.toNat + 1)
  exchange 1 [x]

/-- Doubles the top item unless it is zero. -/
def doubleNonzero : StackM Unit := do
  let x ← peek
  exchange 1 (if x = 0 then [x] else [x, x])

/-- Puts the number of items on top of them. -/
def pushDepth : StackM Unit := do
  let n ← observe fun s => .ok s.size
  exchange 0 [UInt16.ofNat n]

section Exchange

variable {s : Stack} {n : Nat} {us vs : List Cell} (h : s.WithinBounds)
include h

theorem WithinBounds.fits_iff :
    s.Fits n vs ↔ n ≤ s.items.length ∧ s.items.length + vs.length ≤ n + s.capacity := by
  have hsize := h.size_eq
  have hroom := h.room_eq
  have hlen := h.length_items
  have hpointer := h.pointer_le
  simp only [Fits, capacity]
  omega

theorem WithinBounds.exchange_of_fits (hfits : s.Fits n vs) :
    exchange n vs s = .ok () (s.replaced n vs) := by
  obtain ⟨hn, hcap⟩ := h.fits_iff.mp hfits
  rw [exchange, if_neg (by omega), if_neg (by omega)]

/-- An exchange that does not make the stack grow has room. -/
theorem WithinBounds.exchange_of_length_le (hn : n ≤ s.items.length) (hvs : vs.length ≤ n) :
    exchange n vs s = .ok () (s.replaced n vs) :=
  h.exchange_of_fits ⟨h.length_items ▸ hn, Nat.le_add_right_of_le hvs⟩

/-! ### Items in view -/

/-- Putting more on top after a replacement is one larger replacement. -/
theorem WithinBounds.replaced_append (hfits : s.Fits n (us ++ vs)) :
    (s.replaced n us).replaced 0 vs = s.replaced n (us ++ vs) := by
  have hlen : (us ++ vs).length = us.length + vs.length := List.length_append
  have hus : s.Fits n us := ⟨hfits.1, by have := hfits.2; omega⟩
  have hptr := h.toNat_pointer_replaced hus
  have hvs : (s.replaced n us).Fits 0 vs := by
    have hroom := h.room_eq
    have hroom' := (h.replaced hus).room_eq
    have hsize := h.size_eq
    obtain ⟨hn, hall⟩ := hfits
    rw [limit_replaced] at hroom'
    refine ⟨Nat.zero_le _, ?_⟩
    omega
  have hpointer :
      ((s.replaced n us).replaced 0 vs).pointer = (s.replaced n (us ++ vs)).pointer := by
    refine Cell.eq_of_toNat_eq ?_
    rw [(h.replaced hus).toNat_pointer_replaced hvs, hptr, h.toNat_pointer_replaced hfits, hlen]
    omega
  have hmemory : ((s.replaced n us).replaced 0 vs).memory = (s.replaced n (us ++ vs)).memory := by
    rw [memory_replaced, memory_replaced, memory_replaced, hptr, Nat.sub_zero,
      ← Memory.overlay_append]
  simp only [Stack.replaced] at hpointer hmemory ⊢
  rw [hpointer, hmemory]

/-- Taking one more item off before a replacement is one larger replacement. -/
theorem WithinBounds.replaced_drop (hn : n < s.size) (vs : List Cell) :
    (s.replaced 1 []).replaced n vs = s.replaced (n + 1) vs := by
  have hsize := h.size_eq
  have hptr : (s.pointer - 1).toNat = s.pointer.toNat - 1 :=
    Cell.toNat_sub_ofNat (n := 1) (by omega)
  have hpointer : s.pointer - 1 - UInt16.ofNat n = s.pointer - UInt16.ofNat (n + 1) := by
    refine Cell.eq_of_toNat_eq ?_
    rw [Cell.toNat_sub_ofNat (by omega), Cell.toNat_sub_ofNat (by omega), hptr]
    omega
  have hbase : s.pointer.toNat - 1 - n = s.pointer.toNat - (n + 1) := by omega
  simp [Stack.replaced, hptr, hpointer, hbase]

/-- The items that are there can be brought into view. -/
theorem WithinBounds.replaced_top (us : List Cell) {rest : List Cell}
    (hitems : s.items = us.reverse ++ rest) :
    s.replaced us.length us = s := by
  have hlen := h.length_items
  have hsize := h.size_eq
  have hpointer := h.pointer_le
  have hlimit := h.limit_le
  rw [hitems, List.length_append, List.length_reverse] at hlen
  have hmemory : s.memory.overlay (s.pointer.toNat - us.length) us = s.memory := by
    refine Memory.ext_cells fun i => ?_
    rw [Memory.cells_overlay]
    split
    · rename_i hi
      have hitem := h.getElem?_items (i := s.pointer.toNat - 1 - i) (by omega)
      rw [hitems, List.getElem?_append_left (by rw [List.length_reverse]; omega),
        List.getElem?_reverse (by omega)] at hitem
      have hdepth : us.length - 1 - (s.pointer.toNat - 1 - i) =
          i - (s.pointer.toNat - us.length) := by omega
      have hslot : s.pointer.toNat - 1 - (s.pointer.toNat - 1 - i) = i := by omega
      rwa [hdepth, hslot] at hitem
    · rfl
  simp [Stack.replaced, hmemory]

/-- An item in view is overwritten. -/
theorem WithinBounds.set_replaced (hfits : s.Fits n us) {i : Nat} (hi : i < us.length) (v : Cell) :
    set i v (s.replaced n us) = .ok () (s.replaced n (us.set (us.length - 1 - i) v)) := by
  have hsize := h.size_eq
  have hroom := h.room_eq
  have hlimit := h.limit_le
  have hn := hfits.1
  have hle := hfits.2
  rw [(h.replaced hfits).set_eq, h.size_replaced hfits, if_pos (by omega),
    h.toNat_pointer_replaced hfits]
  have hmemory : (s.replaced n us).memory.overlay (s.pointer.toNat - n + us.length - 1 - i) [v] =
      (s.replaced n (us.set (us.length - 1 - i) v)).memory := by
    refine Memory.ext_cells fun j => ?_
    rw [memory_replaced, memory_replaced, Memory.cells_overlay, Memory.cells_overlay,
      Memory.cells_overlay, Memory.size_overlay, List.length_set, List.getElem?_set]
    by_cases hj : j = s.pointer.toNat - n + us.length - 1 - i
    · subst hj
      rw [if_pos (by simp; omega), if_pos (by omega), if_pos (by omega), if_pos (by omega)]
      simp
    · rw [if_neg (by simp; omega)]
      split
      · rw [if_neg (by omega)]
      · rfl
  rw [hmemory]
  simp [Stack.replaced]

/-- An item is pushed on top of those in view. -/
theorem WithinBounds.push_replaced (us : List Cell) {v : Cell} (hfits : s.Fits n (us ++ [v])) :
    push v (s.replaced n us) = .ok () (s.replaced n (us ++ [v])) := by
  have hlen : (us ++ [v]).length = us.length + 1 := by simp
  have hus : s.Fits n us := ⟨hfits.1, by have := hfits.2; omega⟩
  have hptr := h.toNat_pointer_replaced hus
  have hroom := h.room_eq
  have hroom' := (h.replaced hus).room_eq
  have hsize := h.size_eq
  have hn := hfits.1
  have hle := hfits.2
  rw [limit_replaced] at hroom'
  rw [(h.replaced hus).push_eq, if_pos (by omega), h.replaced_append hfits]

end Exchange

/-! ### Rows of operations -/

section Rows

variable {α : Type} {s : Stack} {n : Nat} {us : List Cell} (h : s.WithinBounds)
include h

theorem WithinBounds.bind_require (hfits : s.Fits n us) {k : Nat} (hk : k ≤ us.length)
    (f : Unit → StackM α) : (require k >>= f) (s.replaced n us) = f () (s.replaced n us) := by
  refine bind_of_ok ((h.replaced hfits).require_of_le ?_)
  rw [h.items_replaced hfits, List.length_append, List.length_reverse]
  omega

theorem WithinBounds.bind_pick (hfits : s.Fits n us) {i : Nat} (hi : i < us.length)
    (f : Cell → StackM α) :
    (pick i >>= f) (s.replaced n us) = f us[us.length - 1 - i] (s.replaced n us) := by
  refine bind_of_ok ((h.replaced hfits).pick_of_some ?_)
  rw [h.items_replaced hfits, List.getElem?_append_left (by rwa [List.length_reverse]),
    List.getElem?_reverse hi, List.getElem?_eq_getElem]

theorem WithinBounds.bind_set (hfits : s.Fits n us) {i : Nat} (hi : i < us.length) (v : Cell)
    (f : Unit → StackM α) : (set i v >>= f) (s.replaced n us) =
      f () (s.replaced n (us.set (us.length - 1 - i) v)) :=
  bind_of_ok (h.set_replaced hfits hi v)

theorem WithinBounds.bind_push {v : Cell} (hfits : s.Fits n (us ++ [v])) (f : Unit → StackM α) :
    (push v >>= f) (s.replaced n us) = f () (s.replaced n (us ++ [v])) :=
  bind_of_ok (h.push_replaced us hfits)

theorem WithinBounds.bind_requireRoom {k : Nat} (hn : n ≤ s.size)
    (hroom : us.length + k ≤ n + s.room) (f : Unit → StackM α) :
    (requireRoom k >>= f) (s.replaced n us) = f () (s.replaced n us) := by
  have hus : s.Fits n us := ⟨hn, by omega⟩
  have hptr := h.toNat_pointer_replaced hus
  have hsize := h.size_eq
  have hold := h.room_eq
  have hnew := (h.replaced hus).room_eq
  rw [limit_replaced] at hnew
  exact bind_of_ok (observe_of_ok (demand_of_pos (by omega)))

theorem WithinBounds.mapM_pick {depths : List Nat} (hdepths : ∀ i ∈ depths, i < s.items.length) :
    depths.mapM pick s = .ok (depths.map fun i => s.items.getD i 0) s := by
  induction depths with
  | nil => rfl
  | cons i depths ih =>
    rw [List.forall_mem_cons] at hdepths
    have hpick : pick i s = .ok (s.items.getD i 0) s := h.pick_of_some (by simp [hdepths.1])
    rw [List.mapM_cons, bind_of_ok hpick, bind_of_ok (ih hdepths.2)]
    rfl

/-- If there are enough items, they can be brought into view. -/
theorem WithinBounds.exists_view (hn : n ≤ s.items.length) :
    ∃ us rest, us.length = n ∧ s.items = us.reverse ++ rest ∧ s.replaced n us = s := by
  have hlen : (s.items.take n).reverse.length = n := by simp [hn]
  have hitems : s.items = (s.items.take n).reverse.reverse ++ s.items.drop n := by simp
  have hview := h.replaced_top _ hitems
  rw [hlen] at hview
  exact ⟨_, _, hlen, hitems, hview⟩

theorem WithinBounds.push_of_full (hfull : s.capacity ≤ s.items.length) (v : Cell) :
    push v s = .error s.kind.overflow s := by
  rw [h.push_eq, if_neg]
  rw [h.length_items] at hfull
  unfold room
  omega

theorem WithinBounds.requireRoom_of_lt {k : Nat} (hfull : s.capacity < s.items.length + k) :
    requireRoom k s = .error s.kind.overflow s := by
  refine observe_of_error (demand_of_neg ?_)
  rw [h.length_items] at hfull
  have hsize := h.size_eq
  have hroom := h.room_eq
  unfold room capacity at *
  omega

end Rows

/-! ### Operations that several words share -/

section Shared

variable {s : Stack} (h : s.WithinBounds)
include h

theorem WithinBounds.push_eq_exchange (c : Cell) : push c s = exchange 0 [c] s := by
  have hlength := h.length_items
  have hsize := h.size_eq
  have hroom := h.room_eq
  have hcapacity : s.base.toNat + s.capacity = s.limit.toNat := by
    unfold capacity
    omega
  rw [h.push_eq, exchange, if_neg (Nat.not_lt_zero _), List.length_singleton]
  by_cases hlt : 0 < s.room
  · rw [if_pos hlt, if_neg (by omega)]
  · rw [if_neg hlt, if_pos (by omega)]

theorem WithinBounds.set_zero_eq (v : Cell) : set 0 v s = exchange 1 [v] s := by
  cases hitems : s.items with
  | nil =>
    have hlen := h.length_items
    rw [hitems, List.length_nil] at hlen
    rw [h.set_eq, if_neg (by omega), exchange, if_pos (by simp [hitems])]
  | cons c rest =>
    rw [h.set_zero_of_cons v hitems, h.exchange_of_length_le (by simp [hitems]) (by simp)]

theorem WithinBounds.drop_of_cons {c : Cell} {rest : List Cell} (hitems : s.items = c :: rest) :
    drop s = .ok () (s.replaced 1 []) :=
  bind_of_ok (h.pop_of_cons hitems)

theorem WithinBounds.drop_eq : drop s = exchange 1 [] s := by
  cases hitems : s.items with
  | nil =>
    rw [exchange, if_pos (by simp [hitems])]
    exact bind_of_error (h.pop_of_nil hitems)
  | cons c rest =>
    rw [h.drop_of_cons hitems, h.exchange_of_length_le (by simp [hitems]) (Nat.zero_le _)]

/-- The items below the top come to light when it is dropped. -/
theorem WithinBounds.items_drop {c : Cell} {rest : List Cell} (hitems : s.items = c :: rest) :
    (s.replaced 1 []).WithinBounds ∧ (s.replaced 1 []).items = rest := by
  have hlen := h.length_items
  rw [hitems, List.length_cons] at hlen
  have hfits : s.Fits 1 [] := ⟨by omega, Nat.zero_le _⟩
  refine ⟨h.replaced hfits, ?_⟩
  rw [h.items_replaced hfits, hitems]
  rfl

theorem WithinBounds.drop_drop {c d : Cell} {rest : List Cell} (hitems : s.items = d :: c :: rest) :
    (drop >>= fun _ => drop) s = .ok () (s.replaced 2 []) := by
  obtain ⟨hbelow, hitems'⟩ := h.items_drop hitems
  have hlen := h.length_items
  rw [hitems, List.length_cons, List.length_cons] at hlen
  rw [bind_of_ok (h.drop_of_cons hitems), hbelow.drop_of_cons hitems', h.replaced_drop (by omega)]

theorem WithinBounds.dropTwo_eq : dropTwo s = exchange 2 [] s := by
  match hitems : s.items with
  | [] | [_] =>
    rw [exchange, hitems, if_pos (by simp)]
    exact bind_of_error (h.require_of_lt (by simp [hitems]))
  | d :: c :: rest =>
    rw [h.exchange_of_length_le (by simp [hitems]) (Nat.zero_le _)]
    exact (bind_of_ok (h.require_of_le (by simp [hitems]))).trans (h.drop_drop hitems)

theorem WithinBounds.pushTwo_eq (x y : Cell) : pushTwo x y s = exchange 0 [x, y] s := by
  rw [exchange, if_neg (Nat.not_lt_zero _), Nat.zero_add]
  split
  · rename_i hfull
    exact bind_of_error (h.requireRoom_of_lt hfull)
  · rename_i hroom
    have hboth : s.Fits 0 [x, y] := h.fits_iff.mpr ⟨Nat.zero_le _, by omega⟩
    have hone : s.Fits 0 [x] := ⟨Nat.zero_le _, Nat.le_of_succ_le hboth.2⟩
    have hview : s.replaced 0 [] = s := by simp [Stack.replaced]
    conv => lhs; rw [← hview]
    rw [pushTwo, h.bind_requireRoom (Nat.zero_le _) (by simpa using hboth.2), h.bind_push hone]
    exact h.push_replaced [x] hboth

theorem WithinBounds.drop_of_fits (hfits : s.Fits 1 []) : drop s = .ok () (s.replaced 1 []) :=
  h.drop_eq.trans (h.exchange_of_fits hfits)

theorem WithinBounds.dropTwo_of_fits (hfits : s.Fits 2 []) :
    dropTwo s = .ok () (s.replaced 2 []) :=
  h.dropTwo_eq.trans (h.exchange_of_fits hfits)

theorem WithinBounds.push_of_fits {c : Cell} (hfits : s.Fits 0 [c]) :
    push c s = .ok () (s.replaced 0 [c]) :=
  (h.push_eq_exchange c).trans (h.exchange_of_fits hfits)

theorem WithinBounds.pushTwo_of_fits {x y : Cell} (hfits : s.Fits 0 [x, y]) :
    pushTwo x y s = .ok () (s.replaced 0 [x, y]) :=
  (h.pushTwo_eq x y).trans (h.exchange_of_fits hfits)

theorem WithinBounds.pushTwo_of_not_fits {x y : Cell} (hfits : ¬s.Fits 0 [x, y]) :
    pushTwo x y s = .error s.kind.overflow s := by
  rw [h.fits_iff] at hfits
  rw [h.pushTwo_eq, exchange, if_neg (Nat.not_lt_zero _), if_pos (by omega)]

end Shared

end Stack

/-! ### Shuffles -/

namespace StackWord

variable {word : StackWord} {shuffle : Shuffle} {s : Stack}

theorem lt_needs_of_mem_leaves (hshuffle : word.shuffle? = some shuffle) :
    ∀ i ∈ shuffle.leaves, i < shuffle.needs := by
  cases word <;> cases hshuffle <;> decide

section Effect

variable (h : s.WithinBounds) (hshuffle : word.shuffle? = some shuffle)
include h hshuffle

/-- Without its items, a shuffle is refused by its first step. -/
theorem effect_of_lt (hlt : s.items.length < shuffle.needs) :
    word.effect s = .error s.kind.underflow s := by
  cases word <;> cases hshuffle
  case dup =>
    exact bind_of_error (h.peek_of_nil (List.length_eq_zero_iff.mp (Nat.lt_one_iff.mp hlt)))
  case drop =>
    exact bind_of_error (h.pop_of_nil (List.length_eq_zero_iff.mp (Nat.lt_one_iff.mp hlt)))
  case copySecond =>
    exact bind_of_error (h.pick_of_none (List.getElem?_eq_none (Nat.le_of_lt_succ hlt)))
  all_goals exact bind_of_error (h.require_of_lt hlt)

/-- Without the room, a shuffle that leaves more than it takes is refused by a check or by its first
push, and nothing has been written before. -/
theorem effect_of_full (hneeds : shuffle.needs ≤ s.items.length)
    (hfull : shuffle.needs + s.capacity < s.items.length + shuffle.leaves.length) :
    word.effect s = .error s.kind.overflow s := by
  have hpick {i : Nat} (hi : i < s.items.length) : Stack.pick i s = .ok s.items[i] s :=
    h.pick_of_some (List.getElem?_eq_getElem hi)
  have hlen := h.length_items
  have hsize := h.size_eq
  have hle := h.pointer_le
  have hcapacity : s.items.length ≤ s.capacity := by
    unfold Stack.capacity
    omega
  cases word <;> cases hshuffle <;> simp only [List.length_cons, List.length_nil] at hfull hneeds
  case dup =>
    exact (bind_of_ok (hpick (by omega))).trans (h.push_of_full (by omega) _)
  case copySecond =>
    exact (bind_of_ok (hpick (by omega))).trans (h.push_of_full (by omega) _)
  case tuck =>
    refine (bind_of_ok (h.require_of_le hneeds)).trans ?_
    refine (bind_of_ok (hpick (by omega))).trans ?_
    refine (bind_of_ok (hpick (by omega))).trans ?_
    exact bind_of_error (h.push_of_full (by omega) _)
  case twoDup =>
    refine (bind_of_ok (h.require_of_le hneeds)).trans ?_
    exact bind_of_error (h.requireRoom_of_lt (by omega))
  case twoOver =>
    refine (bind_of_ok (h.require_of_le hneeds)).trans ?_
    exact bind_of_error (h.requireRoom_of_lt (by omega))
  all_goals omega

/-- With its items and with room for what it leaves, a shuffle puts the latter in their place. -/
theorem effect_of_fits (hneeds : shuffle.needs ≤ s.items.length)
    (hroom : s.items.length + shuffle.leaves.length ≤ shuffle.needs + s.capacity) :
    word.effect s =
      .ok () (s.replaced shuffle.needs (shuffle.leaves.map fun i => s.items.getD i 0)) := by
  obtain ⟨hsize, hmore⟩ : s.Fits shuffle.needs (shuffle.leaves.map fun i => s.items.getD i 0) :=
    h.fits_iff.mpr ⟨hneeds, by rwa [List.length_map]⟩
  rw [List.length_map] at hmore
  have hfits (vs : List Cell)
      (hle : vs.length ≤ shuffle.needs ∨ vs.length ≤ shuffle.leaves.length) :
      s.Fits shuffle.needs vs := ⟨hsize, by omega⟩
  obtain ⟨us, rest, hus, hitems, hview⟩ := h.exists_view hneeds
  -- The three words that pop write below the item that they have taken off; all others write over
  -- the items in view or push on top of them.
  cases word <;> cases hshuffle
  case drop => exact h.drop_eq.trans (h.exchange_of_length_le hneeds (Nat.zero_le _))
  case twoDrop => exact h.dropTwo_eq.trans (h.exchange_of_length_le hneeds (Nat.zero_le _))
  case nip =>
    match us, hus with
    | [x₁, x₂], _ =>
      obtain ⟨hbelow, hitems'⟩ := h.items_drop hitems
      refine (bind_of_ok (h.require_of_le hneeds)).trans ?_
      refine (bind_of_ok (h.pop_of_cons hitems)).trans ?_
      rw [hbelow.set_zero_of_cons x₂ hitems', h.replaced_drop hsize]
      simp [hitems]
  all_goals
    simp only [List.length_cons, List.length_nil, Nat.reduceAdd] at hfits hmore hus hview
  case dup =>
    match us, hus with
    | [x], _ =>
      conv => lhs; rw [← hview]
      simp [effect, Stack.peek, h.bind_pick, h.push_replaced, hfits, hitems]
  case swap | copySecond | tuck =>
    match us, hus with
    | [x₁, x₂], _ =>
      conv => lhs; rw [← hview]
      simp [effect, h.bind_require, h.bind_pick, h.bind_push, h.bind_set, h.set_replaced,
        h.push_replaced, hfits, hitems]
  case rot | minusRot =>
    match us, hus with
    | [x₁, x₂, x₃], _ =>
      conv => lhs; rw [← hview]
      simp [effect, h.bind_require, h.bind_pick, h.bind_set, h.set_replaced, hfits, hitems]
  case twoDup =>
    match us, hus with
    | [x₁, x₂], _ =>
      conv => lhs; rw [← hview]
      simp [effect, h.bind_require, h.bind_requireRoom hsize, h.bind_pick, h.bind_push,
        h.push_replaced, hfits, hitems, hmore]
  case twoSwap =>
    match us, hus with
    | [x₁, x₂, x₃, x₄], _ =>
      conv => lhs; rw [← hview]
      simp [effect, h.bind_require, h.bind_pick, h.bind_set, h.set_replaced, hfits, hitems]
  case twoOver =>
    match us, hus with
    | [x₁, x₂, x₃, x₄], _ =>
      conv => lhs; rw [← hview]
      simp [effect, h.bind_require, h.bind_requireRoom hsize, h.bind_pick, h.bind_push,
        h.push_replaced, hfits, hitems, hmore]

/-- A shuffle on the items: it leaves those that it names. -/
theorem shuffle_eq : Stack.shuffle shuffle s =
    if shuffle.needs ≤ s.items.length then
      Stack.exchange shuffle.needs (shuffle.leaves.map fun i => s.items.getD i 0) s
    else .error s.kind.underflow s := by
  split
  · rename_i hneeds
    refine (bind_of_ok (h.require_of_le hneeds)).trans (bind_of_ok (h.mapM_pick fun i hi => ?_))
    exact Nat.lt_of_lt_of_le (lt_needs_of_mem_leaves hshuffle i hi) hneeds
  · rename_i hneeds
    exact bind_of_error (h.require_of_lt (Nat.lt_of_not_le hneeds))

theorem effect_eq_shuffle : word.effect s = Stack.shuffle shuffle s := by
  rw [shuffle_eq h hshuffle]
  split
  · rename_i hneeds
    rw [Stack.exchange, if_neg (Nat.not_lt.mpr hneeds), List.length_map]
    split
    · rename_i hfull
      exact effect_of_full h hshuffle hneeds hfull
    · rename_i hroom
      exact effect_of_fits h hshuffle hneeds (Nat.le_of_not_lt hroom)
  · rename_i hneeds
    exact effect_of_lt h hshuffle (Nat.lt_of_not_le hneeds)

end Effect

/-! ### The other words on the stack -/

section Others

variable (h : s.WithinBounds)
include h

theorem effect_pick_eq : pick.effect s = Stack.pickByDepth s :=
  observe_bind_congr fun _ _ => observe_bind_congr fun x _ => h.set_zero_eq x

theorem effect_questionDup_eq : questionDup.effect s = Stack.doubleNonzero s := by
  cases hitems : s.items with
  | nil =>
    have hpeek := h.peek_of_nil hitems
    exact (bind_of_error hpeek).trans (bind_of_error hpeek).symm
  | cons x rest =>
    have hpeek := h.peek_of_cons hitems
    refine (bind_of_ok hpeek).trans (Eq.trans ?_ (bind_of_ok hpeek).symm)
    by_cases hx : x = 0
    · have hview : s.replaced 1 [x] = s := h.replaced_top [x] hitems
      rw [if_neg fun hne => hne hx, if_pos hx,
        h.exchange_of_length_le (by simp [hitems]) (by simp), hview]
      rfl
    · have hshuffle : dup.shuffle? = some ⟨1, [0, 0]⟩ := rfl
      have hdup := effect_eq_shuffle h hshuffle
      rw [shuffle_eq h hshuffle, if_pos (by simp [hitems])] at hdup
      rw [if_pos hx, if_neg hx]
      refine (bind_of_ok (f := Stack.push) hpeek).symm.trans (hdup.trans ?_)
      simp [hitems]

theorem effect_depth_eq : depth.effect s = Stack.pushDepth s :=
  observe_bind_congr fun _ _ => h.push_eq_exchange _

end Others

/-- The effect of a stack word as an exchange. -/
def exchanged (word : StackWord) : StackM Unit :=
  match word.shuffle? with
  | some shuffle => Stack.shuffle shuffle
  | none =>
    match word with
    | pick => Stack.pickByDepth
    | questionDup => Stack.doubleNonzero
    | _ => Stack.pushDepth

/-- The body of every stack word is its exchange. -/
theorem effect_eq (h : s.WithinBounds) (word : StackWord) : word.effect s = word.exchanged s := by
  cases hshuffle : word.shuffle? with
  | some shuffle =>
    unfold exchanged
    rw [hshuffle]
    exact effect_eq_shuffle h hshuffle
  | none =>
    cases word with
    | pick => exact effect_pick_eq h
    | questionDup => exact effect_questionDup_eq h
    | depth => exact effect_depth_eq h
    | _ => cases hshuffle

end StackWord

/-! ### Words that compute -/

namespace Cell

/-- Refuses operands of a division that has no result: a zero divisor, or a quotient that does
not fit a cell. -/
def checkDivision (n d : Cell) : Except Fault Unit :=
  if d = 0 then .error .divisionByZero
  else if signed n = -32768 ∧ signed d = -1 then .error .resultOutOfRange
  else .ok ()

/-- The signed quotient, rounded toward zero. -/
def quotient (n d : Cell) : Cell :=
  ofInt ((signed n).tdiv (signed d))

/-- The signed remainder, zero or with the sign of the dividend. -/
def remainder (n d : Cell) : Cell :=
  ofInt ((signed n).tmod (signed d))

theorem signed_eq_zero_iff {c : Cell} : signed c = 0 ↔ c = 0 := by
  constructor
  · intro hc
    rw [← ofInt_signed c, hc]
    rfl
  · rintro rfl
    rfl

/-- A division is refused for its divisor, or quotient and remainder are both missing, or both are
there. -/
theorem division_cases (n d : Cell) :
    d = 0 ∧ checkDivision n d = .error .divisionByZero ∨
    d ≠ 0 ∧ checkedDiv n d = none ∧ checkedRem n d = none ∧
      checkDivision n d = .error .resultOutOfRange ∨
    d ≠ 0 ∧ checkedDiv n d = some (quotient n d) ∧ checkedRem n d = some (remainder n d) ∧
      checkDivision n d = .ok () := by
  by_cases hd : d = 0
  · exact .inl ⟨hd, if_pos hd⟩
  by_cases hrange : signed n = -32768 ∧ signed d = -1
  · have hover : signed d = 0 ∨ divisionOverflows n d = true := .inr (decide_eq_true hrange)
    exact .inr (.inl ⟨hd, if_pos hover, if_pos hover,
      by rw [checkDivision, if_neg hd, if_pos hrange]⟩)
  · have hfine : ¬(signed d = 0 ∨ divisionOverflows n d = true) := by
      rw [signed_eq_zero_iff, divisionOverflows, decide_eq_true_iff]
      exact not_or.mpr ⟨hd, hrange⟩
    exact .inr (.inr ⟨hd, if_neg hfine, if_neg hfine,
      by rw [checkDivision, if_neg hd, if_neg hrange]⟩)

end Cell

theorem BinaryWord.apply_div (x y : Cell) :
    div.apply x y = (Cell.checkDivision x y).map fun _ => Cell.quotient x y := by
  rw [apply]
  obtain ⟨hy, hcheck⟩ | ⟨hy, hdiv, -, hcheck⟩ | ⟨hy, hdiv, -, hcheck⟩ := Cell.division_cases x y
  · rw [if_pos hy, hcheck]
    rfl
  · rw [if_neg hy, hdiv, hcheck]
    rfl
  · rw [if_neg hy, hdiv, hcheck]
    rfl

theorem BinaryWord.apply_mod (x y : Cell) :
    mod.apply x y = (Cell.checkDivision x y).map fun _ => Cell.remainder x y := by
  rw [apply]
  obtain ⟨hy, hcheck⟩ | ⟨hy, -, hrem, hcheck⟩ | ⟨hy, -, hrem, hcheck⟩ := Cell.division_cases x y
  · rw [if_pos hy, hcheck]
    rfl
  · rw [if_neg hy, hrem, hcheck]
    rfl
  · rw [if_neg hy, hrem, hcheck]
    rfl

namespace Stack

/-- Replaces the top two items by what `f` computes from them, the top being its second argument. -/
def combine (f : Cell → Cell → Except Fault (List Cell)) : StackM Unit := do
  require 2
  let y ← pick 0
  let x ← pick 1
  let vs ← settle (f x y)
  exchange 2 vs

section Computing

variable {s : Stack} (h : s.WithinBounds)
include h

theorem WithinBounds.unary_eq (f : Cell → Cell) :
    unary f s = (peek >>= fun x => exchange 1 [f x]) s :=
  observe_bind_congr fun x _ => h.set_zero_eq (f x)

/-- Two words that look at two items and do the same behind it are the same. -/
theorem WithinBounds.twoOperands_congr {f f' : Cell → Cell → StackM Unit}
    (hf : ∀ x y rest, s.items = y :: x :: rest → f x y s = f' x y s) :
    (do
      require 2
      let y ← pick 0
      let x ← pick 1
      f x y : StackM Unit) s =
    (do
      require 2
      let y ← pick 0
      let x ← pick 1
      f' x y : StackM Unit) s := by
  match hitems : s.items with
  | [] | [_] =>
    have hrequire := h.require_of_lt (n := 2) (by simp [hitems])
    rw [bind_of_error hrequire, bind_of_error hrequire]
  | y :: x :: rest =>
    have hrequire := h.require_of_le (n := 2) (by simp [hitems])
    have hy := h.pick_of_some (n := 0) (c := y) (by simp [hitems])
    have hx := h.pick_of_some (n := 1) (c := x) (by simp [hitems])
    rw [bind_of_ok hrequire, bind_of_ok hrequire, bind_of_ok hy, bind_of_ok hy, bind_of_ok hx,
      bind_of_ok hx]
    exact hf x y rest hitems

theorem WithinBounds.binary_eq (f : Cell → Cell → Except Fault Cell) :
    binary f s = combine (fun x y => (f x y).map fun v => [v]) s := by
  refine h.twoOperands_congr fun x y rest hitems => ?_
  dsimp only
  cases f x y with
  | error e => rfl
  | ok v =>
    have hlen := h.length_items
    rw [hitems, List.length_cons, List.length_cons] at hlen
    obtain ⟨hbelow, hitems'⟩ := h.items_drop hitems
    have hdrop : (drop >>= fun _ => set 0 v) s = .ok () (s.replaced 2 [v]) := by
      rw [bind_of_ok (h.drop_of_cons hitems), hbelow.set_zero_of_cons v hitems',
        h.replaced_drop (by omega)]
    exact hdrop.trans (h.exchange_of_length_le (by simp [hitems]) (by simp)).symm

theorem WithinBounds.divMod_eq : divMod s =
    combine (fun x y => (Cell.checkDivision x y).map fun _ =>
      [Cell.remainder x y, Cell.quotient x y]) s := by
  refine h.twoOperands_congr fun n d rest hitems => ?_
  dsimp only
  obtain ⟨hd, hcheck⟩ | ⟨hd, hdiv, hrem, hcheck⟩ | ⟨hd, hdiv, hrem, hcheck⟩ :=
    Cell.division_cases n d
  · rw [demand_of_neg fun hne => hne hd, hcheck]
    rfl
  · rw [demand_of_pos hd, hrem, hcheck]
    rfl
  · rw [demand_of_pos hd, hdiv, hrem, hcheck]
    have hview := h.replaced_top [n, d] hitems
    have hlen := h.length_items
    rw [hitems, List.length_cons, List.length_cons] at hlen
    have hfits (vs : List Cell) (hle : vs.length ≤ 2) : s.Fits 2 vs := ⟨by omega, by omega⟩
    refine Eq.trans ?_ (h.exchange_of_fits (hfits _ (Nat.le_refl _))).symm
    show (set 1 (Cell.remainder n d) >>= fun _ => set 0 (Cell.quotient n d)) s = _
    conv => lhs; rw [← hview]
    simp [h.bind_set, h.set_replaced, hfits]

end Computing

end Stack

/-! ### Operations that are refused in place -/

namespace Stack

/-- The operation is refused, or it replaces items at the top. -/
def Replaces {α : Type} (op : StackM α) : Prop :=
  ∀ s : Stack, s.WithinBounds →
    (∃ e, op s = .error e s) ∨ ∃ a n vs, s.Fits n vs ∧ op s = .ok a (s.replaced n vs)

/-- The operation is refused, or it takes items off the top. -/
def Drops {α : Type} (op : StackM α) : Prop :=
  ∀ s : Stack, s.WithinBounds →
    (∃ e, op s = .error e s) ∨ ∃ a n, n ≤ s.size ∧ op s = .ok a (s.replaced n [])

variable {α β : Type}

theorem Drops.replaces {op : StackM α} (h : Drops op) : Replaces op := by
  intro s hs
  obtain ⟨e, he⟩ | ⟨a, n, hn, hok⟩ := h s hs
  · exact .inl ⟨e, he⟩
  · exact .inr ⟨a, n, [], ⟨hn, Nat.zero_le _⟩, hok⟩

theorem replaced_nil (s : Stack) : s.replaced 0 [] = s := by
  simp [replaced]

/-- An operation that only looks takes nothing off. -/
theorem drops_of_looks {op : StackM α} (hop : ∀ s, endState (op s) = s) : Drops op := by
  intro s _
  have hs := hop s
  cases hr : op s with
  | ok a s' =>
    rw [hr, endState_ok] at hs
    exact .inr ⟨a, 0, Nat.zero_le _, by rw [replaced_nil, hs]⟩
  | error e s' =>
    rw [hr, endState_error] at hs
    exact .inl ⟨e, by rw [hs]⟩

theorem drops_pick (n : Nat) : Drops (pick n) :=
  drops_of_looks fun _ => endState_observe ..

theorem drops_require (n : Nat) : Drops (require n) :=
  drops_of_looks fun _ => endState_observe ..

theorem drops_pop : Drops pop := by
  intro s hs
  have hlength := hs.length_items
  match hitems : s.items with
  | [] => exact .inl ⟨_, hs.pop_of_nil hitems⟩
  | c :: rest =>
    rw [hitems, List.length_cons] at hlength
    exact .inr ⟨c, 1, by omega, hs.pop_of_cons hitems⟩

theorem replaces_exchange (n : Nat) (vs : List Cell) : Replaces (exchange n vs) := by
  intro s hs
  unfold exchange
  split
  · exact .inl ⟨_, rfl⟩
  · split
    · exact .inl ⟨_, rfl⟩
    · exact .inr ⟨(), n, vs, hs.fits_iff.mpr ⟨by omega, by omega⟩, rfl⟩

theorem drops_exchange (n : Nat) : Drops (exchange n []) := by
  intro s hs
  have hlength := hs.length_items
  unfold exchange
  split
  · exact .inl ⟨_, rfl⟩
  · split
    · exact .inl ⟨_, rfl⟩
    · exact .inr ⟨(), n, by omega, rfl⟩

theorem replaces_push (v : Cell) : Replaces (push v) := by
  intro s hs
  rw [hs.push_eq]
  split
  · rename_i hroom
    exact .inr ⟨(), 0, [v], ⟨Nat.zero_le _, by rw [List.length_singleton]; omega⟩, rfl⟩
  · exact .inl ⟨_, rfl⟩

/-- Another value may be given at the end. -/
theorem Replaces.bind_pure {op : StackM α} (h : Replaces op) (f : α → β) :
    Replaces (op >>= fun a => Pure.pure (f a)) := by
  intro s hs
  obtain ⟨e, he⟩ | ⟨a, n, vs, hfits, hok⟩ := h s hs
  · exact .inl ⟨e, bind_of_error he⟩
  · exact .inr ⟨f a, n, vs, hfits, bind_of_ok hok⟩

/-- Looking at the stack may come first. -/
theorem Replaces.looks_bind {x : StackM α} {f : α → StackM β} (hx : ∀ s, endState (x s) = s)
    (hf : ∀ a, Replaces (f a)) : Replaces (x >>= f) := by
  intro s hs
  have hend := hx s
  cases hr : x s with
  | ok a s' =>
    rw [hr, endState_ok] at hend
    rw [bind_of_ok hr, hend]
    exact hf a s hs
  | error e s' =>
    rw [hr, endState_error] at hend
    exact .inl ⟨e, by rw [bind_of_error hr, hend]⟩

theorem Replaces.observe_bind {g : Stack → Except Fault α} {f : α → StackM β}
    (hf : ∀ a, Replaces (f a)) : Replaces (observe g >>= f) :=
  looks_bind (fun _ => endState_observe ..) hf

/-- It does not matter by which steps the stack comes to its end. -/
theorem Replaces.congr {op op' : StackM α} (h : Replaces op')
    (heq : ∀ s : Stack, s.WithinBounds → op s = op' s) : Replaces op := by
  intro s hs
  rw [heq s hs]
  exact h s hs

theorem Drops.congr {op op' : StackM α} (h : Drops op')
    (heq : ∀ s : Stack, s.WithinBounds → op s = op' s) : Drops op := by
  intro s hs
  rw [heq s hs]
  exact h s hs

theorem replaces_pushTwo (x y : Cell) : Replaces (pushTwo x y) :=
  (replaces_exchange 0 [x, y]).congr fun _ hs => hs.pushTwo_eq x y

theorem replaces_set_zero (v : Cell) : Replaces (set 0 v) :=
  (replaces_exchange 1 [v]).congr fun _ hs => hs.set_zero_eq v

theorem drops_drop : Drops drop :=
  (drops_exchange 1).congr fun _ hs => hs.drop_eq

theorem drops_dropTwo : Drops dropTwo :=
  (drops_exchange 2).congr fun _ hs => hs.dropTwo_eq

theorem replaces_unary (f : Cell → Cell) : Replaces (unary f) :=
  .observe_bind fun x => replaces_set_zero (f x)

theorem replaces_combine (f : Cell → Cell → Except Fault (List Cell)) : Replaces (combine f) :=
  .observe_bind fun _ => .observe_bind fun _ => .observe_bind fun _ => .observe_bind fun _ =>
    replaces_exchange _ _

theorem replaces_binary (f : Cell → Cell → Except Fault Cell) : Replaces (binary f) :=
  (replaces_combine _).congr fun _ hs => hs.binary_eq f

theorem replaces_divMod : Replaces divMod :=
  (replaces_combine _).congr fun _ hs => hs.divMod_eq

theorem replaces_shuffle (s : Shuffle) : Replaces (shuffle s) := by
  refine .observe_bind fun _ => .looks_bind (fun t => ?_) fun _ => replaces_exchange _ _
  have hlook : Keeps (· = t) (s.leaves.mapM pick) := .mapM fun _ _ => .observe _
  exact hlook t rfl

/-- Every stack word replaces items at the top. -/
theorem replaces_effect (word : StackWord) : Replaces word.effect := by
  refine Replaces.congr ?_ fun s hs => StackWord.effect_eq hs word
  unfold StackWord.exchanged
  split
  · exact replaces_shuffle _
  · split
    · exact .observe_bind fun _ => .observe_bind fun _ => replaces_exchange _ _
    · exact .observe_bind fun _ => replaces_exchange _ _
    · exact .observe_bind fun _ => replaces_exchange _ _

end Stack

end CellForth
