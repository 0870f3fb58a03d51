import CellForth.Proofs.Refusals
import CellForth.Proofs.Store
import Mathlib.Data.List.Basic

/-!
# Stack comments

A stack comment says what a word does to the stacks: `( x1 x2 -- x2 x1 )` is a word that takes two
items off the data stack and leaves them in the other order, whatever lies below them, and a second
pair of parentheses speaks of the return stack. `Declares` is the list of the comments of all words
on the stacks, with the items bottom first, as a comment writes them; `Machine.Meets` says that the
operands of a comment lie on the stacks.

Where the operands lie there and the results fit, the word does what its comment says and leaves
alone what lies below; where they do not fit, the stack without room overflows; and where operands
are missing, the stack that they are missing from underflows, even if there would be no room either.
A word that was refused has done nothing. All of this is `Builtin.stack_comment_exact`.

Most words are exchanges on one stack, and that they are the right ones is known from lists
(`Stack.rewrites_effect`). The words between the stacks look at an item of one stack, push it to the
other one, and may then drop it.
-/

namespace CellForth

variable {m : Machine} {kind : StackKind}

/-! ### Comments -/

/-- What a word says of itself, with all items bottom first. -/
structure StackComment where
  /-- The operands on the data stack. -/
  before : List Cell
  /-- The results on the data stack. -/
  after : List Cell
  /-- The operands on the return stack. -/
  returnsBefore : List Cell := []
  /-- The results on the return stack. -/
  returnsAfter : List Cell := []

/-- The comments of the words on the stacks, for each choice of the items that they name. All of
them are taken from the top of the stacks, and `n` is the number of items on the data stack. -/
inductive Declares (n : Nat) : Action → StackComment → Prop
  /-- As ( x -- x x ). -/
  | dup (x : Cell) : Declares n (.stack .dup) { before := [x], after := [x, x] }
  /-- As ( x -- ). -/
  | drop (x : Cell) : Declares n (.stack .drop) { before := [x], after := [] }
  /-- As ( x1 x2 -- x2 x1 ). -/
  | swap (x₁ x₂ : Cell) : Declares n (.stack .swap) { before := [x₁, x₂], after := [x₂, x₁] }
  /-- As ( x1 x2 -- x1 x2 x1 ). -/
  | copySecond (x₁ x₂ : Cell) :
    Declares n (.stack .copySecond) { before := [x₁, x₂], after := [x₁, x₂, x₁] }
  /-- As ( x1 x2 x3 -- x2 x3 x1 ). -/
  | rot (x₁ x₂ x₃ : Cell) :
    Declares n (.stack .rot) { before := [x₁, x₂, x₃], after := [x₂, x₃, x₁] }
  /-- As ( x1 x2 x3 -- x3 x1 x2 ). -/
  | minusRot (x₁ x₂ x₃ : Cell) :
    Declares n (.stack .minusRot) { before := [x₁, x₂, x₃], after := [x₃, x₁, x₂] }
  /-- As ( x1 x2 -- x2 ). -/
  | nip (x₁ x₂ : Cell) : Declares n (.stack .nip) { before := [x₁, x₂], after := [x₂] }
  /-- As ( x1 x2 -- x2 x1 x2 ). -/
  | tuck (x₁ x₂ : Cell) :
    Declares n (.stack .tuck) { before := [x₁, x₂], after := [x₂, x₁, x₂] }
  /-- As ( xu ... x0 u -- xu ... x0 xu ). -/
  | pick (x u : Cell) (xs : List Cell) (h : xs.length = u.toNat) :
    Declares n (.stack .pick) { before := x :: xs ++ [u], after := x :: xs ++ [x] }
  /-- As ( 0 -- 0 ). -/
  | questionDupZero : Declares n (.stack .questionDup) { before := [0], after := [0] }
  /-- As ( x -- x x ), where x is not zero. -/
  | questionDup (x : Cell) (h : x ≠ 0) :
    Declares n (.stack .questionDup) { before := [x], after := [x, x] }
  /-- As ( x1 x2 -- x1 x2 x1 x2 ). -/
  | twoDup (x₁ x₂ : Cell) :
    Declares n (.stack .twoDup) { before := [x₁, x₂], after := [x₁, x₂, x₁, x₂] }
  /-- As ( x1 x2 -- ). -/
  | twoDrop (x₁ x₂ : Cell) : Declares n (.stack .twoDrop) { before := [x₁, x₂], after := [] }
  /-- As ( x1 x2 x3 x4 -- x3 x4 x1 x2 ). -/
  | twoSwap (x₁ x₂ x₃ x₄ : Cell) :
    Declares n (.stack .twoSwap) { before := [x₁, x₂, x₃, x₄], after := [x₃, x₄, x₁, x₂] }
  /-- As ( x1 x2 x3 x4 -- x1 x2 x3 x4 x1 x2 ). -/
  | twoOver (x₁ x₂ x₃ x₄ : Cell) :
    Declares n (.stack .twoOver)
      { before := [x₁, x₂, x₃, x₄], after := [x₁, x₂, x₃, x₄, x₁, x₂] }
  /-- As ( -- n ). -/
  | depth : Declares n (.stack .depth) { before := [], after := [UInt16.ofNat n] }
  /-- As ( x -- ) ( R: -- x ). -/
  | toReturn (x : Cell) :
    Declares n (.returns .toReturn) { before := [x], after := [], returnsAfter := [x] }
  /-- As ( -- x ) ( R: x -- ). -/
  | fromReturn (x : Cell) :
    Declares n (.returns .fromReturn) { before := [], after := [x], returnsBefore := [x] }
  /-- As ( -- x ) ( R: x -- x ). -/
  | fetchReturn (x : Cell) :
    Declares n (.returns .fetchReturn)
      { before := [], after := [x], returnsBefore := [x], returnsAfter := [x] }
  /-- As ( -- x1 ) ( R: x1 x2 x3 -- x1 x2 x3 ). -/
  | outerIndex (x₁ x₂ x₃ : Cell) :
    Declares n (.returns .outerIndex)
      { before := [], after := [x₁], returnsBefore := [x₁, x₂, x₃], returnsAfter := [x₁, x₂, x₃] }
  /-- As ( R: x1 x2 -- ). -/
  | unloop (x₁ x₂ : Cell) :
    Declares n (.returns .unloop) { before := [], after := [], returnsBefore := [x₁, x₂] }

/-- The operands of the comment lie on the stacks of the machine, on top of `ds` and of `rs`. -/
structure Machine.Meets (m : Machine) (action : Action) (comment : StackComment)
    (ds rs : List Cell) : Prop where
  /-- It is a comment of the action. -/
  declares : Declares m.dataStack.size action comment
  /-- The operands on the data stack. -/
  data_eq : m.dataStack.toList = ds ++ comment.before
  /-- The operands on the return stack. -/
  returns_eq : m.returnStack.toList = rs ++ comment.returnsBefore

/-- The number of operands of a stack word, if the data stack holds the given items, bottom
first. -/
def StackWord.operands (ds : List Cell) : StackWord → Nat
  | depth => 0
  | dup | drop | questionDup => 1
  | swap | copySecond | nip | tuck | twoDup | twoDrop => 2
  | rot | minusRot => 3
  | twoSwap | twoOver => 4
  | pick =>
    match ds.getLast? with
    | some u => u.toNat + 2
    | none => 1

/-- The number of operands of a word between the stacks. -/
def ReturnWord.operands : ReturnWord → Nat
  | toReturn | fromReturn | fetchReturn => 1
  | unloop => 2
  | outerIndex => 3

/-- The stack on which a word between the stacks has its operands. -/
def ReturnWord.source : ReturnWord → StackKind
  | toReturn => .data
  | fromReturn | fetchReturn | outerIndex | unloop => .returns

/-- The number of operands of a word on the stacks. -/
def Action.operands (ds : List Cell) : Action → Nat
  | stack word => word.operands ds
  | returns word => word.operands
  | _ => 0

/-- The stack on which a word on the stacks has its operands. -/
def Action.source : Action → StackKind
  | returns word => word.source
  | _ => .data

/-! ### Stack words on lists -/

section Lists

variable {word : StackWord} {n : Nat} {comment : StackComment} {ds : List Cell}

/-- As a function of the items, a stack word does what its comment says. -/
theorem Declares.rewrite_eq (h : Declares n (.stack word) comment)
    (hn : n = (ds ++ comment.before).length) :
    word.rewrite (ds ++ comment.before).reverse = .ok (ds ++ comment.after).reverse := by
  cases h with
  | pick x u xs hu =>
    have hx : (xs.reverse ++ x :: ds.reverse)[u.toNat]? = some x := by
      rw [← hu, ← List.length_reverse, List.getElem?_append_right (Nat.le_refl _), Nat.sub_self]
      rfl
    simp [StackWord.rewrite, hx]
  | questionDup x hx => simp [StackWord.rewrite, hx]
  | depth =>
    rw [List.append_nil] at hn
    simp [StackWord.rewrite, hn]
  | _ => simp [StackWord.rewrite]

/-- Its comment has as many operands as the word. -/
theorem Declares.operands_eq (h : Declares n (.stack word) comment) :
    word.operands (ds ++ comment.before) = comment.before.length := by
  cases h with
  | pick x u xs hu =>
    have hlast : (ds ++ (x :: xs ++ [u])).getLast? = some u := by
      rw [← List.append_assoc, List.getLast?_concat]
    rw [StackWord.operands, hlast]
    simp [hu]
  | _ => rfl

theorem exists_append_of_le {ds : List Cell} {k : Nat} (hk : k ≤ ds.length) :
    ∃ rest top, ds = rest ++ top ∧ top.length = k :=
  ⟨ds.take (ds.length - k), ds.drop (ds.length - k), (List.take_append_drop _ _).symm, by
    rw [List.length_drop]
    omega⟩

theorem StackWord.exists_declares_pick (hle : operands ds .pick ≤ ds.length) :
    ∃ comment rest, Declares n (.stack .pick) comment ∧ ds = rest ++ comment.before ∧
      comment.returnsBefore = [] := by
  obtain rfl | ⟨init, u, rfl⟩ := ds.eq_nil_or_concat'
  · cases hle
  · have hu : u.toNat + 1 ≤ init.length := by
      simpa [operands] using hle
    obtain ⟨rest, top, rfl, htop⟩ := exists_append_of_le hu
    match top, htop with
    | x :: xs, htop =>
      exact ⟨_, rest, .pick x u xs (Nat.succ.inj htop), List.append_assoc .., rfl⟩

/-- Where there are enough operands, there is a comment that speaks of them. -/
theorem StackWord.exists_declares (hle : word.operands ds ≤ ds.length) :
    ∃ comment rest, Declares n (.stack word) comment ∧ ds = rest ++ comment.before ∧
      comment.returnsBefore = [] := by
  -- `pick` is the one word whose number of operands is itself an operand.
  by_cases hpick : word = .pick
  · subst hpick
    exact exists_declares_pick hle
  · obtain ⟨rest, top, rfl, htop⟩ := exists_append_of_le hle
    match word, top, htop with
    | .depth, [], _ => exact ⟨_, rest, .depth, rfl, rfl⟩
    | .dup, [x], _ => exact ⟨_, rest, .dup x, rfl, rfl⟩
    | .drop, [x], _ => exact ⟨_, rest, .drop x, rfl, rfl⟩
    | .questionDup, [x], _ =>
      by_cases hx : x = 0
      · subst hx
        exact ⟨_, rest, .questionDupZero, rfl, rfl⟩
      · exact ⟨_, rest, .questionDup x hx, rfl, rfl⟩
    | .swap, [x₁, x₂], _ => exact ⟨_, rest, .swap x₁ x₂, rfl, rfl⟩
    | .copySecond, [x₁, x₂], _ => exact ⟨_, rest, .copySecond x₁ x₂, rfl, rfl⟩
    | .nip, [x₁, x₂], _ => exact ⟨_, rest, .nip x₁ x₂, rfl, rfl⟩
    | .tuck, [x₁, x₂], _ => exact ⟨_, rest, .tuck x₁ x₂, rfl, rfl⟩
    | .twoDup, [x₁, x₂], _ => exact ⟨_, rest, .twoDup x₁ x₂, rfl, rfl⟩
    | .twoDrop, [x₁, x₂], _ => exact ⟨_, rest, .twoDrop x₁ x₂, rfl, rfl⟩
    | .rot, [x₁, x₂, x₃], _ => exact ⟨_, rest, .rot x₁ x₂ x₃, rfl, rfl⟩
    | .minusRot, [x₁, x₂, x₃], _ => exact ⟨_, rest, .minusRot x₁ x₂ x₃, rfl, rfl⟩
    | .twoSwap, [x₁, x₂, x₃, x₄], _ => exact ⟨_, rest, .twoSwap x₁ x₂ x₃ x₄, rfl, rfl⟩
    | .twoOver, [x₁, x₂, x₃, x₄], _ => exact ⟨_, rest, .twoOver x₁ x₂ x₃ x₄, rfl, rfl⟩
    | .pick, _, _ => exact absurd rfl hpick

/-- Where operands are missing, a stack word underflows. -/
theorem StackWord.rewrite_of_lt (hlt : ds.length < word.operands ds) :
    word.rewrite ds.reverse = .error .stackUnderflow := by
  cases hshuffle : word.shuffle? with
  | some shuffle =>
    have hneeds : word.operands ds = shuffle.needs := by
      cases word <;> cases hshuffle <;> rfl
    rw [rewrite_of_shuffle hshuffle, if_neg (by rw [List.length_reverse]; omega)]
  | none =>
    cases word with
    | depth => exact absurd hlt (Nat.not_lt_zero _)
    | questionDup =>
      rw [List.eq_nil_of_length_eq_zero (Nat.lt_one_iff.mp hlt)]
      rfl
    | pick =>
      obtain rfl | ⟨init, u, rfl⟩ := ds.eq_nil_or_concat'
      · rfl
      · have hu : init.length < u.toNat + 1 := by
          simpa [operands] using hlt
        simp [rewrite, Nat.lt_succ_iff.mp hu]
    | _ => cases hshuffle

end Lists

/-! ### One stack of a machine -/

/-- The machine `m'` has the given items on one stack, bottom first, and otherwise the same
stacks. -/
structure Machine.Restacked (m : Machine) (kind : StackKind) (items : List Cell) (m' : Machine) :
    Prop where
  /-- Its stacks are still in order. -/
  ordered : m'.Ordered
  /-- The items of that stack. -/
  items_eq : (m'.stackOf kind).toList = items
  /-- The items of the other stack. -/
  other_eq : (m'.stackOf kind.other).toList = (m.stackOf kind.other).toList
  /-- No stack has become larger or smaller. -/
  capacity_eq : ∀ k, (m'.stackOf k).capacity = (m.stackOf k).capacity

namespace Exec

/-- If the items fit on the stack of a kind, the operation makes them its items, and if not, it is
refused with an overflow of that stack. -/
def Puts (m : Machine) (kind : StackKind) (items : List Cell) (op : Exec Unit) : Prop :=
  (items.length ≤ (m.stackOf kind).capacity → ∃ m', op m = .ok () m' ∧ m.Restacked kind items m') ∧
    ((m.stackOf kind).capacity < items.length → op m = .error kind.overflow m)

/-- An exchange on one stack leaves the items of the other one alone. -/
theorem restacked_replaced (hm : m.Ordered) {rest before vs : List Cell}
    (hitems : (m.stackOf kind).toList = rest ++ before)
    (hfits : (m.stackOf kind).Fits before.length vs) :
    ∃ m', onStack kind (Stack.exchange before.length vs) m = .ok () m' ∧
      m.Restacked kind (rest ++ vs) m' := by
  have hop := (hm.stackOf kind).exchange_of_fits hfits
  have hnew : ((m.stackOf kind).replaced before.length vs).toList = rest ++ vs := by
    have hsize : (m.stackOf kind).size = rest.length + before.length := by
      rw [← (hm.stackOf kind).length_toList, hitems, List.length_append]
    rw [(hm.stackOf kind).toList_replaced hfits, hitems, hsize, Nat.add_sub_cancel, List.take_left]
  cases kind with
  | data =>
    refine ⟨m.replaceData before.length vs, onData_of_ok hop, hm.replaceData hfits, hnew, ?_, ?_⟩
    · refine List.reverse_injective (Stack.items_congr rfl rfl fun i hi _ => ?_)
      exact hm.cells_replaceData hfits (.inr (hm.dataLimit_eq ▸ hi))
    · rintro (_ | _) <;> rfl
  | returns =>
    refine ⟨m.replaceReturn before.length vs, onReturn_of_ok hop, hm.replaceReturn hfits,
      hnew, ?_, ?_⟩
    · refine List.reverse_injective (Stack.items_congr rfl rfl fun i _ hi => ?_)
      refine hm.cells_replaceReturn hfits (Nat.lt_of_lt_of_le hi ?_)
      exact hm.dataLimit_eq ▸ hm.sp_le_dataLimit
    · rintro (_ | _) <;> rfl

/-- An exchange puts its items in the place of the operands. -/
theorem puts_exchange (hm : m.Ordered) (kind : StackKind) {rest before : List Cell} (vs : List Cell)
    (h : (m.stackOf kind).toList = rest ++ before) :
    Puts m kind (rest ++ vs) (onStack kind (Stack.exchange before.length vs)) := by
  have hbounds := hm.stackOf kind
  have hlength : (m.stackOf kind).items.length = rest.length + before.length := by
    rw [Stack.items, List.length_reverse, h, List.length_append]
  unfold Puts
  rw [List.length_append]
  constructor
  · intro hroom
    exact restacked_replaced hm h (hbounds.fits_iff.mpr ⟨by omega, by omega⟩)
  · intro hfull
    refine onStack_of_error ?_
    rw [Stack.exchange, if_neg (by omega), if_pos (by omega)]
    cases kind <;> rfl

/-- It does not matter by which operation the stack comes to its end. -/
theorem Puts.of_eq {items : List Cell} {op op' : StackM Unit}
    (h : Puts m kind items (onStack kind op')) (heq : op (m.stackOf kind) = op' (m.stackOf kind)) :
    Puts m kind items (onStack kind op) := by
  have hon : onStack kind op m = onStack kind op' m := by
    cases kind with
    | data =>
      have hdata : op m.dataStack = op' m.dataStack := heq
      rw [onStack, onStack, onData_eq, onData_eq, hdata]
    | returns =>
      have hreturns : op m.returnStack = op' m.returnStack := heq
      rw [onStack, onStack, onReturn_eq, onReturn_eq, hreturns]
  unfold Puts at h ⊢
  rwa [hon]

/-- A push puts one more item on top. -/
theorem puts_push (hm : m.Ordered) (kind : StackKind) {rest : List Cell} (x : Cell)
    (h : (m.stackOf kind).toList = rest) :
    Puts m kind (rest ++ [x]) (onStack kind (Stack.push x)) :=
  (puts_exchange hm kind [x] (h.trans (List.append_nil rest).symm)).of_eq
    ((hm.stackOf kind).push_eq_exchange x)

/-- An operation that is known from lists puts what it makes of the items in their place. -/
theorem puts_of_rewrites (hm : m.Ordered) {op : StackM Unit}
    {f : List Cell → Except Fault (List Cell)} (hop : Stack.Rewrites op f) {items : List Cell}
    (h : f m.dataStack.toList.reverse = .ok items.reverse) :
    Puts m .data items (onStack .data op) := by
  have hrewrites := hop m.dataStack hm.dataStack rfl
  rw [Stack.items, h] at hrewrites
  obtain ⟨n, vs, hn, hitems, heq⟩ := hrewrites
  have hstack : m.dataStack.toList =
      (m.dataStack.toList.reverse.drop n).reverse ++
      (m.dataStack.toList.reverse.take n).reverse := by
    rw [← List.reverse_append, List.take_append_drop, List.reverse_reverse]
  have hputs := puts_exchange hm .data vs hstack
  rw [List.length_reverse, List.length_take, Nat.min_eq_left hn] at hputs
  have hnew : items = (m.dataStack.toList.reverse.drop n).reverse ++ vs := by
    rw [← List.reverse_inj, hitems, List.reverse_append, List.reverse_reverse]
  rw [hnew]
  exact hputs.of_eq heq

/-- Where it makes nothing of the items, it is refused in place. -/
theorem refused_of_rewrites (hm : m.Ordered) {op : StackM Unit}
    {f : List Cell → Except Fault (List Cell)} (hop : Stack.Rewrites op f) {e : Fault}
    (h : f m.dataStack.toList.reverse = .error e) :
    onStack .data op m = .error e m := by
  have hrewrites := hop m.dataStack hm.dataStack rfl
  rw [Stack.items, h] at hrewrites
  exact onData_of_error hrewrites

/-- A look finds the item with `above` on top of it. -/
theorem pick_of_toList (hm : m.Ordered) (kind : StackKind) {rest above : List Cell} {x : Cell}
    (h : (m.stackOf kind).toList = rest ++ x :: above) :
    onStack kind (Stack.pick above.length) m = .ok x m := by
  have hitem : (m.stackOf kind).items[above.length]? = some x := by
    simp [Stack.items, h]
  cases kind with
  | data => exact onData_of_ok (hm.dataStack.pick_of_some hitem)
  | returns => exact onReturn_of_ok (hm.returnStack.pick_of_some hitem)

/-- A look further down than the stack reaches underflows. -/
theorem pick_of_size_le (hm : m.Ordered) (kind : StackKind) {n : Nat}
    (h : (m.stackOf kind).size ≤ n) :
    onStack kind (Stack.pick n) m = .error kind.underflow m := by
  have hbounds := hm.stackOf kind
  have hnone : (m.stackOf kind).items[n]? = none :=
    List.getElem?_eq_none (by rwa [hbounds.length_items])
  have hpick := hbounds.pick_of_none hnone
  cases kind <;> exact onStack_of_error hpick

end Exec

/-! ### The words -/

/-- The operation does what the comment says, if there is room for the results, and is else refused
with an overflow of the stack on which there is none. -/
structure Machine.Obeys (m : Machine) (comment : StackComment) (ds rs : List Cell)
    (op : Exec Unit) : Prop where
  /-- With room on both stacks. -/
  success : (ds ++ comment.after).length ≤ m.dataStack.capacity →
    (rs ++ comment.returnsAfter).length ≤ m.returnStack.capacity →
      ∃ m', op m = .ok () m' ∧ m'.dataStack.toList = ds ++ comment.after ∧
        m'.returnStack.toList = rs ++ comment.returnsAfter
  /-- Without room on the data stack. -/
  overflow : m.dataStack.capacity < (ds ++ comment.after).length → op m = .error .stackOverflow m
  /-- Without room on the return stack. -/
  returnOverflow : m.returnStack.capacity < (rs ++ comment.returnsAfter).length →
    op m = .error .returnStackOverflow m

theorem Machine.Obeys.of_ok {comment : StackComment} {ds rs : List Cell} {op : Exec Unit}
    {m' : Machine} (h : m.Obeys comment ds rs op) (hok : op m = .ok () m') :
    ((ds ++ comment.after).length ≤ m.dataStack.capacity ∧
      (rs ++ comment.returnsAfter).length ≤ m.returnStack.capacity) ∧
    m'.dataStack.toList = ds ++ comment.after ∧
    m'.returnStack.toList = rs ++ comment.returnsAfter := by
  have hdata : (ds ++ comment.after).length ≤ m.dataStack.capacity := by
    by_contra hfull
    rw [h.overflow (Nat.lt_of_not_le hfull)] at hok
    cases hok
  have hreturns : (rs ++ comment.returnsAfter).length ≤ m.returnStack.capacity := by
    by_contra hfull
    rw [h.returnOverflow (Nat.lt_of_not_le hfull)] at hok
    cases hok
  obtain ⟨m₁, hok₁, hitems⟩ := h.success hdata hreturns
  rw [hok] at hok₁
  cases hok₁
  exact ⟨⟨hdata, hreturns⟩, hitems⟩

/-- Moves the top item of a stack to the other one. -/
def Exec.move (kind : StackKind) : Exec Unit := do
  let x ← Exec.onStack kind Stack.peek
  Exec.onStack kind.other (Stack.push x)
  Exec.onStack kind Stack.drop

/-- Copies the item at some depth of the return stack to the data stack. -/
def Exec.copy (depth : Nat) : Exec Unit := do
  let x ← Exec.onStack .returns (Stack.pick depth)
  Exec.onStack .data (Stack.push x)

namespace Machine

open Exec

variable {comment : StackComment} {ds rs : List Cell} (hm : m.Ordered)
include hm

theorem Ordered.length_toList_le (kind : StackKind) :
    (m.stackOf kind).toList.length ≤ (m.stackOf kind).capacity := by
  have hbounds := hm.stackOf kind
  have hsize := hbounds.size_eq
  have hle := hbounds.pointer_le
  rw [hbounds.length_toList, Stack.capacity]
  omega

/-- A data stack that does not grow has room. -/
theorem Meets.data_fits {action : Action} (h : m.Meets action comment ds rs)
    (hle : comment.after.length ≤ comment.before.length) :
    (ds ++ comment.after).length ≤ m.dataStack.capacity := by
  have hlength := hm.length_toList_le .data
  rw [stackOf, h.data_eq, List.length_append] at hlength
  rw [List.length_append]
  omega

/-- A return stack that does not grow has room. -/
theorem Meets.returns_fit {action : Action} (h : m.Meets action comment ds rs)
    (hle : comment.returnsAfter.length ≤ comment.returnsBefore.length) :
    (rs ++ comment.returnsAfter).length ≤ m.returnStack.capacity := by
  have hlength := hm.length_toList_le .returns
  rw [stackOf, h.returns_eq, List.length_append] at hlength
  rw [List.length_append]
  omega

theorem Meets.obeys_stack {word : StackWord} (h : m.Meets (.stack word) comment ds rs) :
    m.Obeys comment ds rs word.perform := by
  have hreturns : comment.returnsBefore = comment.returnsAfter := by
    cases h.declares <;> rfl
  have hrewrite : word.rewrite m.dataStack.toList.reverse = .ok (ds ++ comment.after).reverse := by
    rw [h.data_eq]
    refine h.declares.rewrite_eq ?_
    rw [← h.data_eq, hm.dataStack.length_toList]
  obtain ⟨hroom, hfull⟩ := puts_of_rewrites hm (Stack.rewrites_effect word) hrewrite
  refine ⟨fun hdata _ => ?_, hfull, fun hlt => ?_⟩
  · obtain ⟨m', hop, hm'⟩ := hroom hdata
    exact ⟨m', hop, hm'.items_eq, hm'.other_eq.trans (hreturns ▸ h.returns_eq)⟩
  · exact absurd (h.returns_fit hm (hreturns ▸ Nat.le_refl _)) (Nat.not_le_of_lt hlt)

/-- An item is moved to the other stack if there is room for it. -/
theorem Ordered.move (kind : StackKind) {rest rest' : List Cell} {x : Cell}
    (h : (m.stackOf kind).toList = rest ++ [x]) (h' : (m.stackOf kind.other).toList = rest') :
    ((rest' ++ [x]).length ≤ (m.stackOf kind.other).capacity →
      ∃ m', Exec.move kind m = .ok () m' ∧ (m'.stackOf kind).toList = rest ∧
        (m'.stackOf kind.other).toList = rest' ++ [x]) ∧
    ((m.stackOf kind.other).capacity < (rest' ++ [x]).length →
      Exec.move kind m = .error kind.other.overflow m) := by
  have hpeek : onStack kind Stack.peek m = .ok x m := pick_of_toList hm kind h
  rw [Exec.move, bind_of_ok hpeek]
  obtain ⟨hroom, hfull⟩ := puts_push hm kind.other x h'
  constructor
  · intro hle
    -- The item is copied first and dropped last, so a full stack leaves both as they were.
    obtain ⟨m₁, hpush, hm₁⟩ := hroom hle
    have hother : kind.other.other = kind := by cases kind <;> rfl
    have hitems : (m₁.stackOf kind).toList = rest ++ [x] := by
      have hsame := hm₁.other_eq
      rwa [hother, h] at hsame
    have hless : (rest ++ []).length ≤ (m₁.stackOf kind).capacity := by
      have hlength := hm₁.ordered.length_toList_le kind
      rw [hitems, List.length_append] at hlength
      rw [List.append_nil]
      omega
    have hputs :=
      (puts_exchange hm₁.ordered kind [] hitems).of_eq (hm₁.ordered.stackOf kind).drop_eq
    obtain ⟨m', hdrop, hm'⟩ := hputs.1 hless
    refine ⟨m', ?_, hm'.items_eq.trans (List.append_nil _), hm'.other_eq.trans hm₁.items_eq⟩
    rw [bind_of_ok hpush]
    exact hdrop
  · intro hlt
    exact bind_of_error (hfull hlt)

/-- An item of the return stack is copied to the data stack if there is room for it. -/
theorem Ordered.copy {rest above : List Cell} {x : Cell}
    (h : m.returnStack.toList = rest ++ x :: above) (h' : m.dataStack.toList = ds) :
    ((ds ++ [x]).length ≤ m.dataStack.capacity →
      ∃ m', Exec.copy above.length m = .ok () m' ∧ m'.dataStack.toList = ds ++ [x] ∧
        m'.returnStack.toList = rest ++ x :: above) ∧
    (m.dataStack.capacity < (ds ++ [x]).length →
      Exec.copy above.length m = .error .stackOverflow m) := by
  rw [Exec.copy, bind_of_ok (pick_of_toList hm .returns h)]
  obtain ⟨hroom, hfull⟩ := puts_push hm .data x h'
  refine ⟨fun hle => ?_, hfull⟩
  obtain ⟨m', hpush, hm'⟩ := hroom hle
  exact ⟨m', hpush, hm'.items_eq, hm'.other_eq.trans h⟩

theorem Meets.obeys_returns {word : ReturnWord} (h : m.Meets (.returns word) comment ds rs) :
    m.Obeys comment ds rs word.perform := by
  have hdata := h.data_fits hm
  have hreturns := h.returns_fit hm
  obtain ⟨hdeclares, hds, hrs⟩ := h
  cases hdeclares with
  | toReturn x =>
    obtain ⟨hroom, hfull⟩ := hm.move .data hds (hrs.trans (List.append_nil _))
    refine ⟨fun _ hle => ?_,
      fun hlt => absurd (hdata (Nat.zero_le _)) (Nat.not_le_of_lt hlt), hfull⟩
    obtain ⟨m', hop, hds', hrs'⟩ := hroom hle
    exact ⟨m', hop, hds'.trans (List.append_nil _).symm, hrs'⟩
  | fromReturn x =>
    obtain ⟨hroom, hfull⟩ := hm.move .returns hrs (hds.trans (List.append_nil _))
    refine ⟨fun hle _ => ?_, hfull,
      fun hlt => absurd (hreturns (Nat.zero_le _)) (Nat.not_le_of_lt hlt)⟩
    obtain ⟨m', hop, hrs', hds'⟩ := hroom hle
    exact ⟨m', hop, hds', hrs'.trans (List.append_nil _).symm⟩
  | fetchReturn x =>
    obtain ⟨hroom, hfull⟩ := hm.copy hrs (hds.trans (List.append_nil _))
    exact ⟨fun hle _ => hroom hle, hfull,
      fun hlt => absurd (hreturns (Nat.le_refl _)) (Nat.not_le_of_lt hlt)⟩
  | outerIndex x₁ x₂ x₃ =>
    obtain ⟨hroom, hfull⟩ := hm.copy hrs (hds.trans (List.append_nil _))
    exact ⟨fun hle _ => hroom hle, hfull,
      fun hlt => absurd (hreturns (Nat.le_refl _)) (Nat.not_le_of_lt hlt)⟩
  | unloop x₁ x₂ =>
    obtain ⟨hroom, hfull⟩ := (puts_exchange hm .returns [] hrs).of_eq hm.returnStack.dropTwo_eq
    refine ⟨fun _ hle => ?_,
      fun hlt => absurd (hdata (Nat.le_refl _)) (Nat.not_le_of_lt hlt), hfull⟩
    obtain ⟨m', hop, hm'⟩ := hroom hle
    exact ⟨m', hop, hm'.other_eq.trans hds, hm'.items_eq⟩

/-- The operation of a word on the stacks. -/
theorem Meets.obeys {action : Action} (h : m.Meets action comment ds rs) :
    m.Obeys comment ds rs action.step := by
  cases action with
  | stack word => exact h.obeys_stack hm
  | returns word => exact h.obeys_returns hm
  | _ => cases h.declares

/-- Without its operands, a word on the stacks underflows. -/
theorem Ordered.underflows {action : Action}
    (hlt : (m.stackOf action.source).size < action.operands m.dataStack.toList) :
    action.step m = .error action.source.underflow m := by
  cases action with
  | stack word =>
    have hlength : m.dataStack.toList.length < word.operands m.dataStack.toList := by
      rwa [hm.dataStack.length_toList]
    exact refused_of_rewrites hm (Stack.rewrites_effect word) (StackWord.rewrite_of_lt hlength)
  | returns word =>
    have hle : (m.stackOf word.source).size ≤ word.operands - 1 := Nat.le_pred_of_lt hlt
    cases word with
    | unloop =>
      have hshort : m.returnStack.items.length < 2 := by
        rwa [hm.returnStack.length_items]
      exact onReturn_of_error (bind_of_error (hm.returnStack.require_of_lt hshort))
    | toReturn => exact bind_of_error (pick_of_size_le hm .data hle)
    | fromReturn => exact bind_of_error (pick_of_size_le hm .returns hle)
    | fetchReturn => exact bind_of_error (pick_of_size_le hm .returns hle)
    | outerIndex => exact bind_of_error (pick_of_size_le hm .returns hle)
  | _ => exact absurd hlt (Nat.not_lt_zero _)

theorem Ordered.exists_meets_stack_iff {word : StackWord} :
    (∃ comment ds rs, m.Meets (.stack word) comment ds rs) ↔
      word.operands m.dataStack.toList ≤ m.dataStack.size := by
  rw [← hm.dataStack.length_toList]
  constructor
  · rintro ⟨comment, ds, rs, h⟩
    rw [h.data_eq, h.declares.operands_eq, List.length_append]
    exact Nat.le_add_left _ _
  · intro hle
    obtain ⟨comment, ds, hdeclares, hds, hreturns⟩ := StackWord.exists_declares hle
    refine ⟨comment, ds, m.returnStack.toList, hdeclares, hds, ?_⟩
    rw [hreturns, List.append_nil]

theorem Ordered.exists_meets_returns_iff {word : ReturnWord} :
    (∃ comment ds rs, m.Meets (.returns word) comment ds rs) ↔
      word.operands ≤ (m.stackOf word.source).size := by
  rw [← (hm.stackOf word.source).length_toList]
  constructor
  · rintro ⟨comment, ds, rs, hdeclares, hds, hrs⟩
    cases hdeclares <;> simp [ReturnWord.operands, ReturnWord.source, Machine.stackOf, hds, hrs]
  · intro hle
    obtain ⟨rest, top, hitems, htop⟩ := exists_append_of_le hle
    match word, top, htop with
    | .toReturn, [x], _ => exact ⟨_, rest, _, .toReturn x, hitems, (List.append_nil _).symm⟩
    | .fromReturn, [x], _ => exact ⟨_, _, rest, .fromReturn x, (List.append_nil _).symm, hitems⟩
    | .fetchReturn, [x], _ => exact ⟨_, _, rest, .fetchReturn x, (List.append_nil _).symm, hitems⟩
    | .outerIndex, [x₁, x₂, x₃], _ =>
      exact ⟨_, _, rest, .outerIndex x₁ x₂ x₃, (List.append_nil _).symm, hitems⟩
    | .unloop, [x₁, x₂], _ => exact ⟨_, _, rest, .unloop x₁ x₂, (List.append_nil _).symm, hitems⟩

end Machine

theorem Vocabulary.action_of_mem_stackWords {word : Builtin} (h : word ∈ stackWords) :
    (∃ w, word.action = .stack w) ∨ ∃ w, word.action = .returns w := by
  revert word
  simp [stackWords]

theorem Action.exists_meets_iff (hm : m.Ordered) {word : Builtin}
    (hword : word ∈ Vocabulary.stackWords) :
    (∃ comment ds rs, m.Meets word.action comment ds rs) ↔
      word.action.operands m.dataStack.toList ≤ (m.stackOf word.action.source).size := by
  obtain ⟨w, haction⟩ | ⟨w, haction⟩ := Vocabulary.action_of_mem_stackWords hword
  · rw [haction]
    exact hm.exists_meets_stack_iff
  · rw [haction]
    exact hm.exists_meets_returns_iff

theorem Exec.act_of_mem_stackWords {word : Builtin} (hword : word ∈ Vocabulary.stackWords) :
    Exec.act word.action m = (word.action.step >>= fun _ => pure Continuation.done) m := by
  refine Exec.act_of_step ?_ ?_ <;>
  · intro heq
    obtain ⟨w, haction⟩ | ⟨w, haction⟩ := Vocabulary.action_of_mem_stackWords hword <;>
    · rw [haction] at heq
      cases heq

/-- **A word on the stacks does what its comment says.** Its operands lie on the stacks exactly if
the stack that they are taken from holds as many items as the word has operands. If they do, the
word succeeds exactly if both stacks have room for the results; then it puts them in the place of
the operands, and all that lies below stays. Without that room it is refused, with an overflow of
the stack where there is none, and without its operands it is refused with an underflow of the stack
that they are missing from. A word that is refused leaves the machine as it was. -/
theorem Builtin.stack_comment_exact {word : Builtin} (hword : word ∈ Vocabulary.stackWords)
    (hm : m.Ordered) :
    ((∃ comment ds rs, m.Meets word.action comment ds rs) ↔
      word.action.operands m.dataStack.toList ≤ (m.stackOf word.action.source).size) ∧
    (∀ comment ds rs, m.Meets word.action comment ds rs →
      ((∃ m', Exec.act word.action m = .ok .done m') ↔
        (ds ++ comment.after).length ≤ m.dataStack.capacity ∧
          (rs ++ comment.returnsAfter).length ≤ m.returnStack.capacity) ∧
      (∀ m', Exec.act word.action m = .ok .done m' →
        m'.dataStack.toList = ds ++ comment.after ∧
          m'.returnStack.toList = rs ++ comment.returnsAfter) ∧
      (m.dataStack.capacity < (ds ++ comment.after).length →
        Exec.act word.action m = .error .stackOverflow m) ∧
      (m.returnStack.capacity < (rs ++ comment.returnsAfter).length →
        Exec.act word.action m = .error .returnStackOverflow m)) ∧
    ((m.stackOf word.action.source).size < word.action.operands m.dataStack.toList →
      Exec.act word.action m = .error word.action.source.underflow m) := by
  have hact := Exec.act_of_mem_stackWords (m := m) hword
  have hrefused {e : Fault} (h : word.action.step m = .error e m) :
      Exec.act word.action m = .error e m := by
    rw [hact, bind_of_error h]
  have hdone {m' : Machine} :
      Exec.act word.action m = .ok .done m' ↔ word.action.step m = .ok () m' := by
    rw [hact]
    cases hstep : word.action.step m with
    | error e m₁ => simp [bind_of_error hstep]
    | ok a m₁ => simp [bind_of_ok hstep, pure, EStateM.pure]
  refine ⟨Action.exists_meets_iff hm hword, fun comment ds rs h => ?_,
    fun hlt => hrefused (hm.underflows hlt)⟩
  have hobeys := h.obeys hm
  refine ⟨⟨?_, ?_⟩, ?_, fun hfull => hrefused (hobeys.overflow hfull),
    fun hfull => hrefused (hobeys.returnOverflow hfull)⟩
  · rintro ⟨m', hok⟩
    exact (hobeys.of_ok (hdone.mp hok)).1
  · rintro ⟨hdata, hreturns⟩
    obtain ⟨m', hok, -⟩ := hobeys.success hdata hreturns
    exact ⟨m', hdone.mpr hok⟩
  · intro m' hok
    exact (hobeys.of_ok (hdone.mp hok)).2

/-- A machine with a full data stack. The word `rot` needs no room and succeeds, `j` has its
operands and no room for its result, and `2swap` has too few operands. -/
theorem Builtin.stack_comment_on_full_stack :
    ∃ m : Machine, m.Ordered ∧ m.dataStack.toList = [1, 2, 3] ∧ m.returnStack.toList = [7, 8, 9] ∧
      m.dataStack.capacity = 3 ∧
      (∃ m', Exec.act (.stack .rot) m = .ok .done m' ∧ m'.dataStack.toList = [2, 3, 1] ∧
        m'.returnStack.toList = [7, 8, 9]) ∧
      Exec.act (.returns .outerIndex) m = .error .stackOverflow m ∧
      Exec.act (.stack .twoSwap) m = .error .stackUnderflow m := by
  let m₀ := Machine.bare 400 ⟨320, 323, 400⟩ Source.empty {} .off
  obtain ⟨m, hm, hds, hrs, hcapacity⟩ : ∃ m : Machine, m.Ordered ∧ m.dataStack.toList = [1, 2, 3] ∧
      m.returnStack.toList = [7, 8, 9] ∧ m.dataStack.capacity = 3 :=
    ⟨{ m₀ with
        memory := m₀.memory.overlay 320 [1, 2, 3, 7, 8, 9]
        regs := { m₀.regs with here := 310, sp := 323, rp := 326 } },
      by constructor <;> decide +kernel, by decide +kernel, by decide +kernel, by decide +kernel⟩
  have hsize : m.dataStack.size = 3 := by
    rw [← hm.dataStack.length_toList, hds]
    rfl
  have hlength : m.returnStack.toList.length ≤ m.returnStack.capacity :=
    hm.length_toList_le .returns
  have hmem : ⟨"rot", .stack .rot, false⟩ ∈ Vocabulary.stackWords ∧
      ⟨"j", .returns .outerIndex, false⟩ ∈ Vocabulary.stackWords ∧
      ⟨"2swap", .stack .twoSwap, false⟩ ∈ Vocabulary.stackWords := by
    simp [Vocabulary.stackWords]
  obtain ⟨-, hrot, -⟩ := Builtin.stack_comment_exact hmem.1 hm
  obtain ⟨-, houter, -⟩ := Builtin.stack_comment_exact hmem.2.1 hm
  obtain ⟨-, -, htwoSwap⟩ := Builtin.stack_comment_exact hmem.2.2 hm
  refine ⟨m, hm, hds, hrs, hcapacity, ?_, ?_, ?_⟩
  · obtain ⟨hroom, hitems, -⟩ := hrot _ [] [7, 8, 9] ⟨.rot 1 2 3, hds, hrs⟩
    rw [hrs] at hlength
    obtain ⟨m', hok⟩ := hroom.mpr ⟨Nat.le_of_eq hcapacity.symm, hlength⟩
    exact ⟨m', hok, hitems m' hok⟩
  · exact (houter _ [1, 2, 3] [] ⟨.outerIndex 7 8 9, hds, hrs⟩).2.2.1 (by rw [hcapacity]; decide)
  · exact htwoSwap (by rw [hds]; exact hsize ▸ (by decide))

end CellForth
