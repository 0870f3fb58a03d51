import CellForth.Proofs.Body

/-!
# What structured bodies mean

`Body.eval` says what a body does to a store, without code, jumps or a return stack. A conditional
takes a flag and runs one of its arms. A loop runs its body again and again, and a flag from the
stack, or the index, decides when it is left. The body of a counted loop is run with an index of its
own, which `i` puts on the stack.

Loops need not end. The evaluator has a number of rounds that each loop may make, and answers `none`
when a loop would make more; an answer that is there is the outcome of the body, be it a store or a
fault with the store in which it was met.

A counted loop is left when a step takes the index over the boundary between `limit - 1` and
`limit`, in either direction. `passesLimit` says this in whole numbers: how far the index is above
the limit changes its sign. That the sign bits tell the same is `crossesLimit_eq`.
-/

namespace CellForth

variable {α β : Type}

/-! ### Evaluations -/

/-- An evaluation: how it ends from a given store, or nothing if it would take too many rounds. -/
def Eval (α : Type) := Store → Option (EStateM.Result Fault Store α)

namespace Eval

/-- The second evaluation goes on where the first has ended, unless that was with a fault. -/
protected def bind (x : Eval α) (f : α → Eval β) : Eval β := fun s =>
  match x s with
  | none => none
  | some (.ok a s) => f a s
  | some (.error e s) => some (.error e s)

instance : Monad Eval where
  pure a s := some (.ok a s)
  bind := Eval.bind

/-- An operation that always ends. -/
def of (op : StoreM α) : Eval α := fun s => some (op s)

theorem of_bind (x : StoreM α) (f : α → StoreM β) : of (x >>= f) = of x >>= fun a => of (f a) := by
  funext s
  simp only [of, Bind.bind, Eval.bind, EStateM.bind]
  cases x s <;> rfl

/-- Runs `step` round by round, each time on what it returned before, until it returns nothing to go
on with, and at most as many times as given. -/
def loop : (rounds : Nat) → α → (step : α → Eval (Option α)) → Eval Unit
  | 0, _, _ => fun _ => none
  | rounds + 1, a, step => do
    match ← step a with
    | none => pure ()
    | some a => loop rounds a step

end Eval

/-! ### Counted loops -/

/-- Does a step by `n` take the index over the boundary between `limit - 1` and `limit`? -/
def passesLimit (limit index n : Cell) : Bool :=
  decide (Cell.signed (index - limit) < 0) !=
    decide (Cell.signed (index - limit) + Cell.signed n < 0)

theorem Cell.isNegative_eq (c : Cell) : Cell.isNegative c = decide (Cell.signed c < 0) := by
  rw [Bool.eq_iff_iff, Cell.isNegative_iff, decide_eq_true_iff]

theorem Cell.isNegative_xor (a b : Cell) :
    Cell.isNegative (a ^^^ b) = (Cell.isNegative a != Cell.isNegative b) := by
  have hmsb : ∀ c : Cell, Cell.isNegative c = c.toBitVec.msb := fun c => by
    rw [BitVec.msb_eq_decide]
    rfl
  rw [hmsb, hmsb, hmsb, UInt16.toBitVec_xor, BitVec.msb_xor]

/-- A sum that is a signed number of sixteen bits does not wrap around. -/
theorem Cell.signed_add {a b : Cell} (hlow : -32768 ≤ Cell.signed a + Cell.signed b)
    (hhigh : Cell.signed a + Cell.signed b ≤ 32767) :
    Cell.signed (a + b) = Cell.signed a + Cell.signed b := by
  have ha := a.toNat_lt
  have hb := b.toNat_lt
  have hsum : (a + b).toNat = (a.toNat + b.toNat) % 65536 := UInt16.toNat_add a b
  unfold Cell.signed at hlow hhigh ⊢
  split at hlow <;> split at hlow <;> split <;> omega

/-- The sign bits tell whether the boundary is crossed: if distance and step differ in sign, their
sum does not wrap around, and if they do not, there is nothing to cross. -/
theorem crossesLimit_eq (limit index n : Cell) :
    crossesLimit (index - limit) n = passesLimit limit index n := by
  unfold crossesLimit passesLimit
  generalize index - limit = d
  have hd := Cell.signed_bounds d
  have hn := Cell.signed_bounds n
  rw [Cell.isNegative_xor, Cell.isNegative_xor, Cell.isNegative_eq, Cell.isNegative_eq,
    Cell.isNegative_eq]
  by_cases hsign : decide (Cell.signed d < 0) = decide (Cell.signed n < 0)
  · have hsame : decide (Cell.signed d < 0) = decide (Cell.signed d + Cell.signed n < 0) := by
      rw [decide_eq_decide] at hsign ⊢
      omega
    rw [← hsign, ← hsame]
    simp
  · have hsum : Cell.signed (d + n) = Cell.signed d + Cell.signed n := by
      rw [decide_eq_decide] at hsign
      exact Cell.signed_add (by omega) (by omega)
    rw [hsum, bne_iff_ne.mpr hsign, Bool.and_true]

/-! ### Bodies -/

/-- What a body finds around it: in a counted loop, the limit and the index. -/
inductive Frame : Scope → Type where
  /-- Outside of counted loops there is nothing. -/
  | definition : Frame .definition
  /-- The counters of the loop around. -/
  | countedLoop (limit index : Cell) : Frame .countedLoop

namespace Frame

/-- The index of the loop around. -/
def index : Frame .countedLoop → Cell
  | countedLoop _ index => index

/-- The items on the return stack that belong to the body's surroundings, top first. -/
def items : {scope : Scope} → Frame scope → List Cell
  | _, definition => []
  | _, countedLoop limit index => [index, limit]

end Frame

/-- Takes limit and index off, of which the index is on top. -/
def Store.popCounters : StoreM (Cell × Cell) := fun s =>
  match s.data with
  | index :: limit :: data => .ok (limit, index) { s with data := data }
  | _ => .error .stackUnderflow s

/-- The number by which a loop steps its index. -/
def Stride.amount : Stride → StoreM Cell
  | one => pure 1
  | popped => Store.pop

/-- What a body does to a store, if none of its loops makes more rounds than given. -/
def Body.eval (rounds : Nat) : {scope : Scope} → Body scope → Frame scope → Eval Unit
  | _, empty, _ => pure ()
  | _, number c, _ => .of (Store.push c)
  | _, word _ p, _ => .of p.effect
  | _, call _ body, _ => body.eval rounds .definition
  | _, index _, frame => .of (Store.push frame.index)
  | _, seq first second, frame => do
    first.eval rounds frame
    second.eval rounds frame
  | _, ifThen body, frame => do
    let flag ← .of Store.pop
    if flag = 0 then pure () else body.eval rounds frame
  | _, ifElse yes no, frame => do
    let flag ← .of Store.pop
    if flag = 0 then no.eval rounds frame else yes.eval rounds frame
  | _, beginUntil body, frame =>
    .loop rounds () fun _ => do
      body.eval rounds frame
      let flag ← .of Store.pop
      return if flag = 0 then some () else none
  | _, beginAgain body, frame =>
    .loop rounds () fun _ => do
      body.eval rounds frame
      return some ()
  | _, beginWhile test body, frame =>
    .loop rounds () fun _ => do
      test.eval rounds frame
      let flag ← .of Store.pop
      if flag = 0 then return none
      else
        body.eval rounds frame
        return some ()
  | _, counted stride body, _ => do
    let (limit, start) ← .of Store.popCounters
    .loop rounds start fun i => do
      body.eval rounds (.countedLoop limit i)
      let n ← .of stride.amount
      return if passesLimit limit i n then none else some (i + n)

end CellForth
