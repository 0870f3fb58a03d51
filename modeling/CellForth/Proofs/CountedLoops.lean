import Mathlib.Algebra.Order.Floor.Div
import CellForth.Proofs.Instructions

/-!
# How often a counted loop is gone through

The index of a counted loop and the number it is stepped by are cells, and the loop is left when a
step takes the index over the boundary below the limit. In whole numbers this is simple:
`loopDistance` is how far the index is above the limit, it changes by the same signed number with
each step, and the loop is left when it is not the number of a cell any more, at either end
(`passesLimit_eq_false_iff`). So the number of rounds is a quotient, rounded up on the way up and
rounded down on the way down, and a loop by steps of zero is never left (`loopCount?`).

The body of the loop is arbitrary here: it may do whatever it likes, as long as it comes back to the
word that closes the loop with the return stack as it was (`LoopEnd.Reached`). `LoopEnd.Rounds` puts
such rounds together. The invariant `LoopEnd.Counting` is that the distance has not wrapped around
so far; one execution of the closing word keeps it or leaves the loop (`LoopEnd.Counting.perform`).
That the rounds are as many as the count says, not one less and not one more, is
`LoopEnd.rounds_count`.
-/

namespace CellForth

/-! ### The distance from the limit -/

/-- How often a loop from `start` to `limit` by steps of `n` is gone through; nothing if it is never
left. -/
def loopCount? (limit start n : Cell) : Option Nat :=
  let above := (start - limit).toNat
  let step := Cell.signed n
  if 0 < step then some ((65536 - above) ⌈/⌉ step.toNat)
  else if step < 0 then some (above / (-step).toNat + 1)
  else none

/-- How far the index is above the limit after `k` steps, in whole numbers. -/
def loopDistance (limit start n : Cell) (k : Nat) : Int :=
  (start - limit).toNat + k * Cell.signed n

/-- The whole numbers that are cells. -/
def IsCell (i : Int) : Prop :=
  0 ≤ i ∧ i < 65536

instance (i : Int) : Decidable (IsCell i) :=
  inferInstanceAs (Decidable (_ ∧ _))

theorem loopDistance_succ (limit start n : Cell) (k : Nat) :
    loopDistance limit start n (k + 1) = loopDistance limit start n k + Cell.signed n := by
  unfold loopDistance
  rw [Int.natCast_succ, Int.add_mul, Int.one_mul, Int.add_assoc]

/-- The count tells how long the distance is that of cells. -/
theorem lt_loopCount_iff {limit start n : Cell} {k : Nat} :
    (∀ count, loopCount? limit start n = some count → k < count) ↔
      IsCell (loopDistance limit start n k) := by
  have hlt : (start - limit).toNat < 65536 := UInt16.toNat_lt _
  unfold loopCount? loopDistance IsCell
  generalize (start - limit).toNat = above at hlt
  generalize Cell.signed n = step
  rcases Int.lt_trichotomy step 0 with hneg | rfl | hpos
  · -- Downwards, the distance runs out below zero.
    obtain ⟨size, rfl⟩ : ∃ size : Nat, step = -size := ⟨(-step).toNat, by omega⟩
    have hsize : 0 < size := by omega
    have hcount : k < above / size + 1 ↔ k * size ≤ above := by
      rw [Nat.lt_succ_iff, Nat.le_div_iff_mul_le hsize]
    simp only [if_neg (show ¬ (0 : Int) < -size by omega), if_pos hneg, Option.some.injEq,
      forall_eq', Int.neg_neg, Int.toNat_natCast, hcount]
    rw [Int.mul_neg, ← Int.natCast_mul]
    omega
  · simp
    omega
  · -- Upwards, it runs out at 65536, be it met or stepped over: hence the ceiling.
    obtain ⟨size, rfl⟩ : ∃ size : Nat, step = size := ⟨step.toNat, by omega⟩
    have hsize : 0 < size := by omega
    have hcount : k < (65536 - above) ⌈/⌉ size ↔ size * k < 65536 - above := by
      rw [← Nat.not_le, ← Nat.not_le, ceilDiv_le_iff_le_mul hsize]
    simp only [if_pos hpos, Option.some.injEq, forall_eq', Int.toNat_natCast, hcount]
    rw [Int.mul_comm, ← Int.natCast_mul]
    omega

/-- The last round is the one in which the distance leaves the cells. -/
theorem loopCount_eq_succ_iff {limit start n : Cell} {k : Nat}
    (hk : IsCell (loopDistance limit start n k)) :
    loopCount? limit start n = some (k + 1) ↔ ¬ IsCell (loopDistance limit start n (k + 1)) := by
  rw [← lt_loopCount_iff] at hk ⊢
  constructor
  · intro hcount hlt
    exact Nat.lt_irrefl _ (hlt _ hcount)
  · intro hnot
    obtain ⟨count, hcount⟩ := not_forall.mp hnot
    obtain ⟨hcount, hle⟩ := Classical.not_imp.mp hcount
    have hlt := hk count hcount
    rw [hcount, show count = k + 1 by omega]

/-- With its limit as the start, a loop by one goes through all cells. -/
theorem loopCount_self (c : Cell) : loopCount? c c 1 = some 65536 := by
  have hstep : Cell.signed 1 = 1 := by decide
  unfold loopCount?
  rw [UInt16.sub_self, hstep]
  rfl

/-- The signed reading is that of a cell, or one turn below it. -/
theorem Cell.signed_cases (c : Cell) :
    c.toNat < 32768 ∧ Cell.signed c = c.toNat ∨
      32768 ≤ c.toNat ∧ Cell.signed c = (c.toNat : Int) - 65536 := by
  unfold Cell.signed
  split <;> omega

/-- A step passes the limit if the distance is not that of cells any more. -/
theorem passesLimit_eq_false_iff (limit index n : Cell) :
    passesLimit limit index n = false ↔ IsCell ((index - limit).toNat + Cell.signed n) := by
  have hlt : (index - limit).toNat < 65536 := UInt16.toNat_lt _
  have hdistance := Cell.signed_cases (index - limit)
  have hn := Cell.signed_bounds n
  unfold passesLimit IsCell
  rw [bne_eq_false_iff_eq, decide_eq_decide]
  omega

/-- The distance of the next index, where the limit is not passed. -/
theorem toNat_step_sub {limit index n : Cell}
    (h : IsCell ((index - limit).toNat + Cell.signed n)) :
    ((index + n - limit).toNat : Int) = (index - limit).toNat + Cell.signed n := by
  have hassoc : index + n - limit = index - limit + n := by grind
  have hsum : (index - limit + n).toNat = ((index - limit).toNat + n.toNat) % 65536 :=
    UInt16.toNat_add _ _
  have hn := Cell.signed_cases n
  have hlt := n.toNat_lt
  obtain ⟨hlow, hhigh⟩ := h
  rw [hassoc, hsum]
  omega

/-! ### One execution of the word that closes a loop -/

/-- The regions and the items of the return stack are these. -/
structure Machine.Returns (m : Machine) (regions : Regions) (items : List Cell) : Prop where
  /-- The region bounds hold. -/
  ordered : m.Ordered
  /-- The regions are where they should be. -/
  regions_eq : m.regions = regions
  /-- The items are what they should be. -/
  items_eq : m.returnStack.items = items

namespace Machine.Returns

variable {m : Machine} {regions : Regions} {items rest : List Cell} {limit index offset n : Cell}

/-- So the pointer is known too. -/
theorem rp_eq (h : m.Returns regions items) :
    regions.returnBase.toNat + items.length = m.regs.rp.toNat := by
  rw [← h.regions_eq, ← h.items_eq, h.ordered.returnStack.length_items]
  exact h.ordered.returnStack.size_eq

theorem refl (hm : m.Ordered) : m.Returns m.regions m.returnStack.items :=
  ⟨hm, rfl, rfl⟩

/-- The data stack is below the return stack. -/
theorem dataBase_le_returnBase (h : m.Returns regions items) :
    regions.dataBase.toNat ≤ regions.returnBase.toNat := by
  have hlimit : m.regions.dataLimit = m.regions.returnBase := h.ordered.dataLimit_eq
  have hle : m.regions.dataBase.toNat ≤ m.regions.dataLimit.toNat :=
    Nat.le_trans h.ordered.dataBase_le_sp h.ordered.sp_le_dataLimit
  rwa [hlimit, h.regions_eq] at hle

/-- Replacing items at the top. -/
theorem replaceReturn (h : m.Returns regions items) {vs : List Cell} {r : Nat}
    (hfits : m.returnStack.Fits r vs) :
    (m.replaceReturn r vs).Returns regions (vs.reverse ++ items.drop r) := by
  refine ⟨h.ordered.replaceReturn hfits, (regions_replaceReturn r vs m).trans h.regions_eq, ?_⟩
  rw [returnStack_replaceReturn, h.ordered.returnStack.items_replaced hfits, h.items_eq]

theorem withIp (h : m.Returns regions items) (ip : Cell) :
    { m with regs := { m.regs with ip := ip } }.Returns regions items :=
  ⟨{ h.ordered with }, h.regions_eq, h.items_eq⟩

/-- The word that reads the index copies the top to the data stack. -/
theorem fetchReturn (h : m.Returns regions (index :: rest)) (hroom : 0 < m.dataStack.room) :
    ∃ m', ReturnWord.fetchReturn.perform m = .ok () m' ∧
      m'.dataStack.items = index :: m.dataStack.items := by
  have hindex : Exec.onReturn (Stack.pick 0) m = .ok index m :=
    Exec.onReturn_of_ok (h.ordered.returnStack.pick_of_some (by rw [h.items_eq]; rfl))
  have hfits : m.dataStack.Fits 0 [index] := ⟨Nat.zero_le _, by rw [List.length_singleton]; omega⟩
  have hpush := h.ordered.dataStack.push_eq index
  rw [if_pos hroom] at hpush
  exact ⟨m.replaceData 0 [index], (bind_of_ok hindex).trans (Exec.onData_of_ok hpush),
    h.ordered.dataStack.items_replaced hfits⟩

section Step

variable (h : m.Returns regions (index :: limit :: rest)) (hip : m.regs.ip ≠ 0)
include h hip

/-- A step over the limit takes the counters off and passes over the offset. -/
theorem stepLoop_of_passes (hpasses : passesLimit limit index n = true) :
    ∃ m', Exec.stepLoop n m = .ok () m' ∧ m'.regs.ip = m.regs.ip + 1 ∧ m'.Returns regions rest := by
  have hfits : m.returnStack.Fits 2 [] :=
    ⟨by rw [← h.ordered.returnStack.length_items, h.items_eq]; simp, Nat.zero_le _⟩
  rw [Exec.stepLoop_eq h.ordered hip h.items_eq, if_pos hpasses]
  exact ⟨_, rfl, rfl, (h.replaceReturn hfits).withIp _⟩

/-- Any other step changes the index and jumps by the offset, unless this is where the index is. -/
theorem stepLoop_of_not_passes (hpasses : passesLimit limit index n = false)
    (hoffset : m.memory.cells[m.regs.ip.toNat]? = some offset)
    (hne : m.regs.ip.toNat + 1 ≠ m.regs.rp.toNat) :
    ∃ m', Exec.stepLoop n m = .ok () m' ∧ m'.regs.ip = m.regs.ip + offset ∧
      m'.Returns regions ((index + n) :: limit :: rest) ∧
      ∀ i : Nat, i < regions.returnBase.toNat → m'.memory.cells[i]? = m.memory.cells[i]? := by
  have hrp := h.rp_eq
  rw [List.length_cons] at hrp
  have hfits : m.returnStack.Fits 1 [index + n] :=
    ⟨by rw [← h.ordered.returnStack.length_items, h.items_eq]; simp, Nat.le_add_right _ _⟩
  have hcells {i : Nat} (hi : i + 1 ≠ m.regs.rp.toNat) :
      (m.replaceReturn 1 [index + n]).memory.cells[i]? = m.memory.cells[i]? := by
    refine Stack.cells_replaced ?_
    show i < m.regs.rp.toNat - 1 ∨ m.regs.rp.toNat - 1 + 1 ≤ i
    omega
  have hthread : Exec.requireThread (m.replaceReturn 1 [index + n]) = .ok () _ :=
    observe_of_ok (demand_of_pos hip)
  have hfetch : Exec.fetch m.regs.ip.toNat (m.replaceReturn 1 [index + n]) = .ok offset _ :=
    Exec.fetch_of_some ((hcells hne).trans hoffset)
  refine ⟨_, ?_, ?_, (h.replaceReturn hfits).withIp (m.regs.ip + offset), fun i hi =>
    hcells (by omega)⟩
  · rw [Exec.stepLoop_eq h.ordered hip h.items_eq, if_neg (by rw [hpasses]; exact Bool.noConfusion)]
    exact (bind_of_ok hthread).trans ((Exec.bind_reg _ _).trans (bind_of_ok hfetch))
  · rfl

end Step

end Machine.Returns

/-! ### Entering a loop -/

/-- A push of two items to the return stack that is not refused. -/
theorem Machine.Ordered.pushTwo_inv {m m' : Machine} (hm : m.Ordered) {x y : Cell}
    (h : Exec.onReturn (Stack.pushTwo x y) m = .ok () m') :
    m.returnStack.Fits 0 [x, y] ∧ m' = m.replaceReturn 0 [x, y] := by
  by_cases hfits : m.returnStack.Fits 0 [x, y]
  · cases (Exec.onReturn_of_ok (hm.returnStack.pushTwo_of_fits hfits)).symm.trans h
    exact ⟨hfits, rfl⟩
  · cases (Exec.onReturn_of_error (hm.returnStack.pushTwo_of_not_fits hfits)).symm.trans h

/-- The counters are taken off the data stack, one after the other, and then put on the return
stack. -/
theorem Exec.exists_of_enterLoop {m m' : Machine} (hm : m.Ordered) {limit start : Cell}
    {data : List Cell} (hdata : m.dataStack.items = start :: limit :: data)
    (henter : Runtime.enterLoop.perform m = .ok () m') :
    ∃ t, t.memory = m.memory ∧ t.Returns m.regions m.returnStack.items ∧
      Exec.onReturn (Stack.pushTwo limit start) t = .ok () m' := by
  have hthread : Exec.requireThread m = .ok () m := by
    refine observe_of_ok (demand_of_pos fun hip => ?_)
    have hrefused : Runtime.enterLoop.perform m = .error .compileOnly m :=
      bind_of_error (observe_of_error (demand_of_neg (not_not.mpr hip)))
    cases hrefused.symm.trans henter
  have hrequire : Exec.onData (Stack.require 2) m = .ok () m :=
    Exec.onData_of_ok (hm.dataStack.require_of_le (by rw [hdata]; simp))
  -- Each of the two pops is a replacement of its own, the second on the machine that the first
  -- leaves.
  have hfits : m.dataStack.Fits 1 [] :=
    ⟨by rw [← hm.dataStack.length_items, hdata]; simp, Nat.zero_le _⟩
  have hm₁ := hm.replaceData hfits
  have hdata₁ : (m.replaceData 1 []).dataStack.items = limit :: data := by
    rw [Machine.dataStack_replaceData, hm.dataStack.items_replaced hfits, hdata]
    rfl
  have hfits₁ : (m.replaceData 1 []).dataStack.Fits 1 [] :=
    ⟨by rw [← hm₁.dataStack.length_items, hdata₁]; simp, Nat.zero_le _⟩
  have hstart : Exec.pop m = .ok start (m.replaceData 1 []) :=
    Exec.onData_of_ok (hm.dataStack.pop_of_cons hdata)
  have hlimit : Exec.pop (m.replaceData 1 []) = .ok limit ((m.replaceData 1 []).replaceData 1 []) :=
    Exec.onData_of_ok (hm₁.dataStack.pop_of_cons hdata₁)
  refine ⟨(m.replaceData 1 []).replaceData 1 [], rfl, ⟨hm₁.replaceData hfits₁, rfl, rfl⟩, ?_⟩
  rw [← henter]
  exact ((bind_of_ok hthread).trans ((bind_of_ok hrequire).trans
    ((bind_of_ok hstart).trans (bind_of_ok hlimit)))).symm

/-! ### Going through a loop -/

/-- The end of a counted loop in threaded code. -/
structure LoopEnd where
  /-- Where the number comes from that the index is stepped by. -/
  stride : Stride
  /-- That number. -/
  step : Cell
  /-- The place behind the word that closes the loop. -/
  pos : Cell
  /-- The offset that is there, from there to the start of the loop. -/
  offset : Cell
  /-- Without a number, the index is stepped by one. -/
  step_eq : stride = .one → step = 1
  /-- The place is one of threaded code. -/
  pos_ne : pos ≠ 0

namespace LoopEnd

variable {e : LoopEnd} {m₀ m₁ m m' : Machine} {limit start : Cell} {rest : List Cell} {k : Nat}
  {regions : Regions}

/-- The body of the loop has led from `m` to `m'`, where the word that closes the loop is about to
run: the return stack is as at the start of the round, and the number to step by is on the data
stack. -/
structure Reached (e : LoopEnd) (m m' : Machine) : Prop
    extends m'.Returns m.regions m.returnStack.items where
  /-- The word has been fetched. -/
  ip_eq : m'.regs.ip = e.pos
  /-- The offset is behind it. -/
  offset_eq : m'.memory.cells[e.pos.toNat]? = some e.offset
  /-- The cell of the offset is not that of the index. -/
  pos_ne_index : e.pos.toNat + 1 ≠ m'.regs.rp.toNat
  /-- The number is on top. -/
  step_eq : e.stride = .popped → m'.dataStack.items.head? = some e.step

/-- The loop that was entered with `m₁` has been gone through `k` times and not been left: each
time, the word that closes it has run, and the counters have stayed on the return stack. -/
inductive Rounds (e : LoopEnd) (m₁ : Machine) : Nat → Machine → Prop
  /-- The loop has been entered. -/
  | enter : e.Rounds m₁ 0 m₁
  /-- The loop has been gone through once more. -/
  | again {k : Nat} {m m' m'' : Machine} (hrounds : e.Rounds m₁ k m) (hreached : e.Reached m m')
      (hperform : e.stride.runtime.perform m' = .ok () m'') (hrp : m''.regs.rp = m'.regs.rp) :
      e.Rounds m₁ (k + 1) m''

/-- Only the number to step by is taken off before the step. -/
theorem Reached.perform_eq (h : e.Reached m m') :
    ∃ t, e.stride.runtime.perform m' = Exec.stepLoop e.step t ∧
      t.Returns m.regions m.returnStack.items ∧ t.regs.ip = e.pos ∧ t.memory = m'.memory := by
  cases hstride : e.stride with
  | one =>
    refine ⟨m', ?_, h.toReturns, h.ip_eq, rfl⟩
    rw [e.step_eq hstride]
    rfl
  | popped =>
    obtain ⟨rest, hitems⟩ : ∃ rest, m'.dataStack.items = e.step :: rest :=
      List.head?_eq_some_iff.mp (h.step_eq hstride)
    have hlen := h.ordered.dataStack.length_items
    rw [hitems, List.length_cons] at hlen
    have hfits : m'.dataStack.Fits 1 [] := ⟨by omega, Nat.zero_le _⟩
    have hthread : Exec.requireThread m' = .ok () m' :=
      observe_of_ok (demand_of_pos (h.ip_eq ▸ e.pos_ne))
    have hpop : Exec.pop m' = .ok e.step (m'.replaceData 1 []) :=
      Exec.onData_of_ok (h.ordered.dataStack.pop_of_cons hitems)
    refine ⟨m'.replaceData 1 [], (bind_of_ok hthread).trans (bind_of_ok hpop), ?_, h.ip_eq, rfl⟩
    exact ⟨h.ordered.replaceData hfits, h.regions_eq, h.items_eq⟩

/-- The machine after `k` rounds: the index has been stepped so often, and its distance from the
limit has never wrapped around. -/
structure Counting (limit start n : Cell) (rest : List Cell) (regions : Regions) (k : Nat)
    (m : Machine) : Prop
    extends m.Returns regions ((start + UInt16.ofNat k * n) :: limit :: rest) where
  /-- The distance from the limit is as in whole numbers. -/
  distance_eq : ((start + UInt16.ofNat k * n - limit).toNat : Int) = loopDistance limit start n k

theorem Counting.isCell {n : Cell} (h : Counting limit start n rest regions k m) :
    IsCell (loopDistance limit start n k) := by
  have hlt : (start + UInt16.ofNat k * n - limit).toNat < 65536 := UInt16.toNat_lt _
  rw [← h.distance_eq]
  exact ⟨by omega, by omega⟩

/-- The index after one step more. -/
theorem index_succ (start n : Cell) (k : Nat) :
    start + UInt16.ofNat (k + 1) * n = start + UInt16.ofNat k * n + n := by
  rw [UInt16.ofNat_add]
  grind

/-- One execution of the word that closes the loop: in whole numbers, the next distance decides. -/
theorem Counting.perform (h : Counting limit start e.step rest regions k m)
    (hreached : e.Reached m m') :
    ∃ m'', e.stride.runtime.perform m' = .ok () m'' ∧
      if IsCell (loopDistance limit start e.step (k + 1)) then
        m''.regs.ip = e.pos + e.offset ∧ m''.regs.rp = m'.regs.rp ∧
          Counting limit start e.step rest regions (k + 1) m'' ∧
          ∀ i : Nat, i < regions.returnBase.toNat → m''.memory.cells[i]? = m'.memory.cells[i]?
      else m''.regs.ip = e.pos + 1 ∧ m''.regs.rp ≠ m'.regs.rp ∧ m''.Returns regions rest := by
  obtain ⟨t, hperform, ht, hip, hmemory⟩ := hreached.perform_eq
  have hrp' := hreached.rp_eq
  have hrp := ht.rp_eq
  rw [h.regions_eq, h.items_eq] at ht hrp hrp'
  have hrps : t.regs.rp = m'.regs.rp := Cell.eq_of_toNat_eq (hrp.symm.trans hrp')
  have hpasses := passesLimit_eq_false_iff limit (start + UInt16.ofNat k * e.step) e.step
  rw [h.distance_eq, ← loopDistance_succ] at hpasses
  -- The sign bits decide, and by `hpasses` they decide as the whole numbers do.
  rw [hperform]
  split
  · rename_i hcell
    obtain ⟨m'', hstep, hip', hreturns, hcells⟩ := ht.stepLoop_of_not_passes (hip ▸ e.pos_ne)
      (hpasses.mpr hcell) (by rw [hip, hmemory]; exact hreached.offset_eq)
      (by rw [hip, hrps]; exact hreached.pos_ne_index)
    rw [hmemory] at hcells
    rw [← index_succ] at hreturns
    refine ⟨m'', hstep, hip ▸ hip', Cell.eq_of_toNat_eq (hreturns.rp_eq.symm.trans hrp'),
      ⟨hreturns, ?_⟩, hcells⟩
    rw [index_succ, loopDistance_succ, ← h.distance_eq]
    rw [loopDistance_succ, ← h.distance_eq] at hcell
    exact toNat_step_sub hcell
  · rename_i hcell
    obtain ⟨m'', hstep, hip', hreturns⟩ := ht.stepLoop_of_passes (hip ▸ e.pos_ne)
      (Bool.not_eq_false _ ▸ mt hpasses.mp hcell)
    refine ⟨m'', hstep, hip ▸ hip', fun heq => ?_, hreturns⟩
    -- Two items less cannot leave the pointer where it was.
    have hrest := hreturns.rp_eq
    rw [heq, ← hrp', List.length_cons, List.length_cons] at hrest
    omega

/-- After any number of rounds, the counters are what they should be. -/
theorem Rounds.counting (hstart : Counting limit start e.step rest regions 0 m₁)
    (h : e.Rounds m₁ k m) : Counting limit start e.step rest regions k m := by
  induction h with
  | enter => exact hstart
  | again _ hreached hperform hrp ih =>
    obtain ⟨m'', hperform', hcases⟩ := ih.perform hreached
    obtain ⟨-, rfl⟩ := EStateM.Result.ok.inj (hperform.symm.trans hperform')
    split at hcases
    · exact hcases.2.2.1
    · -- The loop would have been left, with the pointer elsewhere.
      exact absurd hrp hcases.2.1

/-- Entering a loop moves its counters to the return stack, and writes nowhere else. -/
theorem Counting.of_enterLoop (hm : m₀.Ordered) {data : List Cell}
    (hdata : m₀.dataStack.items = start :: limit :: data)
    (henter : Runtime.enterLoop.perform m₀ = .ok () m₁) (n : Cell) :
    Counting limit start n m₀.returnStack.items m₀.regions 0 m₁ ∧
      ∀ i : Nat, i < m₀.regs.returnBase.toNat → m₁.memory.cells[i]? = m₀.memory.cells[i]? := by
  obtain ⟨t, hmemory, ht, hpush⟩ := Exec.exists_of_enterLoop hm hdata henter
  obtain ⟨hfits, rfl⟩ := ht.ordered.pushTwo_inv hpush
  have hreturns := ht.replaceReturn hfits
  have hzero : start + UInt16.ofNat 0 * n = start := by grind
  refine ⟨⟨by rwa [hzero], ?_⟩, fun i hi => ?_⟩
  · rw [hzero]
    unfold loopDistance
    omega
  · have hbase : t.regs.returnBase = m₀.regs.returnBase := congrArg Regions.returnBase ht.regions_eq
    rw [ht.ordered.cells_replaceReturn hfits (by rwa [hbase]), hmemory]

/-- A body that does nothing but leave the number to step by as the only item of the data stack. -/
theorem Counting.exists_reached (h : Counting limit start e.step rest regions k m)
    (hroom : regions.dataBase.toNat < regions.dataLimit.toNat)
    (hpos : e.pos.toNat < regions.dataBase.toNat)
    (hoffset : m.memory.cells[e.pos.toNat]? = some e.offset) :
    ∃ m', e.Reached m m' := by
  have hm := h.ordered
  have hrp := h.rp_eq
  obtain rfl := h.regions_eq
  have hfits : m.dataStack.Fits m.dataStack.size [e.step] := by
    have hsize : m.regions.dataBase.toNat + m.dataStack.size = m.regs.sp.toNat :=
      hm.dataStack.size_eq
    have hspace : m.regs.sp.toNat + m.dataStack.room = m.regions.dataLimit.toNat :=
      hm.dataStack.room_eq
    exact ⟨Nat.le_refl _, by rw [List.length_singleton]; omega⟩
  have hitems : (m.replaceData m.dataStack.size [e.step]).returnStack.items = m.returnStack.items :=
    Stack.items_congr rfl rfl fun i hi _ => hm.cells_replaceData hfits (.inr (by
      rw [hm.dataLimit_eq]
      exact hi))
  have hcell := (hm.cells_replaceData hfits (.inl hpos)).trans hoffset
  have hreturns : (m.replaceData m.dataStack.size [e.step]).Returns m.regions m.returnStack.items :=
    ⟨hm.replaceData hfits, m.regions_replaceData _ _, hitems⟩
  refine ⟨_, hreturns.withIp e.pos, rfl, hcell, ?_, fun _ => ?_⟩
  · have hle := h.dataBase_le_returnBase
    rw [List.length_cons] at hrp
    show e.pos.toNat + 1 ≠ m.regs.rp.toNat
    omega
  · have htop := hm.dataStack.items_replaced hfits
    exact (congrArg List.head? htop).trans rfl

/-- As long as the count allows, there are rounds of a loop whose end is in the dictionary. -/
theorem exists_rounds (hstart : Counting limit start e.step rest regions 0 m₁)
    (hroom : regions.dataBase.toNat < regions.dataLimit.toNat)
    (hpos : e.pos.toNat < regions.dataBase.toNat)
    (hoffset : m₁.memory.cells[e.pos.toNat]? = some e.offset)
    (hk : ∀ count, loopCount? limit start e.step = some count → k < count) :
    ∃ m m', e.Rounds m₁ k m ∧ e.Reached m m' := by
  suffices h : ∃ m, e.Rounds m₁ k m ∧ m.memory.cells[e.pos.toNat]? = some e.offset by
    obtain ⟨m, hrounds, hcell⟩ := h
    obtain ⟨m', hreached⟩ := (hrounds.counting hstart).exists_reached hroom hpos hcell
    exact ⟨m, m', hrounds, hreached⟩
  induction k with
  | zero => exact ⟨m₁, .enter, hoffset⟩
  | succ k ih =>
    obtain ⟨m, hrounds, hcell⟩ := ih fun count hcount => Nat.lt_of_succ_lt (hk count hcount)
    have hcounting := hrounds.counting hstart
    obtain ⟨m', hreached⟩ := hcounting.exists_reached hroom hpos hcell
    obtain ⟨m'', hperform, hcases⟩ := hcounting.perform hreached
    rw [if_pos (lt_loopCount_iff.mp hk)] at hcases
    obtain ⟨-, hrp, -, hcells⟩ := hcases
    have hle := hcounting.dataBase_le_returnBase
    exact ⟨m'', .again hrounds hreached hperform hrp,
      (hcells _ (by omega)).trans hreached.offset_eq⟩

/-- **A counted loop is gone through exactly as often as its count says.** After `k` rounds there is
another one to come; until its end, the word `i` reads the index, which is `k` steps from the start.
The execution of the closing word in that round goes back to the start of the loop, unless it is the
last one by the count: then it goes on behind the offset, and the return stack is as before the loop
was entered. For a closing word in the dictionary, there are rounds up to any number that the count
allows; and a loop from its own limit by one is gone through once for each cell. -/
theorem rounds_count (e : LoopEnd) (hm : m₀.Ordered) {data : List Cell}
    (hdata : m₀.dataStack.items = start :: limit :: data)
    (henter : Runtime.enterLoop.perform m₀ = .ok () m₁) :
    (∀ k m, e.Rounds m₁ k m →
      (∀ count, loopCount? limit start e.step = some count → k < count) ∧
      (∀ t : Machine, t.Returns m.regions m.returnStack.items → 0 < t.dataStack.room →
        ∃ t', ReturnWord.fetchReturn.perform t = .ok () t' ∧
          t'.dataStack.items = (start + UInt16.ofNat k * e.step) :: t.dataStack.items) ∧
      ∀ m', e.Reached m m' → ∃ m'', e.stride.runtime.perform m' = .ok () m'' ∧
        if loopCount? limit start e.step = some (k + 1) then
          m''.regs.ip = e.pos + 1 ∧ m''.regs.rp = m₀.regs.rp ∧
            m''.returnStack.items = m₀.returnStack.items
        else m''.regs.ip = e.pos + e.offset ∧ e.Rounds m₁ (k + 1) m'') ∧
    (e.pos.toNat < m₀.regs.dataBase.toNat → m₀.memory.cells[e.pos.toNat]? = some e.offset →
      ∀ k, (∀ count, loopCount? limit start e.step = some count → k < count) →
        ∃ m m', e.Rounds m₁ k m ∧ e.Reached m m') ∧
    (e.stride = .one → start = limit → loopCount? limit start e.step = some 65536) := by
  obtain ⟨hstart, hcells⟩ := Counting.of_enterLoop hm hdata henter e.step
  refine ⟨fun k m hrounds => ?_, fun hpos hoffset k hk => ?_, ?_⟩
  · have hcounting := hrounds.counting hstart
    have hk := lt_loopCount_iff.mpr hcounting.isCell
    refine ⟨hk, fun t ht hroom => ?_, fun m' hreached => ?_⟩
    · rw [hcounting.items_eq] at ht
      exact ht.fetchReturn hroom
    · obtain ⟨m'', hperform, hcases⟩ := hcounting.perform hreached
      have hlast := loopCount_eq_succ_iff hcounting.isCell
      refine ⟨m'', hperform, ?_⟩
      split at hcases
      · rename_i hcell
        obtain ⟨hip, hrp, -, -⟩ := hcases
        rw [if_neg (by rwa [hlast, not_not])]
        exact ⟨hip, .again hrounds hreached hperform hrp⟩
      · rename_i hcell
        obtain ⟨hip, -, hreturns⟩ := hcases
        rw [if_pos (hlast.mpr hcell)]
        exact ⟨hip, Cell.eq_of_toNat_eq (hreturns.rp_eq.symm.trans (Machine.Returns.refl hm).rp_eq),
          hreturns.items_eq⟩
  · have hle : m₀.regs.dataBase.toNat ≤ m₀.regs.returnBase.toNat := hstart.dataBase_le_returnBase
    refine exists_rounds hstart ?_ hpos ((hcells _ (by omega)).trans hoffset) hk
    -- The counters have been on the data stack, so it has room for a number.
    have hlen := hm.dataStack.length_items
    have hsize : m₀.regs.dataBase.toNat + m₀.dataStack.size = m₀.regs.sp.toNat :=
      hm.dataStack.size_eq
    have hsp := hm.sp_le_dataLimit
    rw [hdata, List.length_cons] at hlen
    show m₀.regs.dataBase.toNat < m₀.regs.dataLimit.toNat
    omega
  · rintro hone rfl
    rw [e.step_eq hone]
    exact loopCount_self start

/-- From `5` down to `0` by steps of two: the third execution of `+loop` leaves the loop, since the
step from `1` to `-1` is over the boundary. -/
theorem rounds_count_down_by_two :
    ∃ (e : LoopEnd) (m₀ m₁ m m' m'' : Machine), m₀.dataStack.items = [5, 0] ∧
      Runtime.enterLoop.perform m₀ = .ok () m₁ ∧ e.Rounds m₁ 2 m ∧ e.Reached m m' ∧
      e.stride.runtime.perform m' = .ok () m'' ∧ m''.regs.ip = e.pos + 1 ∧
      m''.regs.rp = m₀.regs.rp := by
  let e : LoopEnd := ⟨.popped, 65534, 305, 65530, by decide, by decide⟩
  let bare := Machine.bare 400 ⟨320, 340, 400⟩ Source.empty {} .off
  let m₀ : Machine :=
    { bare with
      memory := (bare.memory.overlay 305 [65530]).overlay 320 [0, 5]
      regs := { bare.regs with here := 310, sp := 322, ip := 301 } }
  have hm : m₀.Ordered := by constructor <;> decide +kernel
  have hdata : m₀.dataStack.items = [5, 0] := by decide +kernel
  have hcell : m₀.memory.cells[e.pos.toNat]? = some e.offset := by decide +kernel
  have hcount : loopCount? 0 5 e.step = some 3 := by decide +kernel
  have hok : succeeded (Runtime.enterLoop.perform m₀) = true := by decide +kernel
  cases henter : Runtime.enterLoop.perform m₀ with
  | error f m₁ =>
    rw [henter] at hok
    cases hok
  | ok a m₁ =>
    obtain ⟨hrun, hexists, -⟩ := rounds_count e hm hdata henter
    obtain ⟨m, m', hrounds, hreached⟩ := hexists (by decide) hcell 2 fun count h => by
      rw [hcount] at h
      cases h
      decide
    obtain ⟨-, -, hlast⟩ := hrun 2 m hrounds
    obtain ⟨m'', hperform, hleft⟩ := hlast m' hreached
    rw [if_pos hcount] at hleft
    exact ⟨e, m₀, m₁, m, m', m'', hdata, henter, hrounds, hreached, hperform, hleft.1, hleft.2.1⟩

end LoopEnd

end CellForth
