import CellForth.Proofs.StackComments

/-!
# Division

Three words divide the second item of the data stack by the top one, in the signed reading: `/`
leaves the quotient, `mod` the remainder, and `/mod` both. `Divided n t q r` is the law between the
four numbers, with the quotient rounded toward zero; it does not mention how a machine divides.

There is one way to fail that all numbers share, a divisor of zero, and one that is due to the width
of a cell: the quotient of `-32768` by `-1` is the only one that does not fit (`Cell.tdiv_bounds`).
`mod` fails there too, although the remainder would be zero, so that the three words have a result
for the same operands (`DivisionWord.division_exact`).

What is said of the three words at once is said of a `DivisionWord`, which knows its action and, of
a quotient and a remainder, what it leaves on the stack.
-/

namespace CellForth

/-! ### Quotient and remainder -/

/-- The numbers `q` and `r` are the quotient and the remainder of `n` by `t`. -/
structure Divided (n t q r : Int) : Prop where
  /-- The two make up the dividend. -/
  eq : n = q * t + r
  /-- The remainder is smaller than the divisor, whatever their signs. -/
  natAbs_lt : r.natAbs < t.natAbs
  /-- The remainder is zero or has the sign of the dividend. -/
  sign : r = 0 ∨ r.sign = n.sign

theorem divided_tdiv_tmod (n : Int) {t : Int} (ht : t ≠ 0) : Divided n t (n.tdiv t) (n.tmod t) where
  eq := (Int.tdiv_mul_add_tmod n t).symm
  natAbs_lt := by
    rw [Int.natAbs_tmod]
    exact Nat.mod_lt _ (Int.natAbs_pos.mpr ht)
  sign := by
    by_cases hdvd : t ∣ n
    · exact .inl (Int.tmod_eq_zero_of_dvd hdvd)
    · rw [Int.sign_tmod, if_neg hdvd]
      exact .inr rfl

/-- The faults of a division of `n` by `t`, both in the range of a cell. -/
def DivisionFault (n t : Int) (f : Fault) : Prop :=
  f = .divisionByZero ∧ t = 0 ∨ f = .resultOutOfRange ∧ n = -32768 ∧ t = -1

namespace Cell

variable {x y : Cell}

/-- A division is refused for its faults and for nothing else. -/
theorem checkDivision_eq_error_iff {f : Fault} :
    checkDivision x y = .error f ↔ DivisionFault (signed x) (signed y) f := by
  unfold checkDivision DivisionFault
  rw [signed_eq_zero_iff]
  by_cases hzero : y = 0
  · subst hzero
    simp [signed, eq_comm]
  · by_cases hrange : signed x = -32768 ∧ signed y = -1
    · simp [hzero, hrange, eq_comm]
    · simp [hzero, hrange]

/-- A quotient is not larger than the dividend, whatever their signs, so the only one that can leave
the range of a cell is `32768`, and this is the quotient of `-32768` by `-1` alone. -/
theorem tdiv_bounds (hrange : ¬(signed x = -32768 ∧ signed y = -1)) :
    -32768 ≤ (signed x).tdiv (signed y) ∧ (signed x).tdiv (signed y) ≤ 32767 := by
  have hx := signed_bounds x
  have hle := Int.natAbs_tdiv_le_natAbs (signed x) (signed y)
  have hne : (signed x).tdiv (signed y) ≠ 32768 := by
    intro hq
    have hy : signed y ≠ 0 := by
      intro hzero
      rw [hzero, Int.tdiv_zero] at hq
      cases hq
    -- A quotient of `32768` takes a dividend of that size and a divisor of one, with signs to
    -- match.
    obtain ⟨hlaw, hlt, -⟩ := divided_tdiv_tmod (signed x) hy
    rw [hq] at hlaw
    omega
  omega

theorem tmod_bounds (hy : signed y ≠ 0) :
    -32768 ≤ (signed x).tmod (signed y) ∧ (signed x).tmod (signed y) ≤ 32767 := by
  have hbounds := signed_bounds y
  have hlt := (divided_tdiv_tmod (signed x) hy).natAbs_lt
  omega

/-- The cells that a machine computes are quotient and remainder, unless the division is refused. -/
theorem divided_of_checkDivision (h : checkDivision x y = .ok ()) :
    Divided (signed x) (signed y) (signed (quotient x y)) (signed (remainder x y)) := by
  have hnone (f : Fault) : ¬DivisionFault (signed x) (signed y) f := by
    rw [← checkDivision_eq_error_iff, h]
    nofun
  have hy : signed y ≠ 0 := fun hzero => hnone .divisionByZero (.inl ⟨rfl, hzero⟩)
  have hrange : ¬(signed x = -32768 ∧ signed y = -1) :=
    fun hout => hnone .resultOutOfRange (.inr ⟨rfl, hout⟩)
  rw [quotient, remainder, signed_ofInt (tdiv_bounds hrange), signed_ofInt (tmod_bounds hy)]
  exact divided_tdiv_tmod _ hy

end Cell

/-! ### The words -/

/-- The words that divide. -/
inductive DivisionWord where
  /-- The word `/`. -/
  | slash
  /-- The word `mod`. -/
  | mod
  /-- The word `/mod`. -/
  | slashMod

namespace DivisionWord

/-- The word as it stands in the vocabulary. -/
def builtin : DivisionWord → Builtin
  | slash => ⟨"/", .binary .div, false⟩
  | mod => ⟨"mod", .binary .mod, false⟩
  | slashMod => ⟨"/mod", .divMod, false⟩

/-- What the word leaves, bottom first, of a quotient and a remainder. -/
def results (q r : Cell) : DivisionWord → List Cell
  | slash => [q]
  | mod => [r]
  | slashMod => [r, q]

theorem length_results_le (word : DivisionWord) (q r : Cell) : (word.results q r).length ≤ 2 := by
  cases word <;> simp [results]

theorem builtin_mem (word : DivisionWord) : word.builtin ∈ Vocabulary.arithmeticWords := by
  cases word <;> simp [builtin, Vocabulary.arithmeticWords]

/-- What the word computes from dividend and divisor. -/
def compute (word : DivisionWord) (x y : Cell) : Except Fault (List Cell) :=
  (Cell.checkDivision x y).map fun _ => word.results (Cell.quotient x y) (Cell.remainder x y)

/-- The operation of the word on the data stack. -/
def body : DivisionWord → StackM Unit
  | slash => Stack.binary BinaryWord.div.apply
  | mod => Stack.binary BinaryWord.mod.apply
  | slashMod => Stack.divMod

theorem step_eq (word : DivisionWord) :
    word.builtin.action.step = Exec.onStack .data word.body := by
  cases word <;> rfl

/-- The three bodies are one operation of the stack, and differ in what they leave. Only the two
that leave one item take the divisor off; `/mod` writes over both operands. -/
theorem body_eq (word : DivisionWord) {s : Stack} (h : s.WithinBounds) :
    word.body s = Stack.combine word.compute s := by
  cases word with
  | slashMod => exact h.divMod_eq
  | slash =>
    refine (h.binary_eq _).trans (congrArg (Stack.combine · s) (funext fun x => funext fun y => ?_))
    rw [BinaryWord.apply_div, compute]
    cases Cell.checkDivision x y <;> rfl
  | mod =>
    refine (h.binary_eq _).trans (congrArg (Stack.combine · s) (funext fun x => funext fun y => ?_))
    rw [BinaryWord.apply_mod, compute]
    cases Cell.checkDivision x y <;> rfl

theorem rewrites_body (word : DivisionWord) :
    Stack.Rewrites word.body (Store.binary word.compute) :=
  (Stack.rewrites_combine _).congr fun _ h => word.body_eq h

variable {m : Machine} {rest : List Cell} {x y : Cell}

theorem act_eq (word : DivisionWord) :
    Exec.act word.builtin.action m =
      (Exec.onStack .data word.body >>= fun _ => pure Continuation.done) m := by
  rw [← word.step_eq]
  refine Exec.act_of_step ?_ ?_ <;> cases word <;> decide

/-- A division that is refused leaves the machine as it was. -/
theorem act_of_error (word : DivisionWord) (hm : m.Ordered) (hitems : m.dataItems = rest ++ [x, y])
    {f : Fault} (h : Cell.checkDivision x y = .error f) :
    Exec.act word.builtin.action m = .error f m := by
  have hstore : Store.binary word.compute m.dataStack.toList.reverse = .error f := by
    rw [← Machine.dataItems, hitems]
    simp [Store.binary, compute, h, Except.map]
  rw [act_eq, bind_of_error (Exec.refused_of_rewrites hm word.rewrites_body hstore)]

/-- A division that is not refused puts its results in the place of the operands; there is always
room for them. -/
theorem act_of_ok (word : DivisionWord) (hm : m.Ordered) (hitems : m.dataItems = rest ++ [x, y])
    (h : Cell.checkDivision x y = .ok ()) :
    ∃ m', Exec.act word.builtin.action m = .ok .done m' ∧
      m.Restacked .data (rest ++ word.results (Cell.quotient x y) (Cell.remainder x y)) m' := by
  have hstore : Store.binary word.compute m.dataStack.toList.reverse =
      .ok (rest ++ word.results (Cell.quotient x y) (Cell.remainder x y)).reverse := by
    rw [← Machine.dataItems, hitems]
    simp [Store.binary, compute, h, Except.map]
  have hroom : (rest ++ word.results (Cell.quotient x y) (Cell.remainder x y)).length ≤
      (m.stackOf .data).capacity := by
    have hlength : m.dataItems.length ≤ m.dataStack.capacity := hm.length_toList_le .data
    have hresults := word.length_results_le (Cell.quotient x y) (Cell.remainder x y)
    rw [hitems] at hlength
    simp only [List.length_append, List.length_cons, List.length_nil] at hlength ⊢
    exact Nat.le_trans (Nat.add_le_add_left hresults _) hlength
  obtain ⟨m', hok, hm'⟩ := (Exec.puts_of_rewrites hm word.rewrites_body hstore).1 hroom
  exact ⟨m', by rw [act_eq, bind_of_ok hok]; rfl, hm'⟩

/-- **The three words that divide agree, and obey the law of division.** They are refused for the
same operands with the same fault: for a divisor of zero, and for `-32768` divided by `-1`; then the
machine is as it was. For all other operands there are a quotient and a remainder by the law, and
`/` leaves the one, `mod` the other and `/mod` both, the quotient on top; what lies below the
operands stays, and so does the return stack. -/
theorem division_exact (hm : m.Ordered) (hitems : m.dataItems = rest ++ [x, y]) :
    (∀ word : DivisionWord, word.builtin ∈ Vocabulary.arithmeticWords) ∧
    (∀ (word : DivisionWord) (f : Fault) (m' : Machine),
      Exec.act word.builtin.action m = .error f m' ↔
        DivisionFault (Cell.signed x) (Cell.signed y) f ∧ m' = m) ∧
    ((∀ f, ¬DivisionFault (Cell.signed x) (Cell.signed y) f) →
      ∃ q r : Cell, Divided (Cell.signed x) (Cell.signed y) (Cell.signed q) (Cell.signed r) ∧
        ∀ word : DivisionWord, ∃ m', Exec.act word.builtin.action m = .ok .done m' ∧
          m'.dataItems = rest ++ word.results q r ∧ m'.returnItems = m.returnItems) := by
  refine ⟨builtin_mem, ?_⟩
  cases hcheck : Cell.checkDivision x y with
  | error f =>
    have hfault := Cell.checkDivision_eq_error_iff.mp hcheck
    refine ⟨fun word f' m' => ?_, fun hnone => absurd hfault (hnone f)⟩
    rw [word.act_of_error hm hitems hcheck, ← Cell.checkDivision_eq_error_iff, hcheck]
    simp [eq_comm]
  | ok u =>
    refine ⟨fun word f m' => ?_, fun _ => ?_⟩
    · obtain ⟨m₁, hok, -⟩ := word.act_of_ok hm hitems hcheck
      rw [hok, ← Cell.checkDivision_eq_error_iff, hcheck]
      simp
    · refine ⟨_, _, Cell.divided_of_checkDivision hcheck, fun word => ?_⟩
      obtain ⟨m', hok, hm'⟩ := word.act_of_ok hm hitems hcheck
      exact ⟨m', hok, hm'.items_eq, hm'.other_eq⟩

/-- The number `-7` by `2`: the quotient is `-3` and the remainder `-1`, where rounding down would
have given `-4` and `1`. And `-32768` by `-1`, which even `mod` refuses. -/
theorem division_exact_of_negatives :
    (∃ m m' : Machine, m.Ordered ∧ m.dataItems = [5] ++ [Cell.ofInt (-7), 2] ∧
      Exec.act .divMod m = .ok .done m' ∧ m'.dataItems = [5, Cell.ofInt (-1), Cell.ofInt (-3)]) ∧
    ∃ m : Machine, m.Ordered ∧ m.dataItems = [] ++ [Cell.ofInt (-32768), Cell.ofInt (-1)] ∧
      Exec.act (.binary .mod) m = .error .resultOutOfRange m := by
  let m₀ := Machine.bare 400 ⟨320, 340, 400⟩ Source.empty {} .off
  constructor
  · obtain ⟨m, hm, hitems⟩ : ∃ m : Machine, m.Ordered ∧ m.dataItems = [5] ++ [Cell.ofInt (-7), 2] :=
      ⟨{ m₀ with
          memory := m₀.memory.overlay 320 [5, Cell.ofInt (-7), 2]
          regs := { m₀.regs with here := 310, sp := 323 } },
        by constructor <;> decide +kernel, by decide +kernel⟩
    have hnone (f : Fault) : ¬DivisionFault (Cell.signed (Cell.ofInt (-7))) (Cell.signed 2) f := by
      rintro (⟨-, h⟩ | ⟨-, h, -⟩) <;> revert h <;> decide
    obtain ⟨q, r, ⟨hlaw, hlt, hsign⟩, hwords⟩ := (division_exact hm hitems).2.2 hnone
    obtain ⟨m', hok, hitems', -⟩ := hwords .slashMod
    have hx : Cell.signed (Cell.ofInt (-7)) = -7 := by decide
    have hy : Cell.signed 2 = 2 := by decide
    rw [hx, hy] at hlaw
    rw [hy] at hlt
    have hneg : Cell.signed r < 0 := by
      rcases hsign with hzero | hsign
      · omega
      · exact Int.sign_eq_neg_one_iff_neg.mp (hsign.trans (by decide))
    have hr : Cell.signed r = -1 := by omega
    have hq : Cell.signed q = -3 := by omega
    refine ⟨m, m', hm, hitems, hok, ?_⟩
    rw [hitems', results, ← Cell.ofInt_signed q, ← Cell.ofInt_signed r, hq, hr]
    rfl
  · obtain ⟨m, hm, hitems⟩ : ∃ m : Machine, m.Ordered ∧
        m.dataItems = [] ++ [Cell.ofInt (-32768), Cell.ofInt (-1)] :=
      ⟨{ m₀ with
          memory := m₀.memory.overlay 320 [Cell.ofInt (-32768), Cell.ofInt (-1)]
          regs := { m₀.regs with here := 310, sp := 322 } },
        by constructor <;> decide +kernel, by decide +kernel⟩
    exact ⟨m, hm, hitems, ((division_exact hm hitems).2.1 .mod _ m).mpr
      ⟨.inr ⟨rfl, by decide, by decide⟩, rfl⟩⟩

end DivisionWord

end CellForth
