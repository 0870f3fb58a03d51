import CellForth.Proofs.Actions
import CellForth.Proofs.Evaluation

/-!
# Runs that follow an evaluation

A run of threaded code follows an evaluation if it ends as the evaluation does. `Machine.Follows`
says what this means for each of its answers. If the evaluation succeeds, the run gets to a machine
that carries its store, and if it meets a fault, so does the run, in a machine that carries the
store of that moment. If it has no answer within its number of rounds, the run does not end within
that number of steps; together with the other two this makes a run that ends follow an evaluation
that ends.

Runs are put together as evaluations are: in sequence (`Follows.bind`) and in loops
(`Follows.loop`). A loop that goes on for ever must not stand still, so a round of it has to take a
step of the machine.
-/

namespace CellForth

variable {α β : Type}

namespace Machine

variable {m₀ m m' m'' : Machine} {bound n n' : Nat}

/-! ### Steps of threaded code -/

/-- A run that has ended does not make use of more steps. -/
theorem runThread_add {r : EStateM.Result Fault Machine Unit} {k : Nat}
    (h : m.runThread k = some r) (j : Nat) : m.runThread (k + j) = some r := by
  refine runThread_induction (motive := fun k m r => m.runThread (k + j) = some r) ?_ ?_ ?_ h
  · intro k m hip
    exact runThread_of_eq_zero _ hip
  · intro k m e m' hip hstep
    rw [Nat.add_right_comm, runThread_succ _ hip, hstep]
  · intro k m m' r hip hstep ih
    rw [Nat.add_right_comm, runThread_succ _ hip, hstep]
    exact ih

theorem interpretToken_add {r : EStateM.Result Fault Machine Unit} {token : List UInt8} {k : Nat}
    (h : m.interpretToken k token = some r) (j : Nat) :
    m.interpretToken (k + j) token = some r := by
  rw [interpretToken_eq] at h ⊢
  obtain ⟨r', hr', rfl⟩ := Option.map_eq_some_iff.mp h
  refine Option.map_eq_some_iff.mpr ⟨r', ?_, rfl⟩
  generalize Exec.enterToken token { m with token := [] } = entered at hr'
  rcases entered with ⟨_ | _, m'⟩ | ⟨e, m'⟩
  · exact hr'
  · exact runThread_add hr' j
  · exact hr'

/-- An interpreter that has come to the end of its input does not make use of more steps. -/
theorem interpret_add {r : EStateM.Result Fault Machine Unit} {k : Nat}
    (h : m.interpret k = some r) (j : Nat) : m.interpret (k + j) = some r := by
  refine interpret_induction (motive := fun k m r => m.interpret (k + j) = some r) ?_ ?_ ?_ ?_ h
  · intro k m e m' hparse
    exact interpret_of_error _ hparse
  · intro k m m' hparse htoken
    exact interpret_of_nil _ hparse htoken
  · intro k m m₁ e m' hparse htoken hrun
    rw [Nat.add_right_comm, interpret_succ _ hparse htoken, interpretToken_add hrun j]
  · intro k m m₁ m₂ r hparse htoken hrun ih
    rw [Nat.add_right_comm, interpret_succ _ hparse htoken, interpretToken_add hrun j]
    exact ih

/-- After `n` steps of threaded code, the machine `m` has become `m'`. -/
def Reaches (m : Machine) (n : Nat) (m' : Machine) : Prop :=
  ∀ k, m.runThread (n + k) = m'.runThread k

theorem Reaches.refl (m : Machine) : m.Reaches 0 m := fun k => by rw [Nat.zero_add]

theorem Reaches.trans (h : m.Reaches n m') (h' : m'.Reaches n' m'') : m.Reaches (n + n') m'' :=
  fun k => by rw [Nat.add_assoc, h, h']

theorem reaches_of_stepThread (hip : m.regs.ip ≠ 0) (hstep : stepThread m = .ok () m') :
    m.Reaches 1 m' := fun k => by
  rw [Nat.add_comm, runThread_succ k hip, hstep]

theorem runThread_of_stepThread {e : Fault} (hip : m.regs.ip ≠ 0)
    (hstep : stepThread m = .error e m') (k : Nat) :
    m.runThread (1 + k) = some (.error e m') := by
  rw [Nat.add_comm, runThread_succ k hip, hstep]

/-- What does not end behind some steps does not end in front of them. -/
theorem Reaches.runThread_eq_none (h : m.Reaches n m') {k : Nat} (hnone : m'.runThread k = none) :
    m.runThread k = none := by
  cases hrun : m.runThread k with
  | none => rfl
  | some r =>
    have hmore := runThread_add hrun n
    rw [Nat.add_comm, h, hnone] at hmore
    cases hmore

/-! ### Following an evaluation -/

/-- The run of the machine `m` ends as an evaluation did. If that was a success, the machine then
has the property `P`, which may speak of the value and the store; if it was a fault, the machine
carries the store; and if there is no answer, the run takes more steps than `bound`. -/
inductive Follows (m₀ : Machine) (bound : Nat) (m : Machine) (P : α → Store → Machine → Prop) :
    Option (EStateM.Result Fault Store α) → Prop
  /-- The evaluation has not ended. -/
  | unfinished (hrun : ∀ k ≤ bound, m.runThread k = none) : Follows m₀ bound m P none
  /-- The evaluation has succeeded. -/
  | ok {n : Nat} {m' : Machine} {a : α} {s : Store} (hreach : m.Reaches n m') (hpost : P a s m') :
    Follows m₀ bound m P (some (.ok a s))
  /-- The evaluation has met a fault. -/
  | error {n ip : Nat} {m' : Machine} {e : Fault} {s : Store} {returns : List Cell}
    (hstop : ∀ k, m.runThread (n + k) = some (.error e m')) (hrun : m₀.Running s returns ip m') :
    Follows m₀ bound m P (some (.error e s))

namespace Follows

variable {P : α → Store → Machine → Prop} {Q : β → Store → Machine → Prop}
  {r : Option (EStateM.Result Fault Store α)} {s : Store}

/-- Nothing has to happen for what is true already. -/
theorem pure {a : α} (h : P a s m) : m₀.Follows bound m P ((Pure.pure a : Eval α) s) :=
  .ok (.refl m) h

/-- Steps in front of a run lengthen it. -/
theorem prepend (hreach : m.Reaches n m') (h : m₀.Follows bound m' P r) :
    m₀.Follows bound m P r := by
  cases h with
  | unfinished hrun => exact .unfinished fun k hk => hreach.runThread_eq_none (hrun k hk)
  | ok hreach' hpost => exact .ok (hreach.trans hreach') hpost
  | error hstop hrun =>
    exact .error (fun k => by rw [Nat.add_assoc, hreach, hstop]) hrun

theorem mono {bound' : Nat} (h : m₀.Follows bound m P r) (hle : bound' ≤ bound) :
    m₀.Follows bound' m P r := by
  cases h with
  | unfinished hrun => exact .unfinished fun k hk => hrun k (Nat.le_trans hk hle)
  | ok hreach hpost => exact .ok hreach hpost
  | error hstop hrun => exact .error hstop hrun

/-- If the steps in front are not none, a run without end lasts at least one step longer. -/
theorem prepend_succ (hreach : m.Reaches (n + 1) m') (h : m₀.Follows bound m' P r) :
    m₀.Follows (bound + 1) m P r := by
  cases h with
  | unfinished hrun =>
    refine .unfinished fun k hk => ?_
    cases hk' : m.runThread k with
    | none => rfl
    | some r =>
      obtain ⟨j, hj⟩ : ∃ j, k + j = n + 1 + (k - 1) := ⟨n + 1 + (k - 1) - k, by omega⟩
      have hmore := runThread_add hk' j
      rw [hj, hreach, hrun (k - 1) (by omega)] at hmore
      cases hmore
  | ok hreach' hpost => exact .ok (hreach.trans hreach') hpost
  | error hstop hrun =>
    exact .error (fun k => by rw [Nat.add_assoc, hreach, hstop]) hrun

/-- A run follows a sequence if it follows the first part, and then, seen from its start, the
second. -/
theorem bind_from {x : Eval α} {f : α → Eval β} (hx : m₀.Follows bound m P (x s))
    (hf : ∀ n a s' m', m.Reaches n m' → P a s' m' → m₀.Follows bound m Q (f a s')) :
    m₀.Follows bound m Q ((x >>= f) s) := by
  simp only [Bind.bind, Eval.bind]
  generalize x s = r at hx
  cases hx with
  | unfinished hrun => exact .unfinished hrun
  | ok hreach hpost => exact hf _ _ _ _ hreach hpost
  | error hstop hrun => exact .error hstop hrun

/-- A run follows a sequence if it follows the first part and goes on to follow the second. -/
theorem bind {x : Eval α} {f : α → Eval β} (hx : m₀.Follows bound m P (x s))
    (hf : ∀ n a s' m', m.Reaches n m' → P a s' m' → m₀.Follows bound m' Q (f a s')) :
    m₀.Follows bound m Q ((x >>= f) s) :=
  hx.bind_from fun n a s' m' hreach hpost => (hf n a s' m' hreach hpost).prepend hreach

/-- Steps behind a run may establish another property. -/
theorem andThen {P' : α → Store → Machine → Prop} (h : m₀.Follows bound m P r)
    (hnext : ∀ n a s' m', m.Reaches n m' → P a s' m' →
      ∃ n' m'', m'.Reaches n' m'' ∧ P' a s' m'') : m₀.Follows bound m P' r := by
  cases h with
  | unfinished hrun => exact .unfinished hrun
  | ok hreach hpost =>
    obtain ⟨n', m'', hreach', hpost'⟩ := hnext _ _ _ _ hreach hpost
    exact .ok (hreach.trans hreach') hpost'
  | error hstop hrun => exact .error hstop hrun

theorem imp {P' : α → Store → Machine → Prop} (h : m₀.Follows bound m P r)
    (hpost : ∀ a s' m', P a s' m' → P' a s' m') : m₀.Follows bound m P' r :=
  h.andThen fun _ a s' m' _ h' => ⟨0, m', .refl m', hpost a s' m' h'⟩

/-- A run follows a loop if it follows every round of it and takes at least one step for a round
that is not the last. The invariant may speak of what the round works on. -/
theorem loop {step : α → Eval (Option α)} {I : α → Store → Machine → Prop}
    {Q : Unit → Store → Machine → Prop} (hip : ∀ a s m, I a s m → m.regs.ip ≠ 0)
    (hstep : ∀ a s m, I a s m → m₀.Follows bound m (fun next s' m' =>
      match next with
      | none => Q () s' m'
      | some a' => (∃ n, m.Reaches (n + 1) m') ∧ I a' s' m') (step a s))
    {rounds : Nat} (hrounds : rounds ≤ bound) {a : α} (hinv : I a s m) :
    m₀.Follows rounds m Q (Eval.loop rounds a step s) := by
  induction rounds generalizing a s m with
  | zero =>
    refine .unfinished fun k hk => ?_
    rw [Nat.le_zero.mp hk]
    exact runThread_zero (hip a s m hinv)
  | succ rounds ih =>
    refine ((hstep a s m hinv).mono hrounds).bind_from fun n next s' m' hreach hnext => ?_
    cases next with
    | none => exact (pure hnext).prepend hreach
    | some a' =>
      obtain ⟨⟨n, hreach⟩, hinv'⟩ := hnext
      exact (ih (Nat.le_of_succ_le hrounds) hinv').prepend_succ hreach

end Follows

end Machine

end CellForth
