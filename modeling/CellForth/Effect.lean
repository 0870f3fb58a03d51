/-!
# Steps that keep their state when they fail

Machine operations are computations in `EStateM ε σ`: each takes a state, and ends with a
value or with a refusal, in either case in a state. A refusal does not roll back; what was
done before it stays done. This module has the two ways to make such a step out of a
function that cannot change the state.
-/

namespace CellForth

variable {ε σ α : Type}

/-- Looks at the state and leaves it as it is, with a value or with a refusal. -/
@[inline] def observe (f : σ → Except ε α) : EStateM ε σ α := fun s =>
  match f s with
  | .ok a => .ok a s
  | .error e => .error e s

theorem observe_of_ok {f : σ → Except ε α} {s : σ} {a : α} (h : f s = .ok a) :
    observe f s = .ok a s := by
  simp [observe, h]

theorem observe_of_error {f : σ → Except ε α} {s : σ} {e : ε} (h : f s = .error e) :
    observe f s = .error e s := by
  simp [observe, h]

/-- Ends as `r` says, without looking at the state. -/
@[inline] def settle (r : Except ε α) : EStateM ε σ α :=
  observe fun _ => r

/-- Refuses with `e` unless the condition holds. -/
@[inline] def demand (p : Prop) [Decidable p] (e : ε) : Except ε Unit :=
  if p then .ok () else .error e

/-- A demand is met exactly when its condition holds. -/
theorem demand_eq_ok_iff {p : Prop} [Decidable p] {e : ε} {u : Unit} :
    demand p e = .ok u ↔ p := by
  unfold demand
  split <;> simp_all

end CellForth
