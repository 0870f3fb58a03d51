import CellForth.Effect

/-!
# What operations keep

An operation that can be refused ends in a state whichever way it ends, and that state is
`endState` of its result. `Keeps P op` says that `op` leads from states with property `P` to
such states, be it by success or by refusal. Since a refusal does not roll back, this is the
only form of "invariant" that composes: the rules below take an operation apart along its
sequence of steps, and every step has to keep the property on its own.

A step that only looks at the state keeps everything. A demand tells the steps behind it what
it has checked, which is what `Keeps.demand_bind` is for.

Where a refusal and a success leave different things behind, `Ends P Q` says it of a single result:
the operation was refused in a state with `P`, or it gave a value for which `Q` holds in its state.

`Refines R V x y` compares two operations on states of different types. From states related by
`R` they succeed together, with values related by `V`, or are refused together, for the same
reason; the states are related again. This composes along sequences as `Keeps` does.
-/

namespace CellForth

variable {ε σ α β : Type}

/-! ### Running a sequence of two steps -/

theorem bind_of_ok {x : EStateM ε σ α} {f : α → EStateM ε σ β} {s t : σ} {a : α}
    (h : x s = .ok a t) : (x >>= f) s = f a t := by
  simp only [bind, EStateM.bind, h]

theorem bind_of_error {x : EStateM ε σ α} {f : α → EStateM ε σ β} {s t : σ} {e : ε}
    (h : x s = .error e t) : (x >>= f) s = .error e t := by
  simp only [bind, EStateM.bind, h]

/-- If a sequence has succeeded, so have both of its steps. -/
theorem exists_of_bind_ok {x : EStateM ε σ α} {f : α → EStateM ε σ β} {s u : σ} {b : β}
    (h : (x >>= f) s = .ok b u) : ∃ a t, x s = .ok a t ∧ f a t = .ok b u := by
  cases hx : x s with
  | ok a t => exact ⟨a, t, rfl, (bind_of_ok hx).symm.trans h⟩
  | error e t =>
    rw [bind_of_error hx] at h
    cases h

/-- A sequence depends on what its first step does in the given state. -/
theorem bind_congr_at {x y : EStateM ε σ α} {f : α → EStateM ε σ β} {s : σ} (h : x s = y s) :
    (x >>= f) s = (y >>= f) s := by
  simp only [bind, EStateM.bind, h]

/-- Behind the same look, what matters is what is done in the state it has left as it was. -/
theorem observe_bind_congr {g : σ → Except ε α} {f f' : α → EStateM ε σ β} {s : σ}
    (h : ∀ a, g s = .ok a → f a s = f' a s) : (observe g >>= f) s = (observe g >>= f') s := by
  cases hg : g s with
  | ok a =>
    rw [bind_of_ok (observe_of_ok hg), bind_of_ok (observe_of_ok hg)]
    exact h a hg
  | error e => rw [bind_of_error (observe_of_error hg), bind_of_error (observe_of_error hg)]

theorem demand_of_pos {p : Prop} [Decidable p] {e : ε} (h : p) : demand p e = .ok () :=
  if_pos h

theorem demand_of_neg {p : Prop} [Decidable p] {e : ε} (h : ¬ p) : demand p e = .error e :=
  if_neg h

/-- A look succeeds with what it sees, in the state it looks at. -/
theorem observe_eq_ok_iff {f : σ → Except ε α} {s t : σ} {a : α} :
    observe f s = .ok a t ↔ f s = .ok a ∧ t = s := by
  cases hf : f s with
  | ok b => simp [observe_of_ok hf, eq_comm]
  | error e => simp [observe_of_error hf]

theorem settle_ok {a : α} (s : σ) : (settle (.ok a) : EStateM ε σ α) s = .ok a s :=
  rfl

theorem settle_error {e : ε} (s : σ) : (settle (.error e) : EStateM ε σ α) s = .error e s :=
  rfl

/-! ### Looking in a row -/

/-- A row of looks succeeds with what each of them sees. -/
theorem mapM_eq_ok_iff {f : α → Except ε β} {l : List α} {bs : List β} :
    l.mapM f = .ok bs ↔ l.map f = bs.map .ok := by
  induction l generalizing bs with
  | nil =>
    constructor
    · intro h
      cases h
      rfl
    · intro h
      rw [List.map_eq_nil_iff.mp h.symm]
      rfl
  | cons a l ih =>
    rw [List.mapM_cons, List.map_cons]
    constructor
    · intro h
      cases ha : f a with
      | error e =>
        rw [ha] at h
        cases h
      | ok b =>
        cases hrest : l.mapM f with
        | error e =>
          rw [ha, hrest] at h
          cases h
        | ok cs =>
          rw [ha, hrest] at h
          cases h
          rw [ih.mp hrest, List.map_cons]
    · intro h
      cases bs with
      | nil => cases h
      | cons b bs =>
        obtain ⟨ha, hrest⟩ := List.cons.inj h
        rw [ha, ih.mpr hrest]
        rfl

/-- A row of looks is refused for the reason for which one of them is. -/
theorem exists_of_mapM_eq_error {f : α → Except ε β} {l : List α} {e : ε}
    (h : l.mapM f = .error e) :
    ∃ a ∈ l, f a = .error e := by
  induction l with
  | nil => cases h
  | cons a l ih =>
    rw [List.mapM_cons] at h
    cases ha : f a with
    | error e' =>
      rw [ha] at h
      cases h
      exact ⟨a, List.mem_cons_self, ha⟩
    | ok b =>
      cases hrest : l.mapM f with
      | error e' =>
        rw [ha, hrest] at h
        cases h
        obtain ⟨a', hmem, ha'⟩ := ih hrest
        exact ⟨a', List.mem_cons_of_mem _ hmem, ha'⟩
      | ok bs =>
        rw [ha, hrest] at h
        cases h

/-! ### The state at the end -/

/-- The state in which an operation has ended, whichever way it ended. -/
def endState : EStateM.Result ε σ α → σ
  | .ok _ s => s
  | .error _ s => s

@[simp] theorem endState_ok (a : α) (s : σ) :
    endState (.ok a s : EStateM.Result ε σ α) = s := rfl

@[simp] theorem endState_error (e : ε) (s : σ) :
    endState (.error e s : EStateM.Result ε σ α) = s := rfl

/-- An operation that only looks ends where it began. -/
@[simp] theorem endState_observe (f : σ → Except ε α) (s : σ) : endState (observe f s) = s := by
  unfold observe
  split <;> rfl

/-- A sequence ends where its second step ends, or where its first step was refused. -/
theorem endState_bind (x : EStateM ε σ α) (f : α → EStateM ε σ β) (s : σ) :
    (∃ a t, x s = .ok a t ∧ endState ((x >>= f) s) = endState (f a t)) ∨
      endState ((x >>= f) s) = endState (x s) := by
  cases h : x s with
  | ok a t => exact .inl ⟨a, t, rfl, by rw [bind_of_ok h]⟩
  | error e t => exact .inr (by rw [bind_of_error h]; rfl)

/-- Giving another value at the end does not change the state. -/
@[simp] theorem endState_bind_pure (x : EStateM ε σ α) (b : β) (s : σ) :
    endState ((x >>= fun _ => pure b) s) = endState (x s) := by
  cases h : x s with
  | ok a t => rw [bind_of_ok h]; rfl
  | error e t => rw [bind_of_error h]; rfl

/-! ### Properties that an operation keeps -/

/-- The operation leads from states with the property to states with the property, be it by
success or by refusal. -/
def Keeps (P : σ → Prop) (op : EStateM ε σ α) : Prop :=
  ∀ s, P s → P (endState (op s))

namespace Keeps

variable {P : σ → Prop}

theorem of_ok {op : EStateM ε σ α} (h : Keeps P op) {s t : σ} {a : α} (hok : op s = .ok a t)
    (hs : P s) : P t := by
  have hend := h s hs
  rwa [hok] at hend

theorem pure (a : α) : Keeps P (Pure.pure a : EStateM ε σ α) :=
  fun _ hs => hs

theorem throw (e : ε) : Keeps P (MonadExcept.throw e : EStateM ε σ α) :=
  fun _ hs => hs

/-- Looking at the state keeps every property of it. -/
theorem observe (f : σ → Except ε α) : Keeps P (observe f) := fun s hs => by
  rwa [endState_observe]

theorem settle (r : Except ε α) : Keeps P (settle r : EStateM ε σ α) :=
  observe _

theorem bind {x : EStateM ε σ α} {f : α → EStateM ε σ β} (hx : Keeps P x)
    (hf : ∀ a, Keeps P (f a)) : Keeps P (x >>= f) := by
  intro s hs
  have hxs := hx s hs
  obtain ⟨a, t, hat, hend⟩ | hend := endState_bind x f s
  · rw [hend]
    rw [hat] at hxs
    exact hf a t hxs
  · rwa [hend]

/-- The steps behind a look may use what it has seen. -/
theorem observe_bind {g : σ → Except ε α} {f : α → EStateM ε σ β}
    (hf : ∀ s a, P s → g s = .ok a → P (endState (f a s))) :
    Keeps P (CellForth.observe g >>= f) := by
  intro s hs
  cases hg : g s with
  | ok a =>
    rw [bind_of_ok (observe_of_ok hg)]
    exact hf s a hs hg
  | error e =>
    rw [bind_of_error (observe_of_error hg)]
    exact hs

/-- The steps behind a demand may use that it was met. -/
theorem demand_bind {p : Prop} [Decidable p] {e : ε} {f : Unit → EStateM ε σ β}
    (hf : p → Keeps P (f ())) : Keeps P (CellForth.settle (demand p e) >>= f) :=
  observe_bind fun s _ hs hp => hf (demand_eq_ok_iff.mp hp) s hs

theorem and {Q : σ → Prop} {x : EStateM ε σ α} (hP : Keeps P x) (hQ : Keeps Q x) :
    Keeps (fun s => P s ∧ Q s) x :=
  fun s hs => ⟨hP s hs.1, hQ s hs.2⟩

theorem ite {c : Prop} [Decidable c] {x y : EStateM ε σ α} (hx : Keeps P x) (hy : Keeps P y) :
    Keeps P (if c then x else y) := by
  split
  · exact hx
  · exact hy

/-- A row of steps keeps what every one of them keeps. -/
theorem forM {f : α → EStateM ε σ PUnit} {l : List α} (hf : ∀ a ∈ l, Keeps P (f a)) :
    Keeps P (l.forM f) := by
  induction l with
  | nil => exact pure _
  | cons a l ih =>
    exact bind (hf a List.mem_cons_self) fun _ =>
      ih fun b hb => hf b (List.mem_cons_of_mem _ hb)

theorem mapM {f : α → EStateM ε σ β} {l : List α} (hf : ∀ a ∈ l, Keeps P (f a)) :
    Keeps P (l.mapM f) := by
  induction l with
  | nil => exact pure _
  | cons a l ih =>
    rw [List.mapM_cons]
    exact bind (hf a List.mem_cons_self) fun _ =>
      bind (ih fun b hb => hf b (List.mem_cons_of_mem _ hb)) fun _ => pure _

end Keeps

/-! ### Successes and refusals apart -/

/-- Has the operation succeeded? -/
def succeeded : EStateM.Result ε σ α → Bool
  | .ok _ _ => true
  | .error _ _ => false

/-- The operation was refused with `P`, or it has succeeded with `Q`. -/
def Ends (P : σ → Prop) (Q : α → σ → Prop) : EStateM.Result ε σ α → Prop
  | .ok a s => Q a s
  | .error _ s => P s

namespace Ends

variable {P : σ → Prop} {Q : α → σ → Prop} {R : β → σ → Prop}

/-- A sequence may be taken apart, and the second step may use how the first one has ended. -/
theorem bind {x : EStateM ε σ α} {f : α → EStateM ε σ β} {s : σ} (hx : Ends P Q (x s))
    (hf : ∀ a t, Q a t → Ends P R (f a t)) : Ends P R ((x >>= f) s) := by
  cases h : x s with
  | ok a t =>
    rw [h] at hx
    rw [bind_of_ok h]
    exact hf a t hx
  | error e t =>
    rw [h] at hx
    rw [bind_of_error h]
    exact hx

theorem observe {f : σ → Except ε α} {s : σ} (hs : P s) (hQ : ∀ a, f s = .ok a → Q a s) :
    Ends P Q (observe f s) := by
  cases h : f s with
  | ok a =>
    rw [observe_of_ok h]
    exact hQ a h
  | error e =>
    rw [observe_of_error h]
    exact hs

theorem mono {P' : σ → Prop} {Q' : α → σ → Prop} {r : EStateM.Result ε σ α} (h : Ends P Q r)
    (hP : ∀ s, P s → P' s) (hQ : ∀ a s, Q a s → Q' a s) : Ends P' Q' r := by
  cases r with
  | ok a s => exact hQ a s h
  | error e s => exact hP s h

/-- If success comes with the property of a refusal, the property holds in the end. -/
theorem endState {r : EStateM.Result ε σ α} (h : Ends P Q r) (hQ : ∀ a s, Q a s → P s) :
    P (endState r) := by
  cases r with
  | ok a s => exact hQ a s h
  | error e s => exact h

end Ends

theorem Keeps.ends {P : σ → Prop} {op : EStateM ε σ α} (h : Keeps P op) {s : σ} (hs : P s) :
    Ends P (fun _ => P) (op s) := by
  have hend := h s hs
  cases hop : op s with
  | ok a t =>
    rw [hop] at hend
    exact hend
  | error e t =>
    rw [hop] at hend
    exact hend

/-! ### Operations on related states -/

section Refines

variable {τ α' β' : Type} {R : σ → τ → Prop}

/-- Both results are successes with related values, or both are the same refusal, and in either
case the states are related. -/
inductive Related (R : σ → τ → Prop) (V : α → α' → Prop) :
    EStateM.Result ε σ α → EStateM.Result ε τ α' → Prop
  /-- Both have succeeded. -/
  | ok {a : α} {a' : α'} {s : σ} {t : τ} (hv : V a a') (hs : R s t) :
      Related R V (.ok a s) (.ok a' t)
  /-- Both were refused. -/
  | error {e : ε} {s : σ} {t : τ} (hs : R s t) : Related R V (.error e s) (.error e t)

section Related

variable {V : α → α' → Prop} {r : EStateM.Result ε σ α} {r' : EStateM.Result ε τ α'}

theorem Related.of_ok {a : α} {s : σ} (h : Related R V (.ok a s) r') :
    ∃ a' t, r' = .ok a' t ∧ V a a' ∧ R s t := by
  cases h with
  | ok hv hs => exact ⟨_, _, rfl, hv, hs⟩

theorem Related.of_error {e : ε} {s : σ} (h : Related R V (.error e s) r') :
    ∃ t, r' = .error e t ∧ R s t := by
  cases h with
  | error hs => exact ⟨_, rfl, hs⟩

theorem Related.of_eq_ok {a' : α'} {t : τ} (h : Related R V r r') (hr : r' = .ok a' t) :
    ∃ a s, r = .ok a s ∧ V a a' ∧ R s t := by
  subst hr
  cases h with
  | ok hv hs => exact ⟨_, _, rfl, hv, hs⟩

theorem Related.of_eq_error {e : ε} {t : τ} (h : Related R V r r') (hr : r' = .error e t) :
    ∃ s, r = .error e s ∧ R s t := by
  subst hr
  cases h with
  | error hs => exact ⟨_, rfl, hs⟩

end Related

/-- From related states, the two operations have related results. -/
def Refines (R : σ → τ → Prop) (V : α → α' → Prop) (x : EStateM ε σ α) (y : EStateM ε τ α') :
    Prop :=
  ∀ s t, R s t → Related R V (x s) (y t)

namespace Refines

variable {V : α → α' → Prop} {W : β → β' → Prop}

theorem pure {a : α} {a' : α'} (hv : V a a') :
    Refines R V (Pure.pure a : EStateM ε σ α) (Pure.pure a') :=
  fun _ _ hs => .ok hv hs

theorem bind {x : EStateM ε σ α} {y : EStateM ε τ α'} {f : α → EStateM ε σ β}
    {g : α' → EStateM ε τ β'} (hx : Refines R V x y)
    (hf : ∀ a a', V a a' → Refines R W (f a) (g a')) : Refines R W (x >>= f) (y >>= g) := by
  intro s t hs
  have hxs := hx s t hs
  simp only [Bind.bind, EStateM.bind]
  generalize x s = r, y t = r' at hxs
  cases hxs with
  | ok hv hs' => exact hf _ _ hv _ _ hs'
  | error hs' => exact .error hs'

end Refines

end Refines

end CellForth
