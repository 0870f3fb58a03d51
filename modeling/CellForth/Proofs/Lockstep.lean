import CellForth.Proofs.Tokens

/-!
# Two machines in step

Two machines that agree on all that words look at do the same, word by word, whatever else sets them
apart. `InStep R Out` compares two results: the same success or the same refusal, in states that are
related by `R`; or the second machine was refused alone and is out of the race. What is known at
that moment is `Out`, and it has to stay true while the first machine goes on.

`Tracks R Out op` says that an operation is taken in step, from related states on, and that it does
not spoil what is known about a machine that is out. This is a hereditary property, so it is enough
to check the elementary operations. `Lockstep` puts the pieces together, and goes on from single
actions to words. From there on, `WordLockstep` leads to threaded code and the outer interpreter
(`WordLockstep.interpret`).

Sometimes an action is taken in step only under a condition on the second machine.
`Machine.performed` lists the actions that an interpreter performs, each with the machine at which
it does, so that such a condition can be asked of a whole run.
-/

namespace CellForth

/-! ### Results in step -/

section InStep

variable {ε σ α β : Type} {R : σ → σ → Prop} {Out : σ → ε → σ → Prop}

/-- Both results are the same success, or the same refusal, in related states; or the second one was
refused alone and is out. -/
inductive InStep (R : σ → σ → Prop) (Out : σ → ε → σ → Prop) :
    EStateM.Result ε σ α → EStateM.Result ε σ α → Prop
  /-- Both have succeeded. -/
  | ok {a : α} {s t : σ} (h : R s t) : InStep R Out (.ok a s) (.ok a t)
  /-- Both were refused. -/
  | error {e : ε} {s t : σ} (h : R s t) : InStep R Out (.error e s) (.error e t)
  /-- The second was refused, wherever the first one is. -/
  | out {r : EStateM.Result ε σ α} {e : ε} {t : σ} (h : Out (endState r) e t) :
    InStep R Out r (.error e t)

/-- If the second machine is never out, results in step are related. -/
theorem InStep.related {r r' : EStateM.Result ε σ α} (h : InStep R Out r r')
    (hout : ∀ s e t, ¬ Out s e t) : Related R Eq r r' := by
  cases h with
  | ok h => exact .ok rfl h
  | error h => exact .error h
  | out h => exact absurd h (hout _ _ _)

theorem InStep.of_related {r r' : EStateM.Result ε σ α} (h : Related R Eq r r') :
    InStep R Out r r' := by
  cases r with
  | ok a s =>
    obtain ⟨_, t, rfl, rfl, hst⟩ := h.of_ok
    exact .ok hst
  | error e s =>
    obtain ⟨t, rfl, hst⟩ := h.of_error
    exact .error hst

/-- The operation is taken in step, and leaves alone what is known of a machine that is out. -/
structure Tracks (R : σ → σ → Prop) (Out : σ → ε → σ → Prop) (op : EStateM ε σ α) : Prop where
  /-- From related states the results are in step. -/
  inStep {s t : σ} : R s t → InStep R Out (op s) (op t)
  /-- What is known of a machine that is out stays true. -/
  keeps (e : ε) (t : σ) : Keeps (fun s => Out s e t) op

/-- A sequence is taken in step if its second part is wherever the second machine gets to. -/
theorem InStep.bind {x : EStateM ε σ α} {f : α → EStateM ε σ β} {s t : σ}
    (hx : InStep R Out (x s) (x t))
    (hf : ∀ a s' t', x t = .ok a t' → R s' t' → InStep R Out (f a s') (f a t'))
    (hkeeps : ∀ a e t', Keeps (fun s => Out s e t') (f a)) :
    InStep R Out ((x >>= f) s) ((x >>= f) t) := by
  cases hs : x s with
  | ok a s' =>
    cases ht : x t with
    | ok a' t' =>
      rw [hs, ht] at hx
      cases hx with
      | ok h =>
        rw [bind_of_ok hs, bind_of_ok ht]
        exact hf a s' t' ht h
    | error e t' =>
      rw [hs, ht] at hx
      cases hx with
      | out h =>
        rw [bind_of_ok hs, bind_of_error ht]
        -- The second machine has ended; the first goes on alone, and remains out.
        exact .out (hkeeps a e t' s' h)
  | error e s' =>
    cases ht : x t with
    | ok a' t' =>
      rw [hs, ht] at hx
      cases hx
    | error e' t' =>
      rw [hs, ht] at hx
      rw [bind_of_error hs, bind_of_error ht]
      cases hx with
      | error h => exact .error h
      | out h => exact .out h

theorem Tracks.bind {x : EStateM ε σ α} {f : α → EStateM ε σ β} (hx : Tracks R Out x)
    (hf : ∀ a, Tracks R Out (f a)) : Tracks R Out (x >>= f) where
  inStep hst := (hx.inStep hst).bind (fun a _ _ _ h => (hf a).inStep h) fun a => (hf a).keeps
  keeps e t := .bind (hx.keeps e t) fun a => (hf a).keeps e t

/-- If all operations are taken in step, what is known of a machine that is out is kept by all. -/
theorem Hereditary.keeps_out {R : Machine → Machine → Prop} {Out : Machine → Fault → Machine → Prop}
    (h : Hereditary fun op => Tracks R Out op) (e : Fault) (t : Machine) :
    Hereditary fun op => Keeps (fun s => Out s e t) op where
  look hf := (h.look hf).keeps e t
  bind := .bind
  onData hop := (h.onData hop).keeps e t
  onReturn hop := (h.onReturn hop).keeps e t
  put pos c := (h.put pos c).keeps e t
  compileCell c := (h.compileCell c).keeps e t
  compileString bs := (h.compileString bs).keeps e t
  createRecord name code flags := (h.createRecord name code flags).keeps e t
  allot n := (h.allot n).keeps e t
  setIp f := (h.setIp f).keeps e t
  setW xt := (h.setW xt).keeps e t
  setBase b hb := (h.setBase b hb).keeps e t
  setMode mode := (h.setMode mode).keeps e t
  beginDefinition := h.beginDefinition.keeps e t
  endDefinition := h.endDefinition.keeps e t
  parseName := h.parseName.keeps e t
  write bs := (h.write bs).keeps e t

/-- A property of the second machine may be carried along. -/
theorem Tracks.and {P : σ → Prop} {op : EStateM ε σ α} (h : Tracks R Out op) (hP : Keeps P op) :
    Tracks (fun s t => R s t ∧ P t) Out op where
  inStep := by
    rintro s t ⟨hst, ht⟩
    have hstep := h.inStep hst
    have hkept := hP t ht
    generalize op s = r, op t = r' at hstep hkept
    cases hstep with
    | ok h => exact .ok ⟨h, hkept⟩
    | error h => exact .error ⟨h, hkept⟩
    | out h => exact .out h
  keeps := h.keeps

end InStep

/-! ### The actions of a run -/

/-- The action that the word of a token performs, and the machine at which it does. -/
def Exec.performed (xt : Cell) (m : Machine) : List (Action × Machine) :=
  match finalAction xt m with
  | .ok action m => [(action, m)]
  | .error _ _ => []

namespace Machine

/-- The actions that threaded code performs, in order. -/
def performedInThread : (steps : Nat) → Machine → List (Action × Machine)
  | 0, _ => []
  | steps + 1, m =>
    if m.regs.ip = 0 then []
    else
      (match m.memory.get m.regs.ip.toNat with
        | .ok xt => Exec.performed xt { m with regs := { m.regs with ip := m.regs.ip + 1 } }
        | .error _ => []) ++
      match stepThread m with
      | .ok _ m => performedInThread steps m
      | .error _ _ => []

/-- The actions that a token performs, in order. -/
def performedByToken (steps : Nat) (token : List UInt8) (m : Machine) : List (Action × Machine) :=
  (match m.find token with
    | .ok (some r) =>
      if m.regs.isCompiling && !r.isImmediate then []
      else Exec.performed (UInt16.ofNat r.codeField) { m with token := [] }
    | _ => []) ++
  match Exec.enterToken token { m with token := [] } with
  | .ok .resume m => m.performedInThread steps
  | _ => []

/-- The actions that interpreting the input performs, in order. -/
def performed : (steps : Nat) → Machine → List (Action × Machine)
  | 0, _ => []
  | steps + 1, m =>
    match Exec.parseWord m with
    | .error _ _ => []
    | .ok _ m =>
      if m.token.isEmpty then []
      else
        m.performedByToken steps m.token ++
        match m.interpretToken steps m.token with
        | some (.ok _ m) => performed steps m
        | _ => []

theorem performedInThread_of_eq_zero {steps : Nat} {m : Machine} (hip : m.regs.ip = 0) :
    m.performedInThread steps = [] := by
  cases steps with
  | zero => rfl
  | succ steps => rw [performedInThread, if_pos hip]

theorem performed_of_nil {n : Nat} {m m' : Machine} (hparse : Exec.parseWord m = .ok () m')
    (htoken : m'.token = []) : m.performed n = [] := by
  cases n with
  | zero => rfl
  | succ n => simp only [performed, hparse, htoken, List.isEmpty_nil, if_true]

theorem performed_succ {n : Nat} {m m₁ m₂ : Machine} (hparse : Exec.parseWord m = .ok () m₁)
    (htoken : m₁.token ≠ []) (hrun : m₁.interpretToken n m₁.token = some (.ok () m₂)) :
    m.performed (n + 1) = m₁.performedByToken n m₁.token ++ m₂.performed n := by
  have hempty : m₁.token.isEmpty = false := by simpa using htoken
  simp only [performed, hparse, hempty, hrun, Bool.false_eq_true, if_false]

end Machine

/-! ### Machines in step -/

/-- Related machines take every action in step for which the condition holds. -/
structure Lockstep (R : Machine → Machine → Prop) (Out : Machine → Fault → Machine → Prop)
    (C : Action → Machine → Prop) : Prop where
  /-- The elementary operations are taken in step. -/
  hereditary : Hereditary fun op => Tracks R Out op
  /-- What is known of a machine that is out lasts. -/
  lasting (e : Fault) (t : Machine) : Lasting fun s => Out s e t
  /-- So is every action with the condition. -/
  step {action : Action} {s t : Machine} :
    R s t → C action t → InStep R Out (action.step s) (action.step t)
  /-- Related machines have the same registers. -/
  regs_eq {s t : Machine} : R s t → t.regs = s.regs
  /-- Related machines have read the same token. -/
  token_eq {s t : Machine} : R s t → t.token = s.token
  /-- Another token does not matter. -/
  retoken {s t : Machine} (token : List UInt8) :
    R s t → R { s with token := token } { t with token := token }
  /-- Nor does it once the second machine is out. -/
  out_retoken {s t : Machine} {e : Fault} (token : List UInt8) :
    Out s e t → Out s e { t with token := token }

/-- How runs in step end: neither does within its steps, or both do and their results are in step,
or the second one is out while the first goes on. -/
inductive Outcome.InStep {α : Type} (R : Machine → Machine → Prop)
    (Out : Machine → Fault → Machine → Prop) : Outcome α → Outcome α → Prop
  /-- Both go on. -/
  | unfinished : Outcome.InStep R Out none none
  /-- Both have ended. -/
  | finished {r r' : EStateM.Result Fault Machine α} (h : CellForth.InStep R Out r r') :
    Outcome.InStep R Out (some r) (some r')
  /-- The second is out, and the first goes on. -/
  | out {s t : Machine} {e : Fault} (h : Out s e t) : Outcome.InStep R Out none (some (.error e t))

/-- If the second machine is never out, the runs end together, with related results. -/
theorem Outcome.InStep.related {α : Type} {R : Machine → Machine → Prop}
    {Out : Machine → Fault → Machine → Prop} {o o' : Outcome α} (h : Outcome.InStep R Out o o')
    (hout : ∀ s e t, ¬ Out s e t) : Option.Rel (Related R Eq) o o' := by
  cases h with
  | unfinished => exact .none
  | finished h => exact .some (h.related hout)
  | out h => exact absurd h (hout _ _ _)

namespace Lockstep

variable {R : Machine → Machine → Prop} {Out : Machine → Fault → Machine → Prop}
  {C : Action → Machine → Prop} {s t : Machine} (h : Lockstep R Out C)
include h

theorem conclude {action : Action} (hst : R s t) (hC : C action t) :
    InStep R Out (Exec.conclude action s) (Exec.conclude action t) := by
  by_cases hresume : action = .resume
  · subst hresume
    exact .ok hst
  · rw [Exec.conclude.eq_2 _ hresume]
    exact (h.step hst hC).bind (fun _ _ _ _ h' => .ok h') fun _ _ _ => .pure _

/-- A word is run in step if its action is. -/
theorem execute {xt : Cell} (hst : R s t) (hC : ∀ p ∈ Exec.performed xt t, C p.1 p.2) :
    InStep R Out (Exec.execute xt s) (Exec.execute xt t) := by
  rw [Exec.execute_eq_finalAction]
  refine ((Exec.finalAction_steady h.hereditary.toSteady xt).inStep hst).bind
    (fun action s' t' hfinal hst' => ?_) fun action e t' => (h.lasting e t').conclude action
  refine h.conclude hst' (hC (action, t') ?_)
  rw [Exec.performed, hfinal]
  exact List.mem_singleton_self _

end Lockstep

/-- Related machines run every word in step for whose action the condition holds. -/
structure WordLockstep (R : Machine → Machine → Prop) (Out : Machine → Fault → Machine → Prop)
    (C : Action → Machine → Prop) : Prop where
  /-- The operations that have nothing to do with `w` are taken in step. -/
  common : Common fun op => Tracks R Out op
  /-- What is known of a machine that is out lasts. -/
  lasting (e : Fault) (t : Machine) : Lasting fun s => Out s e t
  /-- So is running a word. -/
  execute {xt : Cell} {s t : Machine} : R s t → (∀ p ∈ Exec.performed xt t, C p.1 p.2) →
    InStep R Out (Exec.execute xt s) (Exec.execute xt t)
  /-- Related machines are at the same place of threaded code. -/
  ip_eq {s t : Machine} : R s t → t.regs.ip = s.regs.ip
  /-- Related machines have read the same token. -/
  token_eq {s t : Machine} : R s t → t.token = s.token
  /-- Another token does not matter. -/
  retoken {s t : Machine} (token : List UInt8) :
    R s t → R { s with token := token } { t with token := token }
  /-- Nor does it once the second machine is out. -/
  out_retoken {s t : Machine} {e : Fault} (token : List UInt8) :
    Out s e t → Out s e { t with token := token }

namespace WordLockstep

variable {R : Machine → Machine → Prop} {Out : Machine → Fault → Machine → Prop}
  {C : Action → Machine → Prop} {s t : Machine} (h : WordLockstep R Out C)
include h

omit h in
/-- A machine that is out stays so, whether the run of the other one ends or not. -/
theorem outcome_of_out {o : Outcome Unit} {s : Machine} {e : Fault} (hout : Out s e t)
    (ho : ∀ r, o = some r → Out (endState r) e t) : Outcome.InStep R Out o (some (.error e t)) := by
  cases o with
  | none => exact .out hout
  | some r => exact .finished (.out (ho r rfl))

theorem stepThread (hst : R s t)
    (hC : ∀ xt, t.memory.get t.regs.ip.toNat = .ok xt →
      ∀ p ∈ Exec.performed xt { t with regs := { t.regs with ip := t.regs.ip + 1 } }, C p.1 p.2) :
    InStep R Out (Machine.stepThread s) (Machine.stepThread t) := by
  have hkeeps (e : Fault) (t : Machine) (ip : Cell) : Keeps (fun s => Out s e t) (do
      let xt ← Exec.fetch ip.toNat
      Exec.jump (ip + 1)
      let _ ← Exec.execute xt
      return ()) :=
    .bind (.observe _) fun _ => .bind ((h.lasting e t).hereditary.jump _) fun _ =>
      .bind ((h.lasting e t).execute _) fun _ => .pure _
  refine ((h.common.read _ fun _ _ => rfl).inStep hst).bind
    (fun ip s₁ t₁ hreg hst₁ => ?_) fun ip e t' => hkeeps e t' ip
  cases hreg
  refine ((h.common.fetch _).inStep hst₁).bind (fun xt s₂ t₂ hfetch hst₂ => ?_) fun xt e t' =>
    .bind ((h.lasting e t').hereditary.jump _) fun _ =>
      .bind ((h.lasting e t').execute _) fun _ => .pure _
  obtain ⟨hget, rfl⟩ := observe_eq_ok_iff.mp hfetch
  refine ((h.common.jump _).inStep hst₂).bind (fun _ s₃ t₃ hjump hst₃ => ?_) fun _ e t' =>
    .bind ((h.lasting e t').execute _) fun _ => .pure _
  cases hjump
  exact (h.execute hst₃ (hC xt hget)).bind (fun _ _ _ _ h' => .ok h') fun _ _ _ => .pure _

/-- Threaded code is run in step if all its actions are. -/
theorem runThread (steps : Nat) (hst : R s t) (hC : ∀ p ∈ t.performedInThread steps, C p.1 p.2) :
    Outcome.InStep R Out (s.runThread steps) (t.runThread steps) := by
  induction steps generalizing s t with
  | zero =>
    have hsame := h.ip_eq hst
    by_cases hip : s.regs.ip = 0
    · rw [Machine.runThread_of_eq_zero _ hip, Machine.runThread_of_eq_zero _ (hsame.trans hip)]
      exact .finished (.ok hst)
    · rw [Machine.runThread_zero hip, Machine.runThread_zero (hsame ▸ hip)]
      exact .unfinished
  | succ steps ih =>
    have hsame := h.ip_eq hst
    by_cases hip : s.regs.ip = 0
    · rw [Machine.runThread_of_eq_zero _ hip, Machine.runThread_of_eq_zero _ (hsame.trans hip)]
      exact .finished (.ok hst)
    · have hip' : t.regs.ip ≠ 0 := hsame ▸ hip
      rw [Machine.performedInThread, if_neg hip'] at hC
      have hstep := h.stepThread hst fun xt hget p hp =>
        hC p (List.mem_append_left _ (by rw [hget]; exact hp))
      rw [Machine.runThread_succ _ hip, Machine.runThread_succ _ hip']
      cases ht : Machine.stepThread t with
      | ok u t' =>
        rw [ht] at hstep hC
        generalize Machine.stepThread s = r at hstep
        cases hstep with
        | ok hst' => exact ih hst' fun p hp => hC p (List.mem_append_right _ hp)
      | error e t' =>
        rw [ht] at hstep
        cases hs : Machine.stepThread s with
        | ok u s' =>
          rw [hs] at hstep
          cases hstep with
          -- The rest of the code is run by one machine only, so the induction hypothesis says
          -- nothing of it.
          | out hout => exact outcome_of_out hout fun r hr => (h.lasting e t').runThread hout hr
        | error e' s' =>
          rw [hs] at hstep
          exact .finished hstep

theorem continueWith (steps : Nat) {c c' : EStateM.Result Fault Machine Continuation}
    (hc : InStep R Out c c')
    (hC : ∀ t', c' = .ok .resume t' → ∀ p ∈ t'.performedInThread steps, C p.1 p.2) :
    Outcome.InStep R Out (Machine.continueWith steps c) (Machine.continueWith steps c') := by
  cases hc with
  | @ok continuation s t hst =>
    cases continuation with
    | done => exact .finished (.ok hst)
    | resume => exact h.runThread steps hst (hC t rfl)
  | error hst => exact .finished (.error hst)
  | @out r e t hout => exact outcome_of_out hout fun r' hr' => (h.lasting e t).continueWith hout hr'

/-! ### Interpreting -/

theorem enterToken (token : List UInt8) (hst : R s t)
    (hC : ∀ r, t.find token = .ok (some r) → (t.regs.isCompiling && !r.isImmediate) = false →
      ∀ p ∈ Exec.performed (UInt16.ofNat r.codeField) t, C p.1 p.2) :
    InStep R Out (Exec.enterToken token s) (Exec.enterToken token t) := by
  refine ((h.common.glance (f := fun m => m.find token) (fun _ _ _ _ => rfl) fun _ _ => rfl).inStep
    hst).bind (fun found s₁ t₁ hfind hst₁ => ?_) fun found e t' => ?_
  · obtain ⟨hfind, rfl⟩ := observe_eq_ok_iff.mp hfind
    cases found with
    | some r =>
      refine ((h.common.read _ fun _ _ => rfl).inStep hst₁).bind
        (fun compiling s₂ t₂ hreg hst₂ => ?_) fun _ e t' => ?_
      · cases hreg
        split
        · exact (h.common.bind (h.common.compileReference r) fun _ =>
            h.common.pure _).inStep hst₂
        · rename_i hrun
          exact (h.execute hst₂ (hC r hfind (by simpa using hrun))).bind
            (fun _ _ _ _ h' => .ok h') fun _ _ _ => .pure _
      · exact .ite (.bind ((h.lasting e t').hereditary.compileReference r) fun _ => .pure _)
          (.bind ((h.lasting e t').execute _) fun _ => .pure _)
    | none =>
      refine (h.common.bind (h.common.read _ fun _ _ => rfl) fun base => ?_).inStep hst₁
      split
      · exact h.common.bind (h.common.enterNumber _) fun _ => h.common.pure _
      · exact h.common.throw _
  · -- Whatever a machine that is out does with the token, it stays out.
    cases found with
    | some r =>
      exact .bind (.reg _) fun _ =>
        .ite (.bind ((h.lasting e t').hereditary.compileReference r) fun _ => .pure _)
          (.bind ((h.lasting e t').execute _) fun _ => .pure _)
    | none =>
      refine .bind (.reg _) fun base => ?_
      split
      · exact .bind ((h.lasting e t').hereditary.enterNumber _) fun _ => .pure _
      · exact .throw _

theorem restoreToken (token : List UInt8) (hst : R s t) :
    R (s.restoreToken token) (t.restoreToken token) := by
  unfold Machine.restoreToken
  rw [h.token_eq hst]
  split
  · exact h.retoken token hst
  · exact hst

theorem out_restoreToken {e : Fault} (token : List UInt8) (hout : Out s e t) :
    Out s e (t.restoreToken token) := by
  unfold Machine.restoreToken
  split
  · exact h.out_retoken token hout
  · exact hout

/-- A token is interpreted in step if all its actions are. -/
theorem interpretToken (steps : Nat) (token : List UInt8) (hst : R s t)
    (hC : ∀ p ∈ t.performedByToken steps token, C p.1 p.2) :
    Outcome.InStep R Out (s.interpretToken steps token) (t.interpretToken steps token) := by
  have henter := h.enterToken token (h.retoken [] hst) fun r hfind hrun p hp =>
    hC p (List.mem_append_left _ (by
      have hfind' : t.find token = .ok (some r) := hfind
      have hrun' : (t.regs.isCompiling && !r.isImmediate) = false := hrun
      simpa only [hfind', hrun', Bool.false_eq_true, if_false] using hp))
  have hrun := h.continueWith steps henter fun t' ht' p hp =>
    hC p (List.mem_append_right _ (by rw [ht']; exact hp))
  unfold Machine.interpretToken
  generalize Machine.continueWith steps (Exec.enterToken token { s with token := [] }) = o,
    Machine.continueWith steps (Exec.enterToken token { t with token := [] }) = o' at hrun
  cases hrun with
  | unfinished => exact .unfinished
  | @finished r r' hr =>
    cases hr with
    | ok hst' => exact .finished (.ok (h.restoreToken token hst'))
    | error hst' => exact .finished (.error (h.restoreToken token hst'))
    | @out _ e t' hout =>
      have hout' := h.out_restoreToken token hout
      cases r with
      | ok u s' => exact .finished (.out ((h.lasting e _).restoreToken token hout'))
      | error e' s' => exact .finished (.out ((h.lasting e _).restoreToken token hout'))
  | out hout => exact .out (h.out_restoreToken token hout)

/-- If there is no token to be read, be it for a fault or at the end, both runs end at once. -/
theorem interpret_of_no_token (steps : Nat)
    (hread : Related R Eq (Exec.parseWord s) (Exec.parseWord t))
    (hnone : ∀ s₁, Exec.parseWord s = .ok () s₁ → s₁.token = []) :
    Outcome.InStep R Out (s.interpret steps) (t.interpret steps) := by
  cases hs : Exec.parseWord s with
  | error e s₁ =>
    rw [hs] at hread
    obtain ⟨t₁, ht, hst₁⟩ := hread.of_error
    rw [Machine.interpret_of_error _ hs, Machine.interpret_of_error _ ht]
    exact .finished (.error hst₁)
  | ok u s₁ =>
    rw [hs] at hread
    obtain ⟨_, t₁, ht, rfl, hst₁⟩ := hread.of_ok
    have hnil := hnone s₁ hs
    rw [Machine.interpret_of_nil _ hs hnil,
      Machine.interpret_of_nil _ ht ((h.token_eq hst₁).trans hnil)]
    exact .finished (.ok hst₁)

/-- The input is interpreted in step if its tokens are read so and all actions are taken so. -/
theorem interpret (steps : Nat)
    (hparse : ∀ s t, R s t → Related R Eq (Exec.parseWord s) (Exec.parseWord t)) (hst : R s t)
    (hC : ∀ p ∈ t.performed steps, C p.1 p.2) :
    Outcome.InStep R Out (s.interpret steps) (t.interpret steps) := by
  induction steps generalizing s t with
  | zero =>
    by_cases hnone : ∀ s₁, Exec.parseWord s = .ok () s₁ → s₁.token = []
    · exact h.interpret_of_no_token 0 (hparse s t hst) hnone
    · simp only [not_forall] at hnone
      obtain ⟨s₁, hs, hnil⟩ := hnone
      obtain ⟨_, t₁, ht, rfl, hst₁⟩ := Related.of_ok (hs ▸ hparse s t hst)
      rw [Machine.interpret_zero hs hnil, Machine.interpret_zero ht (h.token_eq hst₁ ▸ hnil)]
      exact .unfinished
  | succ steps ih =>
    by_cases hnone : ∀ s₁, Exec.parseWord s = .ok () s₁ → s₁.token = []
    · exact h.interpret_of_no_token _ (hparse s t hst) hnone
    · simp only [not_forall] at hnone
      obtain ⟨s₁, hs, hnil⟩ := hnone
      obtain ⟨_, t₁, ht, rfl, hst₁⟩ := Related.of_ok (hs ▸ hparse s t hst)
      have htoken := h.token_eq hst₁
      have hnil' : t₁.token ≠ [] := htoken ▸ hnil
      have hempty : t₁.token.isEmpty = false := by simpa using hnil'
      simp only [Machine.performed, ht, hempty, Bool.false_eq_true, if_false] at hC
      have hrun := h.interpretToken steps t₁.token hst₁ fun p hp =>
        hC p (List.mem_append_left _ hp)
      rw [Machine.interpret_succ _ hs hnil, Machine.interpret_succ _ ht hnil', ← htoken]
      generalize s₁.interpretToken steps t₁.token = o, t₁.interpretToken steps t₁.token = o'
        at hrun hC
      cases hrun with
      | unfinished => exact .unfinished
      | out hout => exact .out hout
      | @finished r _ hr =>
        cases hr with
        | ok hst₂ => exact ih hst₂ fun p hp => hC p (List.mem_append_right _ hp)
        | error hst₂ => exact .finished (.error hst₂)
        | @out _ e t₂ hout =>
          cases r with
          | ok u s₂ => exact outcome_of_out hout fun r hr => (h.lasting e t₂).interpret hout hr
          | error e' s₂ => exact .finished (.out hout)

end WordLockstep

namespace Lockstep

variable {R : Machine → Machine → Prop} {Out : Machine → Fault → Machine → Prop}
  {C : Action → Machine → Prop} {s t : Machine} (h : Lockstep R Out C)
include h

theorem words : WordLockstep R Out C where
  common := h.hereditary.toCommon
  lasting := h.lasting
  execute := h.execute
  ip_eq hst := congrArg (·.ip) (h.regs_eq hst)
  token_eq := h.token_eq
  retoken := h.retoken
  out_retoken := h.out_retoken

/-- An action that a host asks for is run in step, if all actions are. -/
theorem runAction (steps : Nat) (action : Action) (hC : ∀ action t, C action t) (hst : R s t) :
    Outcome.InStep R Out (s.runAction steps action) (t.runAction steps action) := by
  have hact : Exec.act action = (do
      let rounds ← observe fun m => .ok m.dataStack.size
      Exec.finalWithin rounds action) >>= Exec.conclude := by
    simp only [Exec.act, bind_assoc, Exec.actWithin_eq]
  refine h.words.continueWith steps ?_ fun _ _ p _ => hC p.1 p.2
  rw [hact]
  exact ((h.hereditary.bind (h.hereditary.look fun _ _ _ _ => rfl) fun _ =>
    Exec.finalWithin_steady h.hereditary.toSteady _ _).inStep hst).bind
      (fun action _ t' _ hst' => h.conclude hst' (hC action t'))
      fun action e t' => (h.lasting e t').conclude action

/-- So is a word. -/
theorem runToken (steps : Nat) (xt : Cell) (hC : ∀ action t, C action t) (hst : R s t) :
    Outcome.InStep R Out (s.runToken steps xt) (t.runToken steps xt) :=
  h.words.continueWith steps (h.execute hst fun p _ => hC p.1 p.2) fun _ _ p _ => hC p.1 p.2

/-- A token is interpreted in step if all its actions are. -/
theorem interpretToken (steps : Nat) (token : List UInt8) (hst : R s t)
    (hC : ∀ p ∈ t.performedByToken steps token, C p.1 p.2) :
    Outcome.InStep R Out (s.interpretToken steps token) (t.interpretToken steps token) :=
  h.words.interpretToken steps token hst hC

/-- The input is interpreted in step if its tokens are read so and all actions are taken so. -/
theorem interpret (steps : Nat)
    (hparse : ∀ s t, R s t → Related R Eq (Exec.parseWord s) (Exec.parseWord t)) (hst : R s t)
    (hC : ∀ p ∈ t.performed steps, C p.1 p.2) :
    Outcome.InStep R Out (s.interpret steps) (t.interpret steps) :=
  h.words.interpret steps hparse hst hC

end Lockstep

end CellForth
