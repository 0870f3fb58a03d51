import CellForth.Proofs.Actions

/-!
# Transcripts of a host's requests

A host makes requests of a machine one after the other, each of them is answered or refused, and
either way the machine goes on from the state that the request has left. `Transcript m es m'`
says that the machine `m` has come to `m'` in this way, with the row `es` of all requests and of
the replies to them. Every request may use as many steps as it needs; a request that never ends
is in no transcript, and neither is anything behind it.

A request that runs no words is made of a few operations, and what these keep it keeps too
(`Plain.perform`). A property that is kept by the elementary operations is kept by every request but
the two that interpret (`Elementary.perform`), for these two poison the machine when they fault. If
poisoning keeps the property as well, it holds along all transcripts (`Elementary.transcript`).
-/

namespace CellForth

/-- What a host is told. -/
abbrev Reply := Except Refusal Answer

/-- What a result tells the host. -/
def Request.reply : EStateM.Result Refusal Machine Answer → Reply
  | .ok answer _ => .ok answer
  | .error refusal _ => .error refusal

/-- Does the request interpret input? -/
def Request.interprets : Request → Bool
  | evaluate _ | run => true
  | _ => false

/-- Does the request run words? -/
def Request.runsWords : Request → Bool
  | evaluate _ | run | act _ | executeToken _ => true
  | _ => false

/-- The machine goes from the first to the second with these requests and replies. -/
inductive Transcript : Machine → List (Request × Reply) → Machine → Prop
  /-- Nothing is asked. -/
  | nil (m : Machine) : Transcript m [] m
  /-- A request is answered or refused, and the others follow. -/
  | cons {m m' : Machine} {steps : Nat} {request : Request}
    {r : EStateM.Result Refusal Machine Answer} {es : List (Request × Reply)}
    (hperform : request.perform steps m = some r) (hrest : Transcript (endState r) es m') :
    Transcript m ((request, Request.reply r) :: es) m'

/-- Transcripts can be joined. -/
theorem Transcript.append {m m' m'' : Machine} {es fs : List (Request × Reply)}
    (h : Transcript m es m') (h' : Transcript m' fs m'') : Transcript m (es ++ fs) m'' := by
  induction h with
  | nil => exact h'
  | cons hperform _ ih => exact .cons hperform (ih h')

/-! ### What requests keep -/

namespace Request

variable {α : Type} {m : Machine}
  {r : EStateM.Result Refusal Machine Answer}

/-- An operation that ends gives a result. -/
theorem exists_ofExec (answer : α → Answer) (op : Exec α) (m : Machine) :
    ∃ r, ofExec answer op m = some r := by
  unfold ofExec
  split
  · exact ⟨_, rfl⟩
  · exact ⟨_, rfl⟩

theorem endState_ofExec {answer : α → Answer} {op : Exec α} (hr : ofExec answer op m = some r) :
    endState r = endState (op m) := by
  unfold ofExec at hr
  cases hop : op m with
  | ok a m' =>
    rw [hop] at hr
    cases hr
    rfl
  | error f m' =>
    rw [hop] at hr
    cases hr
    rfl

theorem endState_ofLook {answer : α → Answer} {look : Machine → Except Fault α}
    (hr : ofLook answer look m = some r) : endState r = m := by
  rw [endState_ofExec hr, endState_observe]

theorem exists_of_ofOutcome {o : Outcome Unit} (hr : ofOutcome o = some r) :
    ∃ r', o = some r' ∧ endState r = endState r' := by
  unfold ofOutcome at hr
  split at hr
  · cases hr
  · cases hr
    exact ⟨_, rfl, rfl⟩
  · cases hr
    exact ⟨_, rfl, rfl⟩

end Request

namespace Machine

/-- Whether it succeeds or not, a dump adds to the journal at most. -/
theorem dump_eq (sink : Sink) (m : Machine) :
    endState (m.dump sink).1 = m ∨ ∃ notice, endState (m.dump sink).1 = m.report notice := by
  unfold dump
  split
  · exact .inl rfl
  · split
    · exact .inl rfl
    · split
      · exact .inl rfl
      · exact .inr ⟨_, rfl⟩

end Machine

/-- A request that runs no words keeps the property. -/
theorem Plain.perform {P : Machine → Prop} (h : Plain P) {steps : Nat} {request : Request}
    {m : Machine} {r : EStateM.Result Refusal Machine Answer} (hrequest : request.runsWords = false)
    (hm : P m) (hr : request.perform steps m = some r) : P (endState r) := by
  -- All but a few requests are one operation, or one look at the machine, with its answer wrapped
  -- up.
  have hexec {α : Type} {answer : α → Answer} {op : Exec α} (hop : Keeps P op)
      (hr : Request.ofExec answer op m = some r) : P (endState r) :=
    Request.endState_ofExec hr ▸ hop m hm
  have hlook {α : Type} {answer : α → Answer} {look : Machine → Except Fault α}
      (hr : Request.ofLook answer look m = some r) : P (endState r) :=
    Request.endState_ofLook hr ▸ hm
  cases request with
  | evaluate text => cases hrequest
  | run => cases hrequest
  | setText text => cases hr; exact h.setText text hm
  | setStream deliveries => cases hr; exact h.input _ _ (h.report m _ hm)
  | setOutput sink => cases hr; exact h.output _ _ (h.report m _ hm)
  | dump sink =>
    have hkept : P (endState (m.dump sink).1) := by
      obtain hsame | ⟨notice, hnoted⟩ := Machine.dump_eq sink m
      · rwa [hsame]
      · rw [hnoted]
        exact h.report m notice hm
    simp only [Request.perform, Request.ofDump] at hr
    split at hr
    · rename_i hok
      cases hr
      rw [hok] at hkept
      exact hkept
    · rename_i herror
      cases hr
      rw [herror] at hkept
      exact hkept
  | imageLength => cases hr; exact hm
  | isPoisoned => cases hr; exact hm
  | here => cases hr; exact hm
  | unused => cases hr; exact hm
  | act action => cases hrequest
  | executeToken xt => cases hrequest
  | find name => exact hlook hr
  | recordAt address => exact hlook hr
  | recordName record => exact hlook hr
  | records => exact hlook hr
  | compileCell c => exact hexec (h.steady.compileCell c) hr
  | compileInteger c => exact hexec (h.steady.compileInteger c) hr
  | compileString bs => exact hexec (h.steady.compileString bs) hr
  | compileReference record => exact hexec (h.steady.compileReference record) hr
  | allot n => exact hexec (h.steady.allot _) hr
  | createRecord name code flags => exact hexec (h.steady.createRecord name code flags) hr
  | reveal address => exact hexec (h.steady.reveal address) hr
  | parseWord => exact hexec h.parseWord hr
  | parse delimiter => exact hexec (h.parse delimiter) hr
  | parseName => exact hexec h.steady.parseName hr
  | write bs => exact hexec (h.steady.write bs) hr
  | addPrimitive name action => exact hexec (h.addPrimitive name action) hr
  | addImmediate name action => exact hexec (h.addImmediate name action) hr
  | dataStack request => exact hexec (h.steady.onData (.perform request)) hr
  | returnStack request => exact hexec (h.steady.onReturn (.perform request)) hr
  | cell pos => exact hlook hr
  | cells pos count => exact hlook hr

namespace Elementary

variable {P : Machine → Prop} (h : Elementary P)
include h

/-- A request that does not interpret keeps the property. -/
theorem perform {steps : Nat} {request : Request} {m : Machine}
    {r : EStateM.Result Refusal Machine Answer} (hrequest : request.interprets = false)
    (hm : P m) (hr : request.perform steps m = some r) : P (endState r) := by
  cases hwords : request.runsWords with
  | false => exact h.plain.perform hwords hm hr
  | true =>
    cases request with
    | act action =>
      obtain ⟨r', hrun, hend⟩ := Request.exists_of_ofOutcome hr
      exact hend ▸ h.lasting.runAction hm hrun
    | executeToken xt =>
      obtain ⟨r', hrun, hend⟩ := Request.exists_of_ofOutcome hr
      exact hend ▸ h.lasting.runToken hm hrun
    | evaluate text => cases hrequest
    | run => cases hrequest
    | _ => cases hwords

/-- A finished run has succeeded, or it poisons the machine with its fault or with that of the
final flush. -/
theorem finishRun {o : EStateM.Result Fault Machine Unit} (ho : P (endState o)) :
    (∃ m, P m ∧ Machine.finishRun o = .ok () m) ∨
      ∃ f m, P m ∧ Machine.finishRun o = .error (.fault f) (m.poisonWith f) := by
  have hflush := h.flush (endState o) ho
  cases o with
  | ok _ m =>
    simp only [Machine.finishRun, endState_ok] at hflush ⊢
    cases hf : Exec.flush m with
    | ok _ m' => exact .inl ⟨m', by rwa [hf] at hflush, rfl⟩
    | error f m' => exact .inr ⟨f, m', by rwa [hf] at hflush, rfl⟩
  | error f m =>
    simp only [Machine.finishRun, endState_error] at hflush ⊢
    cases hf : Exec.flush m with
    | ok _ m' => exact .inr ⟨f, m', by rwa [hf] at hflush, rfl⟩
    | error _ m' => exact .inr ⟨f, m', by rwa [hf] at hflush, rfl⟩

theorem run {steps : Nat} {m : Machine} {r : HostResult Unit} (hm : P m)
    (hpoison : m.poison? = none) (hr : m.run steps = some r) :
    (∃ m', P m' ∧ r = .ok () m') ∨ ∃ f m', P m' ∧ r = .error (.fault f) (m'.poisonWith f) := by
  simp only [Machine.run, hpoison] at hr
  obtain ⟨o, ho, rfl⟩ := Option.map_eq_some_iff.mp hr
  exact h.finishRun (h.lasting.interpret hm ho)

/-- What a request that interprets can do: a poisoned machine refuses and stays as it is, any other
ends the run with the property, and poisons itself on top of that if the run has faulted. -/
theorem perform_interprets {steps : Nat} {request : Request} {m : Machine}
    {r : EStateM.Result Refusal Machine Answer} (hrequest : request.interprets = true)
    (hm : P m) (hr : request.perform steps m = some r) :
    (∃ f, m.poison? = some f ∧ r = .error (.host (.poisoned f)) m) ∨
      m.poison? = none ∧ ((∃ m', P m' ∧ r = .ok .done m') ∨
        ∃ f m', P m' ∧ r = .error (.host (.fault f)) (m'.poisonWith f)) := by
  -- Both requests come to a run, `evaluate` to that of a machine with another input.
  have hran {m₀ : Machine} (hm₀ : P m₀) (hpoison : m₀.poison? = none)
      (hr : Request.ofHost (m₀.run steps) = some r) :
      (∃ m', P m' ∧ r = .ok .done m') ∨
        ∃ f m', P m' ∧ r = .error (.host (.fault f)) (m'.poisonWith f) := by
    cases hrun : m₀.run steps with
    | none =>
      rw [hrun] at hr
      cases hr
    | some r' =>
      rw [hrun] at hr
      obtain ⟨m', hm', rfl⟩ | ⟨f, m', hm', rfl⟩ := h.run hm₀ hpoison hrun
      · cases hr
        exact .inl ⟨m', hm', rfl⟩
      · cases hr
        exact .inr ⟨f, m', hm', rfl⟩
  cases hpoison : m.poison? with
  | some f =>
    refine .inl ⟨f, rfl, ?_⟩
    cases request with
    | evaluate text =>
      simp only [Request.perform, Machine.evaluate, hpoison] at hr
      cases hr
      rfl
    | run =>
      simp only [Request.perform, Machine.run, hpoison] at hr
      cases hr
      rfl
    | _ => cases hrequest
  | none =>
    refine .inr ⟨rfl, ?_⟩
    cases request with
    | evaluate text =>
      simp only [Request.perform, Machine.evaluate, hpoison] at hr
      exact hran (h.plain.setText text hm) hpoison hr
    | run => exact hran hm hpoison hr
    | _ => cases hrequest

/-- Where poisoning keeps the property too, it holds along every transcript. -/
theorem transcript (hpoison : ∀ m f, P m → P (Machine.poisonWith f m)) {m m' : Machine}
    {es : List (Request × Reply)} (ht : Transcript m es m') (hm : P m) : P m' := by
  induction ht with
  | nil => exact hm
  | @cons m m' steps request r es hperform _ ih =>
    refine ih ?_
    cases hrequest : request.interprets with
    | false => exact h.perform hrequest hm hperform
    | true =>
      obtain ⟨f, -, rfl⟩ | ⟨-, ⟨m₁, hm₁, rfl⟩ | ⟨f, m₁, hm₁, rfl⟩⟩ :=
        h.perform_interprets hrequest hm hperform
      · exact hm
      · exact hm₁
      · exact hpoison m₁ f hm₁

end Elementary

end CellForth
