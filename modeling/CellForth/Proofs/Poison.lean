import CellForth.Proofs.Boot
import CellForth.Proofs.Requests

/-!
# Poisoning

The first call of a host that interprets input and faults poisons the machine. The machine keeps
this in two places, the register `fault` and the field `lastFault`, and refuses to run or to dump
only if both are set; `Machine.HasPoison f` says that the two agree, on the fault `f` or on there
being none.

No elementary operation touches either place (`Elementary.hasPoison`). So a request changes them
only if it interprets and faults, and a machine that is poisoned already does not even begin to
interpret; what a machine is poisoned with is therefore the first such fault of its transcript
(`Transcript.hasPoison`). Requests that do not interpret are still carried out by a poisoned
machine, and may change everything else.
-/

namespace CellForth

namespace Machine

/-- The two places that hold the machine's fault agree on it. -/
def HasPoison (f : Option Fault) (m : Machine) : Prop :=
  m.regs.fault = f.isSome ∧ m.lastFault = f

theorem HasPoison.poison?_eq {f : Option Fault} {m : Machine} (h : m.HasPoison f) :
    m.poison? = f := by
  unfold poison?
  rw [h.1, h.2]
  cases f <;> rfl

end Machine

/-- No elementary operation poisons the machine or cures it. -/
theorem Elementary.hasPoison (f : Option Fault) : Elementary (Machine.HasPoison f) := by
  refine .of_alike (fun m m' halike hm => ?_) (Exec.keeps_addRuntime fun _ _ _ => id)
  exact ⟨halike.fault.trans hm.1, halike.lastFault.trans hm.2⟩

/-- Nor does one change the fault for which the machine refuses to run. -/
theorem Elementary.poison?_eq (f : Option Fault) : Elementary fun m => m.poison? = f := by
  refine .of_alike (fun m m' halike hm => ?_) (Exec.keeps_addRuntime fun _ _ _ => id)
  rw [← hm, Machine.poison?, Machine.poison?, halike.fault, halike.lastFault]

/-! ### Faults of a transcript -/

/-- The fault that an entry of a transcript reports, if it is that of a request to interpret. -/
def Request.faultOf : Request × Reply → Option Fault
  | (request, .error (.host (.fault f))) => if request.interprets then some f else none
  | _ => none

/-- The first fault of a request to interpret. -/
def Transcript.firstFault (es : List (Request × Reply)) : Option Fault :=
  es.findSome? Request.faultOf

/-- A request poisons a machine that is not poisoned with the fault that it reports, if any. -/
theorem Request.hasPoison_of_perform {steps : Nat} {request : Request} {m : Machine}
    {f : Option Fault} {r : EStateM.Result Refusal Machine Answer} (hm : m.HasPoison f)
    (hr : request.perform steps m = some r) :
    (endState r).HasPoison (f.or (faultOf (request, reply r))) := by
  cases hrequest : request.interprets with
  | false =>
    have hnone : faultOf (request, reply r) = none := by
      unfold faultOf
      split
      · simp_all
      · rfl
    rw [hnone, Option.or_none]
    exact (Elementary.hasPoison f).perform hrequest hm hr
  | true =>
    obtain ⟨e, hpoison, rfl⟩ | ⟨hpoison, ⟨m', hm', rfl⟩ | ⟨e, m', hm', rfl⟩⟩ :=
      (Elementary.hasPoison f).perform_interprets hrequest hm hr
    · rw [show faultOf (request, reply (.error (.host (.poisoned e)) m)) = none from rfl,
        Option.or_none]
      exact hm
    · rw [show faultOf (request, reply (.ok .done m')) = none from rfl, Option.or_none]
      exact hm'
    · -- The machine has just been poisoned, so it was not poisoned before.
      rw [hm.poison?_eq] at hpoison
      subst hpoison
      have hsome :
          faultOf (request, reply (.error (.host (.fault e)) (m'.poisonWith e))) = some e := by
        simp [faultOf, reply, hrequest]
      rw [hsome]
      exact ⟨rfl, rfl⟩

/-- A machine is poisoned with what it was poisoned with before, or else with the first fault of a
request to interpret. -/
theorem Transcript.hasPoison {m m' : Machine} {es : List (Request × Reply)} {f : Option Fault}
    (ht : Transcript m es m') (hm : m.HasPoison f) : m'.HasPoison (f.or (firstFault es)) := by
  induction ht generalizing f with
  | nil => simpa [firstFault] using hm
  | @cons m m' steps request r es hperform _ ih =>
    have hnext := ih (Request.hasPoison_of_perform hm hperform)
    rw [Option.or_assoc] at hnext
    convert hnext using 2
    unfold firstFault
    rw [List.findSome?_cons]
    cases Request.faultOf (request, Request.reply r) <;> rfl

/-- A new machine is not poisoned. -/
theorem Machine.create_hasPoison {config : Config} {input : Source} {output : Sink}
    {verbosity : Verbosity} {m : Machine} (h : create config input output verbosity = .ok m) :
    m.HasPoison none := by
  unfold create at h
  split at h
  · cases h
  · rename_i layout hlayout
    have hkept := (Elementary.hasPoison none).plain.addVocabulary
      (bare config.coreSize layout input output verbosity) ⟨rfl, rfl⟩
    split at h
    · cases h
    · rename_i m₀ hadd
      rw [hadd] at hkept
      cases h
      exact hkept

/-! ### A poisoned machine -/

namespace Machine

variable {m : Machine} {f : Fault} (h : m.HasPoison (some f))
include h

theorem HasPoison.run_eq (steps : Nat) : m.run steps = some (.error (.poisoned f) m) := by
  unfold run
  rw [h.poison?_eq]

theorem HasPoison.evaluate_eq (steps : Nat) (text : String) :
    m.evaluate steps text = some (.error (.poisoned f) m) := by
  unfold evaluate
  rw [h.poison?_eq]

theorem HasPoison.dump_eq (sink : Sink) : m.dump sink = (.error (.poisoned f) m, sink) := by
  unfold dump
  rw [h.poison?_eq]

end Machine

/-- **Poisoning is permanent and inert.** At every point of the life of a machine its two records
of a fault agree, and hold the first fault of a request to interpret. A request that does not
report such a fault leaves both alone. Once there is a fault, it stays for ever, and the machine
refuses to evaluate, to run and to dump, with that fault and without any change to itself or to
the sink. -/
theorem Transcript.poisoned_by_first_fault {config : Config} {input : Source} {output : Sink}
    {verbosity : Verbosity} {m m' : Machine} {es : List (Request × Reply)}
    (hcreate : Machine.create config input output verbosity = .ok m) (ht : Transcript m es m') :
    (m'.regs.fault = true ↔ m'.lastFault.isSome = true) ∧
      m'.lastFault = firstFault es ∧
      (∀ steps request r, request.perform steps m' = some r →
        Request.faultOf (request, Request.reply r) = none →
        (endState r).regs.fault = m'.regs.fault ∧ (endState r).lastFault = m'.lastFault) ∧
      ∀ f, m'.lastFault = some f →
        (∀ fs m'', Transcript m' fs m'' → m''.regs.fault = true ∧ m''.lastFault = some f) ∧
        (∀ steps text, m'.evaluate steps text = some (.error (.poisoned f) m')) ∧
        (∀ steps, m'.run steps = some (.error (.poisoned f) m')) ∧
        ∀ sink, m'.dump sink = (.error (.poisoned f) m', sink) := by
  have hm' := ht.hasPoison (Machine.create_hasPoison hcreate)
  rw [Option.none_or] at hm'
  refine ⟨by rw [hm'.1, hm'.2], hm'.2, fun steps request r hr hnone => ?_, fun f hf => ?_⟩
  · have hnext := Request.hasPoison_of_perform hm' hr
    rw [hnone, Option.or_none] at hnext
    exact ⟨hnext.1.trans hm'.1.symm, hnext.2.trans hm'.2.symm⟩
  · rw [hm'.2] at hf
    rw [hf] at hm'
    refine ⟨fun fs m'' hfs => ?_, hm'.evaluate_eq, hm'.run_eq, hm'.dump_eq⟩
    exact hfs.hasPoison hm'

/-- A new machine of the usual size whose input fails is poisoned by its first run. -/
theorem poisoned_by_input_failure :
    ∃ m m', Machine.create {} ⟨[.failure]⟩ {} .off = .ok m ∧
      Transcript m [(.run, .error (.host (.fault .inputFailure)))] m' ∧
      (m'.regs.fault = true ↔ m'.lastFault.isSome = true) ∧ m'.lastFault = some .inputFailure ∧
      ∀ sink, m'.dump sink = (.error (.poisoned .inputFailure) m', sink) := by
  have hlayout : Config.layout {} = .ok ⟨32576, 32640, 32768⟩ := rfl
  obtain ⟨m, hcreate, hnew⟩ :=
    Machine.create_of_room hlayout (by decide +kernel) ⟨[.failure]⟩ {} .off
  have hclean := Machine.create_hasPoison hcreate
  have hparse : Exec.parseWord m =
      .error .inputFailure { m with token := [], input := ⟨[]⟩ } := by
    unfold Exec.parseWord
    rw [hnew.input]
    rfl
  have hrun : ∃ m' : Machine, Request.run.perform 0 m =
      some (.error (.host (.fault .inputFailure)) (m'.poisonWith .inputFailure)) := by
    simp only [Request.perform, Machine.run, hclean.poison?_eq,
      Machine.interpret_of_error 0 hparse, Option.map_some, Machine.finishRun]
    split <;> exact ⟨_, rfl⟩
  obtain ⟨m', hrun⟩ := hrun
  have ht : Transcript m [(.run, .error (.host (.fault .inputFailure)))]
      (m'.poisonWith .inputFailure) := .cons hrun (.nil _)
  obtain ⟨hagree, hfirst, -, hfault⟩ := ht.poisoned_by_first_fault hcreate
  exact ⟨m, _, hcreate, ht, hagree, hfirst, (hfault _ hfirst).2.2.2⟩

end CellForth
