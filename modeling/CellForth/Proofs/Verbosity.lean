import CellForth.Proofs.History
import CellForth.Proofs.Journals

/-!
# What the journal's verbosity changes

A host may choose how much a machine reports, and nothing else should come of it. This is so as long
as the two stacks have 126 cells or more between them, whatever requests are made. On smaller
machines a definition whose header was overwritten can end in a fault for the louder machine alone,
and this is the only way in which machines of different verbosity can part
(`Machine.transcript_of_verbosity`).
-/

namespace CellForth

open Machine (Abreast Journaled Enclosed Tripped)

variable {α : Type} {v₀ v₁ : Verbosity} {g : Regions} {s t : Machine}

/-! ### Registering words in step -/

theorem Tracks.forM {ε σ : Type} {R : σ → σ → Prop} {Out : σ → ε → σ → Prop}
    {f : α → EStateM ε σ PUnit} {l : List α} (hf : ∀ a ∈ l, Tracks R Out (f a))
    (hpure : Tracks R Out (Pure.pure PUnit.unit)) : Tracks R Out (l.forM f) := by
  induction l with
  | nil => exact hpure
  | cons a l ih =>
    exact .bind (hf a List.mem_cons_self) fun _ => ih fun b hb => hf b (List.mem_cons_of_mem _ hb)

namespace Exec

section Words

variable {I : Source → Source → Prop} {O : Sink → Sink → Prop} {V : Verbosity → Verbosity → Prop}
  {E : Source → Sink → Fault → Machine → Prop}

theorem tracks_addPrimitive (name : String) (action : Action) :
    Tracks (Abreast I O V) (fun s => E s.input s.output) (addPrimitive name action) :=
  .bind (tracks_addRuntime name action) fun _ => .bind (tracks_createRecord _ _ _) fun _ =>
    (Inward.pure _).tracks

theorem tracks_addImmediate (name : String) (action : Action) :
    Tracks (Abreast I O V) (fun s => E s.input s.output) (addImmediate name action) := by
  have hmark : Inward setImmediate := .bind (.reg _) fun _ => .bind (.look fun _ _ _ _ => rfl)
    fun _ => .bind (.look fun _ _ _ _ => rfl) fun _ => .onMemory _
  exact .bind (tracks_addPrimitive name action) fun _ => .bind hmark.tracks fun _ =>
    (Inward.pure _).tracks

theorem tracks_addVocabulary :
    Tracks (Abreast I O V) (fun s => E s.input s.output) addVocabulary := by
  refine .bind (.forM (fun _ _ => .bind (tracks_addRuntime _ _) fun _ => (Inward.pure _).tracks)
    (Inward.pure _).tracks) fun _ => .forM (fun word _ => ?_) (Inward.pure _).tracks
  unfold addBuiltin
  split
  · exact .bind (tracks_addImmediate _ _) fun _ => (Inward.pure _).tracks
  · exact .bind (tracks_addPrimitive _ _) fun _ => (Inward.pure _).tracks

end Words

end Exec

namespace Machine.Enclosed

theorem plain (g : Regions) : Plain (Enclosed g) where
  steady := (lasting g).hereditary.toSteady
  parseWord := (lasting g).parseWord
  parse := (lasting g).parse
  readByte := (lasting g).readByte
  addRuntime := addRuntime
  input m source := deviceFree g m source m.output m.token m.journal
  output m sink := deviceFree g m m.input sink m.token m.journal
  report m _ := deviceFree g m m.input m.output m.token _

end Machine.Enclosed

/-! ### Requests in step -/

/-- The fault that a refusal reports, if it is one of the machine. -/
def Refusal.fault? : Refusal → Option Fault
  | fault f | host (.fault f) => some f
  | _ => none

/-- How requests in step end: neither does within its steps, or both give the same answer or
refusal, or the second machine was refused alone. -/
inductive Request.InStep (R : Machine → Machine → Prop) (Out : Refusal → Machine → Prop) :
    Request.Result → Request.Result → Prop
  /-- Both go on. -/
  | unfinished : Request.InStep R Out none none
  /-- Both have ended alike. -/
  | finished {r r' : EStateM.Result Refusal Machine Answer} (h : Related R Eq r r') :
    Request.InStep R Out (some r) (some r')
  /-- The second was refused, whatever becomes of the first. -/
  | out {o : Request.Result} {refusal : Refusal} {t : Machine} (h : Out refusal t) :
    Request.InStep R Out o (some (.error refusal t))

/-- The machine was refused since it could not read a name. -/
def Refusal.Trips (v₀ v₁ : Verbosity) (refusal : Refusal) (m : Machine) : Prop :=
  ∃ f, refusal.fault? = some f ∧ m.Tripped v₀ v₁ f

namespace Machine.Journaled

theorem report (notice : Notice) (hst : Journaled v₀ v₁ g s t) :
    Journaled v₀ v₁ g (s.report notice) (t.report notice) :=
  ⟨hst.1.rejournal (by simpa using hst.1.verbosity), Enclosed.deviceFree g t _ _ _ _ hst.2⟩

theorem setText (text : String) (hst : Journaled v₀ v₁ g s t) :
    Journaled v₀ v₁ g (s.setText text) (t.setText text) :=
  ⟨hst.1.setText text, Enclosed.deviceFree g t _ _ _ _ hst.2⟩

theorem setStream (source : Source) (hst : Journaled v₀ v₁ g s t) :
    Journaled v₀ v₁ g (s.setStream source) (t.setStream source) :=
  ⟨(hst.report .streamInput).1.reinput rfl, Enclosed.deviceFree g t _ _ _ _ hst.2⟩

theorem setOutput (sink : Sink) (hst : Journaled v₀ v₁ g s t) :
    Journaled v₀ v₁ g (s.setOutput sink) (t.setOutput sink) :=
  ⟨(hst.report .outputSwitched).1.reoutput rfl, Enclosed.deviceFree g t _ _ _ _ hst.2⟩

theorem poisonWith (f : Fault) (hst : Journaled v₀ v₁ g s t) :
    Journaled v₀ v₁ g (s.poisonWith f) (t.poisonWith f) :=
  ⟨hst.1.poisonWith f, hst.2.poisonWith f⟩

/-- A run ends in step. -/
theorem ofHost_finishRun {o o' : Outcome Unit}
    (h : Outcome.InStep (Journaled v₀ v₁ g) (fun _ => Tripped v₀ v₁) o o') :
    Request.InStep (Journaled v₀ v₁ g) (Refusal.Trips v₀ v₁) (Request.ofHost (o.map finishRun))
      (Request.ofHost (o'.map finishRun)) := by
  have hout {o : Request.Result} {f : Fault} {t : Machine} (h : t.Tripped v₀ v₁ f) :
      Request.InStep (Journaled v₀ v₁ g) (Refusal.Trips v₀ v₁) o
        (Request.ofHost (some (finishRun (.error f t)))) := by
    rw [finishRun_error]
    exact .out ⟨f, rfl, h.quiet, h.loud, h.fault, h.name⟩
  cases h with
  | unfinished => exact .unfinished
  | out h => exact hout h
  | finished h =>
    cases h with
    | @ok _ s t hst =>
      -- Both write to one sink, so both can flush it or neither can.
      rw [Option.map_some, Option.map_some, finishRun_ok, finishRun_ok, hst.1.output]
      split
      · exact .finished (.error (hst.poisonWith _))
      · exact .finished (.ok rfl hst)
    | error hst =>
      simp only [Option.map_some, finishRun_error]
      exact .finished (.error (hst.poisonWith _))
    | out h => exact hout h

theorem ofOutcome {o o' : Outcome Unit}
    (h : Outcome.InStep (Journaled v₀ v₁ g) (fun _ => Tripped v₀ v₁) o o') :
    Request.InStep (Journaled v₀ v₁ g) (Refusal.Trips v₀ v₁) (Request.ofOutcome o)
      (Request.ofOutcome o') := by
  cases h with
  | unfinished => exact .unfinished
  | out h => exact .out ⟨_, rfl, h⟩
  | finished h =>
    cases h with
    | ok hst => exact .finished (.ok rfl hst)
    | error hst => exact .finished (.error hst)
    | out h => exact .out ⟨_, rfl, h⟩

theorem ofExec {op : Exec α}
    (hop : Tracks (Journaled v₀ v₁ g) (fun _ => Tripped v₀ v₁) op) (answer : α → Answer)
    (hst : Journaled v₀ v₁ g s t) :
    Request.InStep (Journaled v₀ v₁ g) (Refusal.Trips v₀ v₁) (Request.ofExec answer op s)
      (Request.ofExec answer op t) := by
  have h := hop.inStep hst
  unfold Request.ofExec
  generalize op s = r, op t = r' at h
  cases h with
  | ok hst' => exact .finished (.ok rfl hst')
  | error hst' => exact .finished (.error hst')
  | out h => exact .out ⟨_, rfl, h⟩

theorem dump (sink : Sink) (hst : Journaled v₀ v₁ g s t) :
    Request.InStep (Journaled v₀ v₁ g) (Refusal.Trips v₀ v₁) (Request.ofDump (s.dump sink))
      (Request.ofDump (t.dump sink)) := by
  have himage : t.image = s.image := by
    rw [hst.1.same]
    rfl
  unfold Machine.dump
  rw [hst.1.poison?_eq, himage]
  split
  · exact .finished (.error hst)
  · split
    · exact .finished (.error hst)
    · split
      · exact .finished (.error hst)
      · exact .finished (.ok rfl (hst.report _))

theorem parseWord (hst : Journaled v₀ v₁ g s t) :
    Related (Journaled v₀ v₁ g) Eq (Exec.parseWord s) (Exec.parseWord t) := by
  have h := hst.1.parseWord (Source.SameReading.eq.word hst.1.input)
  have hkept := (Enclosed.lasting g).parseWord t hst.2
  generalize Exec.parseWord s = r, Exec.parseWord t = r' at h hkept
  cases h with
  | ok hv hst' => exact .ok hv ⟨hst', hkept⟩
  | error hst' => exact .error ⟨hst', hkept⟩

section Requests

variable (hloud : v₀.admits .debug = true → v₁.admits .debug = true)
include hloud

theorem run (steps : Nat) (hst : Journaled v₀ v₁ g s t) :
    Request.InStep (Journaled v₀ v₁ g) (Refusal.Trips v₀ v₁) (Request.ofHost (s.run steps))
      (Request.ofHost (t.run steps)) := by
  unfold Machine.run
  rw [hst.1.poison?_eq]
  split
  · exact .finished (.error hst)
  · exact ofHost_finishRun ((lockstep_journaled hloud g).interpret steps (fun _ _ => parseWord) hst
      fun _ _ => trivial)

theorem evaluate (steps : Nat) (text : String) (hst : Journaled v₀ v₁ g s t) :
    Request.InStep (Journaled v₀ v₁ g) (Refusal.Trips v₀ v₁)
      (Request.ofHost (s.evaluate steps text)) (Request.ofHost (t.evaluate steps text)) := by
  unfold Machine.evaluate
  rw [hst.1.poison?_eq]
  split
  · exact .finished (.error hst)
  · exact run hloud steps (hst.setText text)

/-- Every request is answered in step. -/
theorem perform (steps : Nat) (request : Request) (hst : Journaled v₀ v₁ g s t) :
    Request.InStep (Journaled v₀ v₁ g) (Refusal.Trips v₀ v₁) (request.perform steps s)
      (request.perform steps t) := by
  have h := lockstep_journaled hloud g
  have hlook {α : Type} {answer : α → Answer} {look : Machine → Except Fault α}
      (hblind : DeviceBlind look) : Request.InStep (Journaled v₀ v₁ g) (Refusal.Trips v₀ v₁)
        (Request.ofLook answer look s) (Request.ofLook answer look t) :=
    ofExec (h.hereditary.look hblind) answer hst
  have hregs := hst.1.regs_eq
  have hmemory := hst.1.memory_eq
  cases request with
  | evaluate text => exact evaluate hloud steps text hst
  | run => exact run hloud steps hst
  | setText text => exact .finished (.ok rfl (hst.setText text))
  | setStream deliveries => exact .finished (.ok rfl (hst.setStream _))
  | setOutput sink => exact .finished (.ok rfl (hst.setOutput sink))
  | dump sink => exact hst.dump sink
  | imageLength => exact .finished (.ok (by rw [imageLength, imageLength, hmemory]) hst)
  | isPoisoned => exact .finished (.ok (by rw [isPoisoned, isPoisoned, hregs]) hst)
  | here => exact .finished (.ok (by rw [hregs]) hst)
  | unused => exact .finished (.ok (by rw [unused, unused, hregs]) hst)
  | act action => exact ofOutcome (h.runAction steps action (fun _ _ => trivial) hst)
  | executeToken xt => exact ofOutcome (h.runToken steps xt (fun _ _ => trivial) hst)
  | find name => exact hlook fun _ _ _ _ => rfl
  | recordAt address => exact hlook fun _ _ _ _ => rfl
  | recordName record => exact hlook fun _ _ _ _ => rfl
  | records => exact hlook fun _ _ _ _ => rfl
  | compileCell c => exact ofExec (h.hereditary.compileCell c) _ hst
  | compileInteger c => exact ofExec (h.hereditary.compileInteger c) _ hst
  | compileString bs => exact ofExec (h.hereditary.compileString bs) _ hst
  | compileReference record => exact ofExec (h.hereditary.compileReference record) _ hst
  | allot n => exact ofExec (h.hereditary.allot _) _ hst
  | createRecord name code flags => exact ofExec (h.hereditary.createRecord name code flags) _ hst
  | reveal address => exact ofExec (h.hereditary.reveal address) _ hst
  | parseWord => exact ofExec ⟨fun hst => .of_related hst.parseWord, fun _ _ _ => id⟩ _ hst
  | parse delimiter =>
    exact ofExec (Tracks.and ⟨fun hst => .of_related
      (hst.parse delimiter (Source.SameReading.eq.upTo delimiter hst.input)), fun _ _ _ => id⟩
      ((Enclosed.lasting g).parse delimiter)) _ hst
  | parseName => exact ofExec h.hereditary.parseName _ hst
  | write bs => exact ofExec (h.hereditary.write bs) _ hst
  | addPrimitive name action =>
    exact ofExec ((Exec.tracks_addPrimitive (E := fun _ _ => Tripped v₀ v₁) name action).and
      ((Enclosed.plain _).addPrimitive name action)) _ hst
  | addImmediate name action =>
    exact ofExec ((Exec.tracks_addImmediate (E := fun _ _ => Tripped v₀ v₁) name action).and
      ((Enclosed.plain _).addImmediate name action)) _ hst
  | dataStack request => exact ofExec (h.hereditary.onData (.perform request)) _ hst
  | returnStack request => exact ofExec (h.hereditary.onReturn (.perform request)) _ hst
  | cell pos => exact hlook fun _ _ _ _ => rfl
  | cells pos count => exact hlook fun _ _ _ _ => rfl

end Requests

end Machine.Journaled

/-! ### Transcripts of both machines -/

/-- What is left of a machine without its journal. -/
def Machine.silent (m : Machine) : Machine :=
  { m with journal := {} }

/-- Two machines answer the first requests of a row alike, and then part: at the same state but for
the journal, the second one is refused a request, because of a name that goes beyond memory. -/
inductive Parts : Machine → Machine → List (Request × Reply) → Prop
  /-- They part at the next request. -/
  | here {s t t' : Machine} {steps : Nat} {request : Request} {reply : Reply} {refusal : Refusal}
    {es : List (Request × Reply)} (hsame : t.silent = s.silent)
    (hrefused : request.perform steps t = some (.error refusal t'))
    (hfault : refusal.fault? = some .invalidMemoryAddress) (hname : t'.HasOverlongName) :
    Parts s t ((request, reply) :: es)
  /-- They answer it alike, and part later. -/
  | later {s t s' t' : Machine} {request : Request} {reply : Reply} {es : List (Request × Reply)}
    (hs : Transcript s [(request, reply)] s') (ht : Transcript t [(request, reply)] t')
    (hrest : Parts s' t' es) : Parts s t ((request, reply) :: es)

/-- Machines that part have come to a name that goes beyond memory. -/
theorem Parts.exists_transcript {es : List (Request × Reply)} (h : Parts s t es) :
    ∃ fs t', Transcript t fs t' ∧ t'.HasOverlongName := by
  induction h with
  | here _ hrefused _ hname => exact ⟨_, _, .cons hrefused (.nil _), hname⟩
  | later _ ht _ ih =>
    obtain ⟨fs, t', hrest, hname⟩ := ih
    exact ⟨_, t', ht.append hrest, hname⟩

namespace Machine.Journaled

theorem silent_eq (hst : Journaled v₀ v₁ g s t) : t.silent = s.silent := by
  have hinput := hst.1.input
  have houtput := hst.1.output
  have hsame := hst.1.same
  rw [← hinput, ← houtput] at hsame
  rw [hsame]
  rfl

theorem parts_here (hst : Journaled v₀ v₁ g s t) {steps : Nat} {request : Request} {reply : Reply}
    {es : List (Request × Reply)} {refusal : Refusal} {t' : Machine}
    (hrefused : request.perform steps t = some (.error refusal t')) (h : refusal.Trips v₀ v₁ t') :
    v₀.admits .debug = false ∧ v₁.admits .debug = true ∧ Parts s t ((request, reply) :: es) := by
  obtain ⟨f, hf, htripped⟩ := h
  exact ⟨htripped.quiet, htripped.loud,
    .here hst.silent_eq hrefused (htripped.fault ▸ hf) htripped.name⟩

theorem reply_eq {r r' : EStateM.Result Refusal Machine Answer}
    (h : Related (Journaled v₀ v₁ g) Eq r r') :
    Request.reply r' = Request.reply r ∧ Journaled v₀ v₁ g (endState r) (endState r') := by
  cases h with
  | ok hv hst =>
    cases hv
    exact ⟨rfl, hst⟩
  | error hst => exact ⟨rfl, hst⟩

section Transcripts

variable (hloud : v₀.admits .debug = true → v₁.admits .debug = true)
include hloud

/-- What the quieter machine answers, so does the louder one, unless they part. -/
theorem transcript_of_quiet {s' : Machine} {es : List (Request × Reply)} (h : Transcript s es s')
    (hst : Journaled v₀ v₁ g s t) :
    (∃ t', Transcript t es t' ∧ Journaled v₀ v₁ g s' t') ∨
      v₀.admits .debug = false ∧ v₁.admits .debug = true ∧ Parts s t es := by
  induction h generalizing t with
  | nil s => exact .inl ⟨t, .nil t, hst⟩
  | @cons s s' steps request r es hperform _ ih =>
    have hstep := hst.perform hloud steps request
    rw [hperform] at hstep
    generalize hperform' : request.perform steps t = o at hstep
    cases hstep with
    | out h => exact .inr (hst.parts_here hperform' h)
    | finished hr =>
      obtain ⟨hreply, hst'⟩ := reply_eq hr
      obtain ⟨t', ht', hend⟩ | ⟨hquiet, hloud', hparts⟩ := ih hst'
      · exact .inl ⟨t', hreply ▸ .cons hperform' ht', hend⟩
      · exact .inr ⟨hquiet, hloud', .later (.cons hperform (.nil _))
          (hreply ▸ .cons hperform' (.nil _)) hparts⟩

/-- What the louder machine answers, so does the quieter one, unless they part. -/
theorem transcript_of_loud {t' : Machine} {es : List (Request × Reply)} (h : Transcript t es t')
    (hst : Journaled v₀ v₁ g s t) :
    (∃ s', Transcript s es s' ∧ Journaled v₀ v₁ g s' t') ∨
      v₀.admits .debug = false ∧ v₁.admits .debug = true ∧ Parts s t es := by
  induction h generalizing s with
  | nil t => exact .inl ⟨s, .nil s, hst⟩
  | @cons t t' steps request r es hperform _ ih =>
    have hstep := hst.perform hloud steps request
    rw [hperform] at hstep
    generalize hperform' : request.perform steps s = o at hstep
    cases hstep with
    | out h => exact .inr (hst.parts_here hperform h)
    | finished hr =>
      obtain ⟨hreply, hst'⟩ := reply_eq hr
      obtain ⟨s', hs', hend⟩ | ⟨hquiet, hloud', hparts⟩ := ih hst'
      · exact .inl ⟨s', hreply.symm ▸ .cons hperform' hs', hend⟩
      · exact .inr ⟨hquiet, hloud', .later (hreply.symm ▸ .cons hperform' (.nil _))
          (.cons hperform (.nil _)) hparts⟩

end Transcripts

end Machine.Journaled

/-! ### New machines -/

namespace Machine

/-- Whatever the verbosity, a configuration is refused for the same reason, or gives the same
machine but for the journal. -/
theorem create_journaled (config : Config) (input : Source) (output : Sink) (v₀ v₁ : Verbosity) :
    (∃ e journal journal', create config input output v₀ = .error (e, journal) ∧
        create config input output v₁ = .error (e, journal')) ∨
      ∃ g s t, create config input output v₀ = .ok s ∧ create config input output v₁ = .ok t ∧
        Journaled v₀ v₁ g s t := by
  unfold create
  cases hlayout : config.layout with
  | error e => exact .inl ⟨e, _, _, rfl, rfl⟩
  | ok layout =>
    have hbare := bare_withinRegions hlayout input output v₁
    have hopens : OpensBelow (bare config.coreSize layout input output v₁).regs.dataBase.toNat
        (bare config.coreSize layout input output v₁) := by
      have hstart := hbare.start_le_here
      have hhere := hbare.here_le_dataBase
      unfold dictionaryStart at hstart
      show 0 + 4 ≤ _
      omega
    have hkept := (Enclosed.plain _).addVocabulary _ ⟨⟨hbare, rfl⟩, hopens⟩
    have hst : Abreast Eq Eq (fun v v' => v = v₀ ∧ v' = v₁)
        (bare config.coreSize layout input output v₀)
        (bare config.coreSize layout input output v₁) := ⟨rfl, rfl, rfl, rfl, rfl⟩
    have hstep := (Exec.tracks_addVocabulary (E := fun _ _ _ _ => False)).inStep hst
    generalize (bare config.coreSize layout input output v₁).regions = g at hkept
    dsimp only
    generalize Exec.addVocabulary (bare config.coreSize layout input output v₀) = r,
      Exec.addVocabulary (bare config.coreSize layout input output v₁) = r' at hstep hkept
    cases hstep with
    | out h => exact h.elim
    | error h => exact .inl ⟨_, _, _, rfl, rfl⟩
    | ok h =>
      exact .inr ⟨g, _, _, rfl, rfl, h.rejournal (by simpa using h.verbosity),
        Enclosed.deviceFree g _ _ _ _ _ hkept⟩

/-- New machines of one configuration differ in their journals only. -/
theorem journaled_of_create {config : Config} {input : Source} {output : Sink} {v v' : Verbosity}
    {m m' : Machine} (h : create config input output v = .ok m)
    (h' : create config input output v' = .ok m') : ∃ g, Journaled v v' g m m' := by
  obtain ⟨e, journal, journal', hs, -⟩ | ⟨g, s, t, hs, ht, hst⟩ :=
    create_journaled config input output v v'
  · rw [h] at hs
    cases hs
  · rw [h] at hs
    rw [h'] at ht
    cases hs
    cases ht
    exact ⟨g, hst⟩

/-- The verbosity of a machine stays the one that it was built with. -/
theorem verbosity_of_transcript {config : Config} {input : Source} {output : Sink} {v : Verbosity}
    {m m' : Machine} {es : List (Request × Reply)} (h : create config input output v = .ok m)
    (hes : Transcript m es m') : m'.journal.verbosity = v := by
  obtain ⟨g, hst⟩ := journaled_of_create h h
  obtain ⟨t', -, hst'⟩ | ⟨hquiet, hloud, -⟩ := hst.transcript_of_quiet id hes
  · exact hst'.1.verbosity.1
  · rw [hquiet] at hloud
    cases hloud

/-- The stacks of a new machine have the sizes that were asked for, and take the rest of memory. -/
theorem dataBase_add_of_create {config : Config} {input : Source} {output : Sink}
    {verbosity : Verbosity} {m : Machine} (h : create config input output verbosity = .ok m) :
    m.regs.dataBase.toNat + (config.dataStackSize + config.returnStackSize) = m.memory.size := by
  unfold create at h
  split at h
  · cases h
  · rename_i layout hlayout
    have hkept := (Elementary.bounded _).plain.addVocabulary _
      ⟨bare_withinRegions hlayout input output verbosity, rfl⟩
    split at h
    · cases h
    · rename_i m₀ hadd
      rw [hadd] at hkept
      cases h
      have hdata : m₀.regs.dataBase = UInt16.ofNat layout.dataBase :=
        congrArg Regions.dataBase hkept.2
      have hsize : m₀.memory.size = config.coreSize :=
        (congrArg Regions.size hkept.2).trans (Array.size_replicate ..)
      obtain ⟨hmax, -, -, hfits, rfl⟩ := Config.layout_eq_ok_iff.mp hlayout
      unfold maxCoreSize at hmax
      rw [hdata, Cell.toNat_ofNat (by dsimp only; omega), hsize]
      dsimp only
      omega

/-- On a small machine, the free end of the dictionary is moved back into the record of the open
definition, and the next cell overwrites its header. -/
theorem exists_overwritten (v : Verbosity) :
    ∃ m m₁,
      create { coreSize := 820, dataStackSize := 16, returnStackSize := 8 } .empty {} v = .ok m ∧
      Transcript m [(.setText "a", .ok .done), (.act (.define .colon), .ok .done),
        (.allot (-3), .ok .done), (.compileCell 255, .ok .done)] m₁ ∧ m₁.Overwritten := by
  have hlayout : Config.layout { coreSize := 820, dataStackSize := 16, returnStackSize := 8 } =
      .ok ⟨796, 812, 820⟩ := rfl
  obtain ⟨m, hcreate, hnew⟩ := create_of_room hlayout (by decide +kernel) .empty {} v
  have hhere : m.regs.here.toNat = 777 := hnew.here.trans (by decide +kernel)
  have hdata : m.regs.dataBase.toNat = 796 := by rw [hnew.regs]; rfl
  have hunused : m.unused = 19 := by rw [unused, hhere, hdata]
  have hroom : m.dataStack.room = 16 := hnew.room_eq
  have hreads : (m.setText "a").input.Reads [Text.bytes "a"] :=
    ⟨⟨_, rfl, by decide +kernel⟩, by decide +kernel⟩
  have hwithin : (m.setText "a").WithinRegions := { hnew.within with }
  obtain ⟨input, m₂, hbegin, h₂, -⟩ := Exec.beginDefinition_of_room hwithin
    (by show m.regs.mode = _; rw [hnew.regs]; rfl)
    (by show m.regs.defining = _; rw [hnew.regs]; rfl) hreads (by decide +kernel)
    (by show _ ≤ m.unused; rw [hunused]; decide +kernel) (by show 2 ≤ m.dataStack.room; omega)
  have hhere₂ : m₂.regs.here.toNat = 781 := by
    rw [h₂.here]
    show m.regs.here.toNat + _ + _ = _
    rw [hhere]
    decide +kernel
  have hdata₂ : m₂.regs.dataBase.toNat = 796 := by rw [h₂.dataBase_eq]; exact hdata
  have hsize₂ : m₂.memory.size = 820 := by
    have hlimit : m₂.regs.returnLimit = m.regs.returnLimit := congrArg (·.regs.returnLimit) h₂.rest
    rw [← h₂.grown.after.returnLimit_eq, hlimit, hnew.regs]
    rfl
  -- The record takes four cells, so the header is three cells behind the free end.
  have hallot : Exec.allot (Cell.signed (-3)) m₂ =
      .ok () (m₂.moveHere (m.regs.here + 1)) := by
    have hsigned : Cell.signed (-3) = -3 := by decide
    have hback : UInt16.ofNat 778 = m.regs.here + 1 := by
      rw [← UInt16.toNat_inj, UInt16.toNat_add, hhere]
      rfl
    rw [hsigned, Exec.allot_eq, hhere₂, hdata₂, if_pos (by decide), if_pos (by decide), ← hback]
    rfl
  have hover := h₂.overwritten (c := 255) (by
    rw [hsize₂]
    show 820 < m.regs.here.toNat + 2 +
      packedLength (255 &&& ~~~Record.hiddenBit &&& Record.nameMask).toNat
    rw [hhere]
    decide)
  have hcompile : Exec.compileCell 255 (m₂.moveHere (m.regs.here + 1)) =
      .ok () ((m₂.moveHere (m.regs.here + 1)).append [255]) := by
    obtain ⟨hwithin₃, -, htwo⟩ := h₂.moveHere
    exact Exec.compileCell_of_room hwithin₃.ordered (Nat.lt_of_lt_of_le Nat.zero_lt_two htwo)
  have hperform₁ : (Request.setText "a").perform 0 m = some (.ok .done (m.setText "a")) := rfl
  have hperform₂ :
      (Request.act (.define .colon)).perform 0 (m.setText "a") = some (.ok .done m₂) := by
    have hstep : Action.step (.define .colon) (m.setText "a") = .ok () m₂ := hbegin
    rw [Request.perform_act (by simp) (by simp), Request.ofExec, hstep]
  have hperform₃ : (Request.allot (-3)).perform 0 m₂ =
      some (.ok .done (m₂.moveHere (m.regs.here + 1))) := by
    rw [Request.perform, Request.ofExec, hallot]
  have hperform₄ : (Request.compileCell 255).perform 0 (m₂.moveHere (m.regs.here + 1)) =
      some (.ok .done ((m₂.moveHere (m.regs.here + 1)).append [255])) := by
    rw [Request.perform, Request.ofExec, hcompile]
  exact ⟨m, _, hcreate,
    .cons hperform₁ (.cons hperform₂ (.cons hperform₃ (.cons hperform₄ (.nil _)))), hover⟩

/-- Machines that differ in verbosity answer all requests alike, and their states differ in the
journal only, with one exception: if only one of them keeps debugging notices, and the stacks are
very small, they may part over the name of a definition. -/
theorem transcript_of_verbosity (config : Config) (input : Source) (output : Sink)
    (v v' : Verbosity) :
    ((create config input output v').mapError Prod.fst).map silent =
        ((create config input output v).mapError Prod.fst).map silent ∧
      ∀ m m', create config input output v = .ok m → create config input output v' = .ok m' →
        ∀ es m₁, Transcript m es m₁ →
          (∃ m₁', Transcript m' es m₁' ∧ m₁'.silent = m₁.silent) ∨
            config.dataStackSize + config.returnStackSize < 126 ∧
              (v.admits .debug = false ∧ v'.admits .debug = true ∧ Parts m m' es ∨
                v.admits .debug = true ∧ v'.admits .debug = false ∧ Parts m' m es) := by
  have hsmall {v : Verbosity} {s t : Machine} {es : List (Request × Reply)}
      (ht : create config input output v = .ok t) (hparts : Parts s t es) :
      config.dataStackSize + config.returnStackSize < 126 := by
    obtain ⟨fs, t', hfs, hname⟩ := hparts.exists_transcript
    have hpoison (m₀ : Machine) (f : Fault) (h : Bounded t.regions m₀) :
        Bounded t.regions (m₀.poisonWith f) := ⟨{ h.1 with }, h.2⟩
    have hregions := ((Elementary.bounded t.regions).transcript hpoison hfs
      ⟨create_withinRegions ht, rfl⟩).2
    have hlt := hname.size_lt
    have hdata : t'.regs.dataBase = t.regs.dataBase := congrArg Regions.dataBase hregions
    have hsize : t'.memory.size = t.memory.size := congrArg Regions.size hregions
    have hsum := dataBase_add_of_create ht
    rw [hdata, hsize] at hlt
    omega
  refine ⟨?_, fun m m' hm hm' es m₁ hes => ?_⟩
  · obtain ⟨e, journal, journal', hs, ht⟩ | ⟨g, s, t, hs, ht, hst⟩ :=
      create_journaled config input output v v'
    · rw [hs, ht]
      rfl
    · rw [hs, ht]
      exact congrArg Except.ok hst.silent_eq
  · -- The machine that keeps debugging notices, if there is just one, has to be the second one.
    by_cases hloud : v.admits .debug = true → v'.admits .debug = true
    · obtain ⟨g, hst⟩ := journaled_of_create hm hm'
      obtain ⟨m₁', hes', hst'⟩ | ⟨hquiet, hloud', hparts⟩ := hst.transcript_of_quiet hloud hes
      · exact .inl ⟨m₁', hes', hst'.silent_eq⟩
      · exact .inr ⟨hsmall hm' hparts, .inl ⟨hquiet, hloud', hparts⟩⟩
    · simp only [Classical.not_imp, Bool.not_eq_true] at hloud
      obtain ⟨g, hst⟩ := journaled_of_create hm' hm
      obtain ⟨m₁', hes', hst'⟩ | ⟨hquiet, hloud', hparts⟩ :=
        hst.transcript_of_loud (fun _ => hloud.1) hes
      · exact .inl ⟨m₁', hes', hst'.silent_eq.symm⟩
      · exact .inr ⟨hsmall hm hparts, .inr ⟨hloud', hquiet, hparts⟩⟩

/-- Usual stacks are large enough. -/
theorem definition_at_any_verbosity :
    ∃ m m' es m₁ m₁', create {} .empty {} .off = .ok m ∧ create {} .empty {} .trace = .ok m' ∧
      es.map Prod.fst = [.setText "a", .act (.define .colon), .act (.define .semicolon)] ∧
      Transcript m es m₁ ∧ Transcript m' es m₁' ∧ m₁'.silent = m₁.silent := by
  have hlayout : Config.layout {} = .ok ⟨32576, 32640, 32768⟩ := rfl
  obtain ⟨m, hcreate, -⟩ := create_of_room hlayout (by decide +kernel) .empty {} .off
  obtain ⟨m', hcreate', -⟩ := create_of_room hlayout (by decide +kernel) .empty {} .trace
  have hact (word : DefiningWord) (m₀ : Machine) :
      ∃ r, (Request.act (.define word)).perform 0 m₀ = some r := by
    rw [Request.perform_act (by simp) (by simp)]
    exact Request.exists_ofExec ..
  have hset : (Request.setText "a").perform 0 m = some (.ok .done (m.setText "a")) := rfl
  obtain ⟨r₁, h₁⟩ := hact .colon (m.setText "a")
  obtain ⟨r₂, h₂⟩ := hact .semicolon (endState r₁)
  have ht := Transcript.cons hset (.cons h₁ (.cons h₂ (.nil _)))
  obtain ⟨m₁', ht', hsilent⟩ | ⟨hsmall, -⟩ :=
    (transcript_of_verbosity {} .empty {} .off .trace).2 m m' hcreate hcreate' _ _ ht
  · exact ⟨m, m', _, _, m₁', hcreate, hcreate', rfl, ht, ht', hsilent⟩
  · exact absurd hsmall (by decide)

/-- With very small stacks, completing a definition can succeed on a machine that keeps no debugging
notices and fail on one that does, after the same requests and replies. -/
theorem definition_refused_if_noted :
    ∃ m m' es m₁ m₁' m₂ m₂',
      create { coreSize := 820, dataStackSize := 16, returnStackSize := 8 } .empty {} .off = .ok m ∧
      create { coreSize := 820, dataStackSize := 16, returnStackSize := 8 } .empty {} .debug =
        .ok m' ∧
      es.map Prod.fst = [.setText "a", .act (.define .colon), .allot (-3), .compileCell 255] ∧
      Transcript m es m₁ ∧ Transcript m' es m₁' ∧
      ∀ steps, (Request.act (.define .semicolon)).perform steps m₁ = some (.ok .done m₂) ∧
        (Request.act (.define .semicolon)).perform steps m₁' =
          some (.error (.fault .invalidMemoryAddress) m₂') := by
  obtain ⟨m, m₁, hcreate, ht, hover⟩ := exists_overwritten .off
  obtain ⟨m', m₁', hcreate', ht', hover'⟩ := exists_overwritten .debug
  obtain ⟨m₂, hend⟩ := hover.endDefinition_eq
  obtain ⟨m₂', hend'⟩ := hover'.endDefinition_eq
  have hquiet : m₁.journal.admits .debug = false := by
    rw [Journal.admits, verbosity_of_transcript hcreate ht]
    rfl
  have hloud : m₁'.journal.admits .debug = true := by
    rw [Journal.admits, verbosity_of_transcript hcreate' ht']
    rfl
  have hstep : Action.step (.define .semicolon) m₁ = .ok () m₂ := by
    rw [hquiet] at hend
    exact hend
  have hstep' : Action.step (.define .semicolon) m₁' = .error .invalidMemoryAddress m₂' := by
    rw [hloud] at hend'
    exact hend'
  refine ⟨m, m', _, m₁, m₁', m₂, m₂', hcreate, hcreate', rfl, ht, ht', fun steps => ⟨?_, ?_⟩⟩
  · rw [Request.perform_act (by simp) (by simp), Request.ofExec, hstep]
  · rw [Request.perform_act (by simp) (by simp), Request.ofExec, hstep']

end Machine

end CellForth
