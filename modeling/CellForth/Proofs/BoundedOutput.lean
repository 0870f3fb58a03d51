import CellForth.Proofs.Abreast

/-!
# Output to a bounded sink

A sink that takes only so many bytes gets a beginning of the output. Compared are the machine that
writes to an unbounded sink, and the one whose sink has a limit. As long as there is room, they are
in step. The write that does not fit fills the sink and ends with a fault, and the second machine is
out; what it has written then is a beginning of what the first one has, and stays so however much
the first one writes after that. So the limit tells exactly what becomes of the second machine
(`Machine.evaluate_setOutput_bounded`).
-/

namespace CellForth

open Machine (Abreast)

/-! ### Writing to both sinks -/

/-- A sink only ever takes more bytes. -/
theorem Sink.exists_bytes_write (bs : List UInt8) (sink : Sink) :
    ∃ more, (endState (write bs sink)).bytes = sink.bytes ++ more := by
  unfold write
  split
  · exact ⟨bs, bytes_accept bs sink⟩
  · split
    · exact ⟨bs, bytes_accept bs sink⟩
    · exact ⟨_, bytes_accept _ sink⟩

/-- The first sink is unbounded. The second one has taken the same bytes, and has room for as many
as are missing to its limit. -/
structure Sink.Bounds (limit : Nat) (x y : Sink) : Prop where
  /-- The first sink is unbounded. -/
  unbounded : x.room = none
  /-- Both have taken the same bytes. -/
  bytes_eq : y.bytes = x.bytes
  /-- These are within the limit. -/
  length_le : x.bytes.length ≤ limit
  /-- The second sink takes bytes up to its limit. -/
  room_eq : y.room = some (limit - x.bytes.length)
  /-- The first sink can be flushed. -/
  flushable : x.flushFails = false
  /-- So can the second. -/
  flushable' : y.flushFails = false

/-- The machine could not write all that the other sink has taken, but has filled its own with the
beginning. -/
structure Machine.Full (limit : Nat) (sink : Sink) (e : Fault) (m : Machine) : Prop where
  /-- Its fault is that of a failed write. -/
  fault : e = .outputFailure
  /-- Its sink has the beginning of the output. -/
  bytes_eq : m.output.bytes = sink.bytes.take limit
  /-- There is more of it. -/
  lt_length : limit < sink.bytes.length

theorem Machine.Full.append {limit : Nat} {sink sink' : Sink} {e : Fault} {m : Machine}
    (h : m.Full limit sink e) {more : List UInt8} (hmore : sink'.bytes = sink.bytes ++ more) :
    m.Full limit sink' e where
  fault := h.fault
  bytes_eq := by rw [h.bytes_eq, hmore, List.take_append_of_le_length (Nat.le_of_lt h.lt_length)]
  lt_length := by
    rw [hmore, List.length_append]
    exact Nat.lt_add_right _ h.lt_length

theorem Exec.tracks_write_bounds (limit : Nat) (bs : List UInt8) :
    Tracks (Abreast Eq (Sink.Bounds limit) Eq) (fun s e t => Machine.Full limit s.output e t)
      (write bs) where
  inStep {s t} hst := by
    obtain ⟨hunbounded, hbytes, hle, hroom, hflush, hflush'⟩ := hst.output
    have hs : write bs s = .ok () { s with output := s.output.accept bs } := by
      simp only [write, Sink.write, hunbounded]
    rw [hs]
    by_cases hfits : bs.length ≤ limit - s.output.bytes.length
    · have ht : write bs t = .ok () { t with output := t.output.accept bs } := by
        simp only [write, Sink.write, hroom, if_pos hfits]
      rw [ht]
      refine .ok (hst.reoutput ⟨?_, ?_, ?_, ?_, hflush, hflush'⟩)
      · simp [Sink.accept, hunbounded]
      · rw [Sink.bytes_accept, Sink.bytes_accept, hbytes]
      · rw [Sink.bytes_accept, List.length_append]
        omega
      · rw [Sink.bytes_accept, List.length_append, Sink.accept, hroom, Option.map_some, Nat.sub_sub]
    · have ht : write bs t = .error .outputFailure
          { t with output := t.output.accept (bs.take (limit - s.output.bytes.length)) } := by
        simp only [write, Sink.write, hroom, if_neg hfits]
      rw [ht]
      -- The part that fits takes the second sink to its limit, and the first one is beyond it.
      refine .out ⟨rfl, ?_, ?_⟩
      · rw [endState_ok, Sink.bytes_accept, Sink.bytes_accept, hbytes, List.take_append,
          List.take_of_length_le hle]
      · rw [endState_ok, Sink.bytes_accept, List.length_append]
        omega
  keeps e t s hout := by
    -- More output does not change its beginning.
    obtain ⟨more, hmore⟩ := Sink.exists_bytes_write bs s.output
    unfold write
    generalize Sink.write bs s.output = r at hmore
    cases r with
    | ok _ sink => exact hout.append hmore
    | error _ sink => exact hout.append hmore

/-- The machines are in step until the sink is full. -/
theorem Machine.lockstep_bounds (limit : Nat) :
    Lockstep (Abreast Eq (Sink.Bounds limit) Eq) (fun s e t => Machine.Full limit s.output e t)
      fun _ _ => True :=
  .of_abreast (E := Machine.Full limit) .eq (Exec.tracks_write_bounds limit)
    (Exec.tracks_endDefinition (E := fun _ => Machine.Full limit)) fun _ _ _ _ h =>
    ⟨h.fault, h.bytes_eq, h.lt_length⟩

/-! ### Evaluating with a limit -/

namespace Machine

/-- What is left of a machine without its devices. -/
def inner (m : Machine) : Machine :=
  m.withDevices .empty {} {}

theorem Abreast.mapState_inner_eq {ε α : Type} {I : Source → Source → Prop} {O : Sink → Sink → Prop}
    {V : Verbosity → Verbosity → Prop} {r r' : EStateM.Result ε Machine α}
    (h : Related (Abreast I O V) Eq r r') : mapState inner r' = mapState inner r := by
  cases h with
  | @ok a _ s t hv hst =>
    cases hv
    exact congrArg (EStateM.Result.ok a) (by rw [inner, hst.same]; rfl)
  | @error e s t hst => exact congrArg (EStateM.Result.error e) (by rw [inner, hst.same]; rfl)

/-- What a limit does to a call, given what it does without: if the output is within the limit,
nothing; otherwise the sink takes the beginning of the output and the call ends with a fault. -/
structure Limited (limit : Nat) (r r' : HostResult Unit) : Prop where
  /-- Output within the limit is written, and the limit makes no difference. -/
  within : (endState r).output.bytes.length ≤ limit →
    mapState inner r' = mapState inner r ∧ (endState r').output.bytes = (endState r).output.bytes
  /-- Of other output, the beginning is written, as long as the limit, and the call fails. -/
  beyond : limit < (endState r).output.bytes.length →
    error? r' = some (.fault .outputFailure) ∧
      (endState r').output.bytes = (endState r).output.bytes.take limit

theorem Limited.of_related {limit : Nat} {r r' : HostResult Unit}
    (h : Related (Abreast Eq (Sink.Bounds limit) Eq) Eq r r') : Limited limit r r' := by
  have houtput : Sink.Bounds limit (endState r).output (endState r').output := by
    cases h with
    | ok _ hst => exact hst.output
    | error hst => exact hst.output
  exact ⟨fun _ => ⟨Abreast.mapState_inner_eq h, houtput.bytes_eq⟩,
    fun hlt => absurd houtput.length_le (Nat.not_le.mpr hlt)⟩

theorem output_finishRun (r : EStateM.Result Fault Machine Unit) :
    (endState (finishRun r)).output = (endState r).output := by
  cases r with
  | error f m =>
    rw [finishRun_error]
    rfl
  | ok _ m =>
    rw [finishRun_ok]
    split <;> rfl

theorem Limited.finishRun {limit : Nat} {r r' : EStateM.Result Fault Machine Unit}
    (h : InStep (Abreast Eq (Sink.Bounds limit) Eq) (fun s e t => Full limit s.output e t) r r') :
    Limited limit (finishRun r) (finishRun r') := by
  have hflush {x y : Sink} (h : Sink.Bounds limit x y) : y.flushFails = x.flushFails :=
    h.flushable'.trans h.flushable.symm
  cases h with
  | ok hst => exact .of_related (Abreast.finishRun hflush (.ok rfl hst))
  | error hst => exact .of_related (Abreast.finishRun hflush (.error hst))
  | @out _ e t hout =>
    rw [finishRun_error]
    have hbytes := congrArg Sink.bytes (output_finishRun r)
    refine ⟨fun hle => ?_, fun _ => ⟨congrArg (some ∘ HostError.fault) hout.fault, ?_⟩⟩
    · rw [hbytes] at hle
      exact absurd hout.lt_length (Nat.not_lt.mpr hle)
    · rw [hbytes]
      exact hout.bytes_eq

/-- If a text is evaluated to an end with an unbounded sink, it is with a bounded one: the sink gets
all of the output if it is within the limit, and exactly the bytes up to the limit otherwise. -/
theorem evaluate_setOutput_bounded {m : Machine} {steps : Nat} {text : String} {r : HostResult Unit}
    (h : (m.setOutput {}).evaluate steps text = some r) (limit : Nat) (stalls : Bool) :
    ∃ r', (m.setOutput { room := some limit, stalls := stalls }).evaluate steps text = some r' ∧
      Limited limit r r' := by
  have hst : Abreast Eq (Sink.Bounds limit) Eq (m.setOutput {})
      (m.setOutput { room := some limit, stalls := stalls }) :=
    ⟨rfl, rfl, ⟨rfl, rfl, Nat.zero_le _, rfl, rfl, rfl⟩, rfl⟩
  generalize m.setOutput {} = s, m.setOutput { room := some limit, stalls := stalls } = t at h hst
  cases hpoison : s.poison? with
  | some f =>
    have hpoison' : t.poison? = some f := hst.poison?_eq.trans hpoison
    simp only [evaluate, hpoison, hpoison'] at h ⊢
    cases h
    exact ⟨_, rfl, .of_related (.error hst)⟩
  | none =>
    have hpoison' : t.poison? = none := hst.poison?_eq.trans hpoison
    have hrun := (lockstep_bounds limit).interpret steps
      (fun s t hst => hst.parseWord (Source.SameReading.eq.word hst.input)) (hst.setText text)
      fun _ _ => trivial
    rw [evaluate_eq_of_poison?_eq_none hpoison] at h
    rw [evaluate_eq_of_poison?_eq_none hpoison']
    obtain ⟨r₀, hr₀, rfl⟩ := Option.map_eq_some_iff.mp h
    rw [hr₀] at hrun
    generalize (t.setText text).interpret steps = o at hrun
    cases hrun with
    | @finished _ r₀' hr => exact ⟨finishRun r₀', rfl, .finishRun hr⟩

/-- Two bytes, and room for one. -/
theorem evaluate_setOutput_bounded_emit :
    ∃ (m : Machine) (r r' : HostResult Unit),
      (m.setOutput {}).evaluate 9 "65 emit 66 emit" = some r ∧
      (endState r).output.bytes = [65, 66] ∧
      (m.setOutput { room := some 1 }).evaluate 9 "65 emit 66 emit" = some r' ∧
      error? r' = some (.fault .outputFailure) ∧ (endState r').output.bytes = [65] := by
  let m := knowing [⟨"emit", .output .emit, false⟩] .off
  have hbytes : ((m.setOutput {}).evaluate 9 "65 emit 66 emit").map
      (fun r => (endState r).output.bytes) = some [65, 66] := by decide +kernel
  obtain ⟨r, hr, hwritten⟩ := Option.map_eq_some_iff.mp hbytes
  obtain ⟨r', hr', hlimited⟩ := evaluate_setOutput_bounded hr 1 false
  obtain ⟨herror, hfirst⟩ := hlimited.beyond (by rw [hwritten]; decide)
  exact ⟨m, r, r', hr, hwritten, hr', herror, by rw [hfirst, hwritten]; rfl⟩

end Machine

end CellForth
