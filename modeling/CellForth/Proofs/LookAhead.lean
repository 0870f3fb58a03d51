import CellForth.Proofs.Concatenation

/-!
# What lies ahead

Interpreting its input token by token, a machine comes to one place after the other
(`Machine.ComesTo`). What follows such a place does not matter for how the machine got there: it
could have been anything else (`Machine.ComesTo.exchange`).

Two machines whose inputs part at a place cannot be put in step. A word that reads across it may do
this with success in both of them, and there is no more to be said about them then. Both are
compared with a third machine, whose input fails at the place (`Source.CutAt`). It is out as soon as
it tries to read on, and then the other one has read on. So a machine that in the end has not read
on never puts it out, and what succeeds in the third machine succeeds wherever the input is
continued.
-/

namespace CellForth

open Machine (Abreast)

variable {rest rest' : List UInt8} {x y : Source} {s s' t t' : Machine}

/-! ### Reading makes the input shorter -/

namespace Scan

theorem length_word_le (seen : List UInt8) (n : Nat) (events : List ReadEvent) :
    (word seen n events).rest.length ≤ events.length := by
  fun_induction word seen n events <;> grind

theorem length_word_cons_lt (seen : List UInt8) (n : Nat) (event : ReadEvent)
    (events : List ReadEvent) :
    (word seen n (event :: events)).rest.length < (event :: events).length := by
  have hle (seen : List UInt8) (n : Nat) := length_word_le seen n events
  cases event <;> grind [word]

theorem length_upTo_le (delimiter : UInt8) (seen : List UInt8) (events : List ReadEvent) :
    (upTo delimiter seen events).rest.length ≤ events.length := by
  fun_induction upTo delimiter seen events <;> grind

theorem length_upTo_cons_lt (delimiter : UInt8) (seen : List UInt8) (event : ReadEvent)
    (events : List ReadEvent) :
    (upTo delimiter seen (event :: events)).rest.length < (event :: events).length := by
  have hle (seen : List UInt8) := length_upTo_le delimiter seen events
  cases event <;> grind [upTo]

end Scan

namespace Source

theorem length_readEvents_le (events : List ReadEvent) :
    (readEvents events).2.length ≤ events.length := by
  fun_induction readEvents events <;> grind

/-- What is left does not get longer. -/
theorem keptReading_length_lt (n : Nat) : KeptReading fun x => x.events.length < n where
  word h := Nat.lt_of_le_of_lt (Scan.length_word_le _ _ _) h
  upTo _ _ h := Nat.lt_of_le_of_lt (Scan.length_upTo_le _ _ _) h
  byte h := Nat.lt_of_le_of_lt (length_readEvents_le _) h

/-! ### A source that fails -/

/-- The second source fails where the first one comes to the given bytes. -/
def CutAt (rest : List UInt8) (x y : Source) : Prop :=
  ∃ ahead, x.events = (ahead ++ rest).map .byte ∧ y.events = ahead.map .byte ++ [.failure]

end Source

/-- The scans agree, or the second one has failed and the first one has used up some of the given
bytes. -/
def Scan.AgreeUpTo (rest : List UInt8) (a b : Scan) : Prop :=
  Scan.Agree (Source.CutAt rest) a b ∨
    b.fault = some .inputFailure ∧ a.rest.length < rest.length

theorem Scan.word_cut (hrest : rest ≠ []) (seen : List UInt8) (n : Nat) (ahead : List UInt8) :
    AgreeUpTo rest (word seen n ((ahead ++ rest).map .byte))
      (word seen n (ahead.map .byte ++ [.failure])) := by
  induction ahead generalizing seen n with
  | nil =>
    obtain ⟨b, bs, rfl⟩ := List.exists_cons_of_ne_nil hrest
    refine .inr ⟨rfl, ?_⟩
    simpa using length_word_cons_lt seen n (.byte b) (bs.map .byte)
  | cons b ahead ih =>
    have hagree (text : List UInt8) (fault : Option Fault) :
        AgreeUpTo rest ⟨text, (ahead ++ rest).map .byte, fault⟩
          ⟨text, ahead.map .byte ++ [.failure], fault⟩ :=
      .inl ⟨rfl, rfl, ahead, rfl, rfl⟩
    simp only [List.map_cons, List.cons_append, word]
    split
    · split
      · exact ih seen n
      · exact hagree _ _
    · split
      · exact ih (b :: seen) (n + 1)
      · exact hagree _ _

theorem Scan.upTo_cut (hrest : rest ≠ []) (delimiter : UInt8) (seen ahead : List UInt8) :
    AgreeUpTo rest (upTo delimiter seen ((ahead ++ rest).map .byte))
      (upTo delimiter seen (ahead.map .byte ++ [.failure])) := by
  induction ahead generalizing seen with
  | nil =>
    obtain ⟨b, bs, rfl⟩ := List.exists_cons_of_ne_nil hrest
    refine .inr ⟨rfl, ?_⟩
    simpa using length_upTo_cons_lt delimiter seen (.byte b) (bs.map .byte)
  | cons b ahead ih =>
    simp only [List.map_cons, List.cons_append, upTo]
    split
    · exact .inl ⟨rfl, rfl, ahead, rfl, rfl⟩
    · exact ih (b :: seen)

namespace Source.CutAt

variable (h : CutAt rest x y) (hrest : rest ≠ [])
include h hrest

theorem word : Scan.AgreeUpTo rest (Scan.word [] 0 x.events) (Scan.word [] 0 y.events) := by
  obtain ⟨ahead, hx, hy⟩ := h
  rw [hx, hy]
  exact Scan.word_cut hrest [] 0 ahead

theorem upTo (delimiter : UInt8) :
    Scan.AgreeUpTo rest (Scan.upTo delimiter [] x.events) (Scan.upTo delimiter [] y.events) := by
  obtain ⟨ahead, hx, hy⟩ := h
  rw [hx, hy]
  exact Scan.upTo_cut hrest delimiter [] ahead

theorem byte :
    ((readEvents y.events).1 = (readEvents x.events).1 ∧
        CutAt rest ⟨(readEvents x.events).2⟩ ⟨(readEvents y.events).2⟩) ∨
      (readEvents y.events).1 = .error .inputFailure ∧
        (readEvents x.events).2.length < rest.length := by
  obtain ⟨ahead, hx, hy⟩ := h
  rw [hx, hy]
  cases ahead with
  | nil =>
    obtain ⟨b, bs, rfl⟩ := List.exists_cons_of_ne_nil hrest
    exact .inr ⟨rfl, by simp [readEvents]⟩
  | cons b ahead => exact .inl ⟨rfl, ahead, rfl, rfl⟩

end Source.CutAt

/-! ### Machines in step up to the cut -/

namespace Exec

variable {m : Machine}

theorem parseWord_of_fault {f : Fault} (h : (Scan.word [] 0 m.input.events).fault = some f) :
    parseWord m = .error f (endState (parseWord m)) := by
  unfold parseWord
  generalize Scan.word [] 0 m.input.events = scan at h
  rcases scan with ⟨text, rest, _ | f'⟩ <;> cases h
  rfl

theorem parse_of_fault {delimiter : UInt8} {f : Fault}
    (h : (Scan.upTo delimiter [] m.input.events).fault = some f) :
    parse delimiter m = .error f (endState (parse delimiter m)) := by
  unfold parse
  generalize Scan.upTo delimiter [] m.input.events = scan at h
  rcases scan with ⟨text, rest, _ | f'⟩ <;> cases h
  rfl

theorem readByte_of_error {f : Fault} (h : (Source.readEvents m.input.events).1 = .error f) :
    onInput Source.read m = .error f (endState (onInput Source.read m)) := by
  rw [onInput_read_eq]
  generalize Source.readEvents m.input.events = read at h
  rcases read with ⟨_ | _, rest⟩ <;> cases h
  rfl

section Cut

variable (hrest : rest ≠ [])
include hrest

theorem tracks_parseWord_cut :
    Tracks (Abreast (Source.CutAt rest) Eq Eq) (fun s _ _ => s.input.events.length < rest.length)
      parseWord where
  inStep {s t} hst := by
    obtain hagree | ⟨hfault, hlength⟩ := hst.input.word hrest
    · exact .of_related (hst.parseWord hagree)
    · rw [parseWord_of_fault hfault]
      refine .out ?_
      rwa [endState_parseWord s]
  keeps _ _ := Source.KeptReading.keeps_parseWord fun _ => Source.keptReading_length_lt _

theorem tracks_parse_cut (delimiter : UInt8) :
    Tracks (Abreast (Source.CutAt rest) Eq Eq) (fun s _ _ => s.input.events.length < rest.length)
      (parse delimiter) where
  inStep {s t} hst := by
    obtain hagree | ⟨hfault, hlength⟩ := hst.input.upTo hrest delimiter
    · exact .of_related (hst.parse delimiter hagree)
    · rw [parse_of_fault hfault]
      refine .out ?_
      rwa [endState_parse delimiter s]
  keeps _ _ := Source.KeptReading.keeps_parse (fun _ => Source.keptReading_length_lt _) delimiter

theorem tracks_readByte_cut :
    Tracks (Abreast (Source.CutAt rest) Eq Eq) (fun s _ _ => s.input.events.length < rest.length)
      (onInput Source.read) where
  inStep {s t} hst := by
    obtain ⟨hread, hleft⟩ | ⟨hfault, hlength⟩ := hst.input.byte hrest
    · exact .of_related (hst.readByte hread hleft)
    · rw [readByte_of_error hfault]
      refine .out ?_
      rwa [endState_readByte s]
  keeps _ _ := Source.KeptReading.keeps_readByte fun _ => Source.keptReading_length_lt _

end Cut

end Exec

/-- Machines of which the second one's input fails at a place are in step, until the first one has
read on there. -/
theorem Machine.lockstep_cut (hrest : rest ≠ []) :
    Lockstep (Abreast (Source.CutAt rest) Eq Eq) (fun s _ _ => s.input.events.length < rest.length)
      fun _ _ => True := by
  refine .of_and_true (.of_reading (E := fun x _ _ _ => x.events.length < rest.length) (.const True)
    (fun _ _ _ => Source.keptReading_length_lt _) (Exec.tracks_parseWord_cut hrest)
    (Exec.tracks_parse_cut hrest) (Exec.tracks_readByte_cut hrest)
    (Exec.tracks_write (E := fun x _ _ => x.events.length < rest.length)) ?_ fun _ _ _ _ _ => id)
  simpa only [and_true] using
    Exec.tracks_endDefinition (E := fun x _ _ _ => x.events.length < rest.length)

/-! ### Coming to a place -/

namespace Machine

/-- Interpreting tokens of its input without a fault, the first machine becomes the second one. -/
inductive ComesTo : Machine → Machine → Prop
  /-- It is there. -/
  | refl (m : Machine) : ComesTo m m
  /-- It interprets a token, and comes there with those behind it. -/
  | next {m m₁ m₂ m' : Machine} {steps : Nat} (hparse : Exec.parseWord m = .ok () m₁)
    (htoken : m₁.token ≠ []) (hrun : m₁.interpretToken steps m₁.token = some (.ok () m₂))
    (hrest : ComesTo m₂ m') : ComesTo m m'

/-- The machine behind the next token, if there is one and it is interpreted without a fault. -/
def afterToken (steps : Nat) (m : Machine) : Option Machine :=
  match Exec.parseWord m with
  | .error _ _ => none
  | .ok _ m =>
    if m.token = [] then none
    else
      match m.interpretToken steps m.token with
      | some (.ok _ m) => some m
      | _ => none

namespace ComesTo

/-- What lasts is there still. -/
theorem keeps {P : Machine → Prop} (hP : Lasting P) (h : s.ComesTo s') (hs : P s) : P s' := by
  induction h with
  | refl m => exact hs
  | next hparse _ hrun _ ih =>
    have hparsed := hP.parseWord _ hs
    rw [hparse] at hparsed
    exact ih (hP.interpretToken hparsed hrun)

/-- A token that can be computed is one on the way. -/
theorem of_afterToken {steps : Nat} (h : s.afterToken steps = some s') : s.ComesTo s' := by
  unfold afterToken at h
  cases hparse : Exec.parseWord s with
  | error e s₁ =>
    rw [hparse] at h
    cases h
  | ok _ s₁ =>
    simp only [hparse] at h
    split at h
    · cases h
    · rename_i htoken
      split at h
      · rename_i hrun
        cases h
        exact .next hparse htoken hrun (.refl s')
      · cases h

/-- The tokens on the way do not matter any more. -/
theorem sameEnd (h : s.ComesTo s') : SameEnd s s' := by
  induction h with
  | refl m => exact fun r => Iff.rfl
  | next hparse htoken hrun _ ih => exact (sameEnd_of_interpretToken hparse htoken hrun).trans ih

/-- A machine that has not read on in the end could as well have met a failure there. -/
theorem cut (hrest : rest ≠ []) (h : s.ComesTo s') (hleft : rest.length ≤ s'.input.events.length)
    (hst : Abreast (Source.CutAt rest) Eq Eq s t) :
    ∃ t', t.ComesTo t' ∧ Abreast (Source.CutAt rest) Eq Eq s' t' := by
  have hlasting : Lasting fun m => m.input.events.length < rest.length :=
    (lockstep_cut hrest).lasting .inputFailure t
  induction h generalizing t with
  | refl m => exact ⟨t, .refl t, hst⟩
  | @next m m₁ m₂ m' steps hparse htoken hrun hmore ih =>
    have hkept := keeps hlasting hmore
    have hread := (Exec.tracks_parseWord_cut hrest).inStep hst
    rw [hparse] at hread
    generalize hparse' : Exec.parseWord t = r at hread
    cases hread with
    | out hout =>
      -- A machine that has read past the cut stays past it, and so does not end before it.
      have hpast := hkept (hlasting.interpretToken hout hrun)
      exact absurd hpast (Nat.not_lt.mpr hleft)
    | @ok _ _ t₁ hst₁ =>
      have hstep := (lockstep_cut hrest).interpretToken steps m₁.token hst₁ fun _ _ => trivial
      rw [hrun] at hstep
      generalize hrun' : t₁.interpretToken steps m₁.token = o at hstep
      cases hstep with
      | finished hr =>
        cases hr with
        | out hout => exact absurd (hkept hout) (Nat.not_lt.mpr hleft)
        | ok hst₂ =>
          obtain ⟨t', ht', hst'⟩ := ih hleft hst₂
          have htoken' := hst₁.token_eq
          exact ⟨t', .next hparse' (htoken' ▸ htoken) (htoken' ▸ hrun') ht', hst'⟩

/-- Where the input fails, it could as well go on. -/
theorem uncut (hrest : rest ≠ []) (h : t.ComesTo t') (hst : Abreast (Source.CutAt rest) Eq Eq s t) :
    ∃ s', s.ComesTo s' ∧ Abreast (Source.CutAt rest) Eq Eq s' t' := by
  induction h generalizing s with
  | refl m => exact ⟨s, .refl s, hst⟩
  | @next m m₁ m₂ m' steps hparse htoken hrun hmore ih =>
    have hread := (Exec.tracks_parseWord_cut hrest).inStep hst
    rw [hparse] at hread
    generalize hparse' : Exec.parseWord s = r at hread
    cases hread with
    | @ok _ s₁ _ hst₁ =>
      have hstep := (lockstep_cut hrest).interpretToken steps m₁.token hst₁ fun _ _ => trivial
      rw [hrun] at hstep
      generalize hrun' : s₁.interpretToken steps m₁.token = o at hstep
      cases hstep with
      | finished hr =>
        cases hr with
        | ok hst₂ =>
          obtain ⟨s', hs', hst'⟩ := ih hst₂
          have htoken' := hst₁.token_eq
          exact ⟨s', .next hparse' (htoken' ▸ htoken) (htoken' ▸ hrun') hs', hst'⟩

end ComesTo

end Machine

/-! ### Exchanging what lies ahead -/

/-- The sources read the same bytes, and from there on each its own. -/
def Source.Parts (rest rest' : List UInt8) (x y : Source) : Prop :=
  ∃ ahead, x = .ofBytes (ahead ++ rest) ∧ y = .ofBytes (ahead ++ rest')

theorem Source.CutAt.parts {z : Source} (hx : CutAt rest x z) (hy : CutAt rest' y z) :
    Parts rest rest' x y := by
  obtain ⟨ahead, hx, hz⟩ := hx
  obtain ⟨ahead', hy, hz'⟩ := hy
  have hahead : ahead = ahead' := by
    have hmap := List.append_cancel_right (hz.symm.trans hz')
    exact List.map_injective_iff.mpr (fun _ _ h => ReadEvent.byte.inj h) hmap
  subst hahead
  exact ⟨ahead, congrArg Source.mk hx, congrArg Source.mk hy⟩

namespace Machine

/-- Machines that are both abreast of a third one are so with each other. -/
theorem Abreast.parts {u : Machine} (hs : Abreast (Source.CutAt rest) Eq Eq s u)
    (ht : Abreast (Source.CutAt rest') Eq Eq t u) :
    Abreast (Source.Parts rest rest') Eq Eq s t where
  same := by
    have hback := congrArg (withDevices t.input t.output t.journal) ht.same
    have hthere := congrArg (withDevices t.input t.output t.journal) hs.same
    exact hback.symm.trans hthere
  input := hs.input.parts ht.input
  output := hs.output.trans ht.output.symm
  verbosity := hs.verbosity.trans ht.verbosity.symm

/-- **What lies ahead can be exchanged.** If a machine comes to a place without having read on, it
comes there as well if something else follows in its input. -/
theorem ComesTo.exchange (hrest : rest ≠ []) (hrest' : rest' ≠ []) (h : s.ComesTo s')
    (hleft : rest.length ≤ s'.input.events.length)
    (hst : Abreast (Source.Parts rest rest') Eq Eq s t) :
    ∃ t', t.ComesTo t' ∧ Abreast (Source.Parts rest rest') Eq Eq s' t' := by
  obtain ⟨ahead, hs, ht⟩ := hst.input
  have hcut : Abreast (Source.CutAt rest) Eq Eq s
      { s with input := ⟨ahead.map .byte ++ [.failure]⟩ } :=
    ⟨rfl, ⟨ahead, congrArg Source.events hs, rfl⟩, rfl, rfl⟩
  have hcut' : Abreast (Source.CutAt rest') Eq Eq t
      { s with input := ⟨ahead.map .byte ++ [.failure]⟩ } := by
    refine ⟨?_, ⟨ahead, congrArg Source.events ht, rfl⟩, hst.output.symm, hst.verbosity.symm⟩
    exact (congrArg (withDevices ⟨ahead.map .byte ++ [.failure]⟩ s.output s.journal) hst.same).symm
  obtain ⟨u, hu, hsu⟩ := h.cut hrest hleft hcut
  obtain ⟨t', ht', htu⟩ := hu.uncut hrest' hcut'
  exact ⟨t', ht', hsu.parts htu⟩

end Machine

end CellForth
