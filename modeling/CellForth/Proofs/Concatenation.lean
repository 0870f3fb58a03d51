import CellForth.Proofs.Abreast
import CellForth.Proofs.Following
import CellForth.Proofs.Poison

/-!
# Texts evaluated one after the other

A text may be cut between two tokens, and its parts evaluated in turn: words, numbers and the
control structures that span the cut do not see it. So definitions can be entered line by line.

Five actions look at the input themselves: comments and strings read up to their delimiter, `key`
takes the byte that follows, and a host may have given a name to reading a token as well. One that
comes to the end of the first part would have gone on into the second, so there must be none
(`Action.meetsEnd`). A name cannot be missing, since the first part would have ended with a fault.

Compared are the machine that reads the whole text, and the one that reads its first part. They take
the tokens of the first part in step. Then the one comes to the end and is given the second part,
the other goes on, and both see the same input: what is left between them is white space.
-/

namespace CellForth

open Machine (Abreast)

/-! ### Reading a text that goes on -/

theorem Text.bytes_append (a b : String) : bytes (a ++ b) = bytes a ++ bytes b := by
  simp [bytes]

theorem Text.bytes_newline_append (a : String) : bytes ("\n" ++ a) = Ascii.lineFeed :: bytes a := by
  have hline : bytes "\n" = [Ascii.lineFeed] := by decide +kernel
  rw [bytes_append, hline, List.singleton_append]

/-- The first source goes on where the second one ends: behind it follows the end of a line, which
may have been used up with the last token, and then the given bytes. -/
def Source.Extends (bs : List UInt8) (x y : Source) : Prop :=
  (∃ ahead, y.events = ahead.map .byte ∧ x.events = (ahead ++ Ascii.lineFeed :: bs).map .byte) ∨
    y.events = [] ∧ x.events = bs.map .byte

variable {bs : List UInt8} {x y : Source}

/-- A scan for a token either finds one in the shorter input, and then in both, or has to go on in
the longer one as if it began there. -/
theorem Scan.word_append (bs seen ahead : List UInt8) :
    (word seen seen.length (ahead.map .byte)).text = [] ∧
        (word seen seen.length (ahead.map .byte)).fault = none ∧
        word seen seen.length ((ahead ++ Ascii.lineFeed :: bs).map .byte) =
          word [] 0 (bs.map .byte) ∨
      (word seen seen.length (ahead.map .byte)).text ≠ [] ∧
        Scan.Agree (Source.Extends bs)
          (word seen seen.length ((ahead ++ Ascii.lineFeed :: bs).map .byte))
          (word seen seen.length (ahead.map .byte)) := by
  induction ahead generalizing seen with
  | nil =>
    -- A token that has begun ends here: for the longer input at the end of the line.
    cases seen with
    | nil => exact .inl ⟨rfl, rfl, rfl⟩
    | cons c seen => exact .inr ⟨by simp [word], rfl, rfl, .inr ⟨rfl, rfl⟩⟩
  | cons b ahead ih =>
    simp only [List.map_cons, List.cons_append, word]
    by_cases hspace : isSpace b = true
    · simp only [if_pos hspace]
      cases seen with
      | nil => exact ih []
      | cons c seen =>
        simp only [List.length_cons, Nat.add_one_ne_zero, if_false]
        exact .inr ⟨by simp, rfl, rfl, .inl ⟨ahead, rfl, rfl⟩⟩
    · simp only [if_neg hspace]
      split
      · exact ih (b :: seen)
      · rename_i hlong
        refine .inr ⟨?_, rfl, rfl, .inl ⟨ahead, rfl, rfl⟩⟩
        rintro hnil
        rw [List.reverse_eq_nil_iff.mp hnil] at hlong
        exact hlong (by decide)

theorem Source.Extends.word (h : Extends bs x y) :
    (Scan.word [] 0 y.events).text = [] ∧ (Scan.word [] 0 y.events).fault = none ∧
        Scan.word [] 0 x.events = Scan.word [] 0 (bs.map .byte) ∨
      (Scan.word [] 0 y.events).text ≠ [] ∧
        Scan.Agree (Extends bs) (Scan.word [] 0 x.events) (Scan.word [] 0 y.events) := by
  obtain ⟨ahead, hy, hx⟩ | ⟨hy, hx⟩ := h
  · rw [hy, hx]
    exact Scan.word_append bs [] ahead
  · rw [hy, hx]
    exact .inl ⟨rfl, rfl, rfl⟩

theorem Scan.upTo_append (bs seen : List UInt8) {delimiter : UInt8} {ahead : List UInt8}
    (h : delimiter ∈ ahead) :
    Scan.Agree (Source.Extends bs)
      (upTo delimiter seen ((ahead ++ Ascii.lineFeed :: bs).map .byte))
      (upTo delimiter seen (ahead.map .byte)) := by
  induction ahead generalizing seen with
  | nil => cases h
  | cons b ahead ih =>
    simp only [List.map_cons, List.cons_append, upTo]
    by_cases hb : b = delimiter
    · simp only [if_pos hb]
      exact ⟨rfl, rfl, .inl ⟨ahead, rfl, rfl⟩⟩
    · simp only [if_neg hb]
      exact ih (b :: seen) ((List.mem_cons.mp h).resolve_left fun heq => hb heq.symm)

/-- A delimiter that is in the shorter input is found in both. -/
theorem Source.Extends.upTo {delimiter : UInt8} (h : Extends bs x y)
    (hin : .byte delimiter ∈ y.events) :
    Scan.Agree (Extends bs) (Scan.upTo delimiter [] x.events)
      (Scan.upTo delimiter [] y.events) := by
  obtain ⟨ahead, hy, hx⟩ | ⟨hy, hx⟩ := h
  · rw [hy] at hin
    obtain ⟨b, hb, hbyte⟩ := List.mem_map.mp hin
    cases hbyte
    rw [hy, hx]
    exact Scan.upTo_append bs [] hb
  · rw [hy] at hin
    cases hin

/-- So is the next byte. -/
theorem Source.Extends.byte (h : Extends bs x y) (hmore : y.events ≠ []) :
    (readEvents y.events).1 = (readEvents x.events).1 ∧
      Extends bs ⟨(readEvents x.events).2⟩ ⟨(readEvents y.events).2⟩ := by
  obtain ⟨ahead, hy, hx⟩ | ⟨hy, hx⟩ := h
  · rw [hy, hx]
    cases ahead with
    | nil => exact absurd hy hmore
    | cons b ahead => exact ⟨rfl, .inl ⟨ahead, rfl, rfl⟩⟩
  · exact absurd hy hmore

/-! ### Taking actions in step -/

/-- Does the action read the input itself, and come to its end? -/
def Action.meetsEnd (action : Action) (m : Machine) : Bool :=
  match action with
  | key => m.input.events.isEmpty
  | parseWord => (Scan.word [] 0 m.input.events).text.isEmpty
  | _ => action.delimiter?.any fun delimiter => !m.input.events.contains (.byte delimiter)

namespace Exec

/-- What reading a token does. -/
theorem token_of_parseWord {m m' : Machine} (h : parseWord m = .ok () m') :
    m'.token = (Scan.word [] 0 m.input.events).text ∧
      m' = { m with token := m'.token, input := m'.input } := by
  unfold parseWord at h
  generalize Scan.word [] 0 m.input.events = scan at h
  obtain ⟨text, rest, fault⟩ := scan
  cases fault with
  | none =>
    cases h
    exact ⟨rfl, rfl⟩
  | some f => cases h

/-- A name that is there is read in step; one that is missing puts the shorter input out. -/
theorem tracks_parseName_extends (bs : List UInt8) :
    Tracks (Abreast (Source.Extends bs) Eq Eq) (fun _ _ _ => True) parseName where
  inStep {s t} hst := by
    obtain ⟨htext, hfault, -⟩ | ⟨-, hscan⟩ := hst.input.word
    · have hmissing : parseName t = .error .unexpectedEnd
          { t with token := [], input := ⟨(Scan.word [] 0 t.input.events).rest⟩ } := by
        have hparse : parseWord t =
            .ok () { t with token := [], input := ⟨(Scan.word [] 0 t.input.events).rest⟩ } := by
          unfold parseWord
          generalize Scan.word [] 0 t.input.events = scan at htext hfault
          obtain ⟨text, rest, fault⟩ := scan
          cases htext
          cases hfault
          rfl
        exact bind_of_ok hparse
      rw [hmissing]
      exact .out trivial
    · exact (InStep.of_related (hst.parseWord hscan)).bind
        (fun _ _ _ _ hst' => (Inward.look fun _ _ _ _ => rfl).tracks (E := fun _ _ _ _ => True)
          |>.inStep hst') fun _ _ _ => .observe _
  keeps _ _ _ _ := trivial

end Exec

/-- Machines of which one's input goes on where the other's ends are in step, but for the actions
that meet this end. -/
theorem Machine.lockstep_extends (bs : List UInt8) :
    Lockstep (Abreast (Source.Extends bs) Eq Eq) (fun _ _ _ => True)
      fun action t => action.meetsEnd t = false := by
  have hereditary :=
    Abreast.hereditary (E := fun _ _ _ _ => True) (Exec.tracks_parseName_extends bs)
      (Exec.tracks_write (E := fun _ _ _ => True))
      (Exec.tracks_endDefinition (E := fun _ _ _ _ => True))
  refine ⟨hereditary, hereditary.lasting_out (E := fun _ _ _ _ => True) fun _ _ _ => .const _,
    fun {action s t} hst hC => ?_, Abreast.regs_eq, Abreast.token_eq, Abreast.retoken,
    fun _ => id⟩
  have hdelimited {d : UInt8} (hd : action.delimiter? = some d)
      (hmore : (!t.input.events.contains (.byte d)) = false) :
      InStep (Abreast (Source.Extends bs) Eq Eq) (fun _ _ _ => True) (action.step s)
        (action.step t) := by
    have hin : .byte d ∈ t.input.events := by simpa using hmore
    obtain ⟨rest, hstep, hrest⟩ := hereditary.step_of_delimiter hd
    rw [hstep]
    exact (InStep.of_related (hst.parse d (hst.input.upTo hin))).bind
      (fun text _ _ _ hst' => (hrest text).inStep hst') fun text => (hrest text).keeps
  have hadd (name : String) {action : Action} (_ : action.readsW = false) := Exec.tracks_addRuntime
    (I := Source.Extends bs) (O := Eq) (V := Eq) (E := fun _ _ _ _ => True) name action
  -- Only the actions that read the input themselves could see where it ends.
  cases hreads : action.reads with
  | true =>
    unfold Action.reads at hreads
    split at hreads
    · exact hdelimited rfl hC
    · exact hdelimited rfl hC
    · exact hdelimited rfl hC
    · have hmore : t.input.events ≠ [] := by simpa [Action.meetsEnd] using hC
      obtain ⟨rest, hstep, hrest⟩ := hereditary.step_key
      have hread := hst.input.byte hmore
      rw [hstep]
      exact (InStep.of_related (hst.readByte hread.1 hread.2)).bind
        (fun b _ _ _ hst' => (hrest b).inStep hst') fun b => (hrest b).keeps
    · have hmore : (Scan.word [] 0 t.input.events).text ≠ [] := by simpa [Action.meetsEnd] using hC
      obtain ⟨htext, -⟩ | ⟨-, hscan⟩ := hst.input.word
      · exact absurd htext hmore
      · exact .of_related (hst.parseWord hscan)
    · cases hreads
  | false =>
    cases hinstalls : action.installs with
    | false => exact (hereditary.step_of_reads_names hreads hinstalls).inStep hst
    | true => exact (hereditary.step_of_installs hadd hinstalls).inStep hst

/-! ### Coming to the same end -/

namespace Machine

/-- From both machines, interpreting comes to the same end, or to none. -/
def SameEnd (s t : Machine) : Prop :=
  ∀ r, (∃ steps, s.interpret steps = some r) ↔ ∃ steps, t.interpret steps = some r

variable {s t t' : Machine}

theorem SameEnd.trans {u : Machine} (h : SameEnd s t) (h' : SameEnd t u) : SameEnd s u :=
  fun r => (h r).trans (h' r)

theorem SameEnd.exists_map (h : SameEnd s t) {α : Type} (f : EStateM.Result Fault Machine Unit → α)
    (a : α) : (∃ steps, (s.interpret steps).map f = some a) ↔
      ∃ steps, (t.interpret steps).map f = some a := by
  simp only [Option.map_eq_some_iff]
  constructor
  · rintro ⟨steps, r, hrun, ha⟩
    obtain ⟨steps', hrun'⟩ := (h r).mp ⟨steps, hrun⟩
    exact ⟨steps', r, hrun', ha⟩
  · rintro ⟨steps, r, hrun, ha⟩
    obtain ⟨steps', hrun'⟩ := (h r).mpr ⟨steps, hrun⟩
    exact ⟨steps', r, hrun', ha⟩

/-- Of the input, only what is read next matters. -/
theorem sameEnd_of_parseWord_eq (h : Exec.parseWord s = Exec.parseWord t) : SameEnd s t := by
  have heq (steps : Nat) : s.interpret steps = t.interpret steps := by
    unfold interpret
    rw [h]
  intro r
  simp only [heq]

/-- A token that has been interpreted with success does not matter any more. -/
theorem sameEnd_of_interpretToken {steps : Nat} (hparse : Exec.parseWord s = .ok () t)
    (htoken : t.token ≠ []) (hrun : t.interpretToken steps t.token = some (.ok () t')) :
    SameEnd s t' := by
  have hstep (n : Nat) : s.interpret (steps + n + 1) = t'.interpret (steps + n) := by
    rw [interpret_succ _ hparse htoken, interpretToken_add hrun n]
  refine fun r => ⟨fun ⟨n, hn⟩ => ⟨steps + n, ?_⟩, fun ⟨n, hn⟩ => ⟨steps + n + 1, ?_⟩⟩
  · rw [← hstep, Nat.add_assoc, Nat.add_left_comm]
    exact interpret_add hn (steps + 1)
  · rw [hstep, Nat.add_comm]
    exact interpret_add hn steps

/-- At the end of the shorter input, the rest is what matters of the longer one. -/
theorem sameEnd_of_extends_of_nil {bs : List UInt8} (hst : Abreast (Source.Extends bs) Eq Eq s t)
    (hparse : Exec.parseWord t = .ok () t') (hnil : t'.token = []) :
    ∃ s', SameEnd s s' ∧ Abreast Eq Eq Eq s' { t' with input := .ofBytes bs } := by
  obtain ⟨htoken, hother⟩ := Exec.token_of_parseWord hparse
  obtain ⟨-, -, hlong⟩ | ⟨htext, -⟩ := hst.input.word
  · refine ⟨{ s with token := [], input := .ofBytes bs }, sameEnd_of_parseWord_eq ?_, ?_⟩
    · unfold Exec.parseWord
      rw [hlong]
      rfl
    · rw [hother, hnil]
      exact (hst.retoken []).reinput rfl
  · exact absurd (htoken.symm.trans hnil) htext

/-- If the shorter input is interpreted with success and no action meets its end, then the machine
with the longer one comes to where the other is given the rest. -/
theorem sameEnd_of_extends {bs : List UInt8} {steps : Nat}
    (hst : Abreast (Source.Extends bs) Eq Eq s t)
    (hmet : ∀ p ∈ t.performed steps, p.1.meetsEnd p.2 = false)
    (hrun : t.interpret steps = some (.ok () t')) :
    ∃ s', SameEnd s s' ∧ Abreast Eq Eq Eq s' { t' with input := .ofBytes bs } := by
  induction steps generalizing s t with
  | zero =>
    obtain ⟨hparse, hnil⟩ | ⟨n, _, _, hsteps, -⟩ := interpret_ok_cases hrun
    · exact sameEnd_of_extends_of_nil hst hparse hnil
    · cases hsteps
  | succ steps ih =>
    obtain ⟨hparse, hnil⟩ | ⟨n, t₁, t₂, hsteps, hparse, htoken, hfirst, hrest⟩ :=
      interpret_ok_cases hrun
    · exact sameEnd_of_extends_of_nil hst hparse hnil
    · cases hsteps
      rw [performed_succ hparse htoken hfirst] at hmet
      obtain ⟨htext, -⟩ | ⟨-, hscan⟩ := hst.input.word
      · exact absurd ((Exec.token_of_parseWord hparse).1.trans htext) htoken
      · -- The token is in the shorter input, so both machines read it, and interpret it in step.
        obtain ⟨_, s₁, hparse', -, hst₁⟩ := (hst.parseWord hscan).of_eq_ok hparse
        have htoken' : s₁.token ≠ [] := hst₁.token_eq ▸ htoken
        have hstep := (lockstep_extends bs).interpretToken steps t₁.token hst₁ fun p hp =>
          hmet p (List.mem_append_left _ hp)
        rw [hfirst, hst₁.token_eq] at hstep
        generalize hfirst' : s₁.interpretToken steps s₁.token = o at hstep
        cases hstep with
        | finished hr =>
          cases hr with
          | ok hst₂ =>
            obtain ⟨s', hend, hst'⟩ :=
              ih hst₂ (fun p hp => hmet p (List.mem_append_right _ hp)) hrest
            exact ⟨s', (sameEnd_of_interpretToken hparse' htoken' hfirst').trans hend, hst'⟩

/-! ### Evaluating in turn -/

/-- Evaluating the text ends with the result, input and journal apart. -/
def Evaluates (m : Machine) (text : String) (r : HostResult Unit) : Prop :=
  ∃ steps, (m.evaluate steps text).map (mapState core) = some r

theorem Evaluates.unique {m : Machine} {text : String} {r r' : HostResult Unit}
    (h : m.Evaluates text r) (h' : m.Evaluates text r') : r = r' := by
  obtain ⟨n, hn⟩ := h
  obtain ⟨n', hn'⟩ := h'
  cases hpoison : m.poison? with
  | some f =>
    simp only [evaluate, hpoison] at hn hn'
    exact Option.some.inj (hn.symm.trans hn')
  | none =>
    simp only [evaluate_eq_of_poison?_eq_none hpoison, Option.map_map,
      Option.map_eq_some_iff] at hn hn'
    obtain ⟨end₁, hrun, rfl⟩ := hn
    obtain ⟨end₂, hrun', rfl⟩ := hn'
    -- With steps for both, the two runs are the same one.
    have heq := (interpret_add hrun n').symm.trans (Nat.add_comm n n' ▸ interpret_add hrun' n)
    rw [Option.some.inj heq]

/-- The texts have been evaluated one after the other with success, and no action has met the end of
one of them. -/
inductive EvaluatedInTurn : Machine → List String → Machine → Prop
  /-- No text. -/
  | nil (m : Machine) : EvaluatedInTurn m [] m
  /-- A text, and others after it. -/
  | cons {m m₁ m' : Machine} {steps : Nat} {text : String} {texts : List String}
    (hfirst : m.evaluate steps text = some (.ok () m₁))
    (hmet : ∀ p ∈ (m.setText text).performed steps, p.1.meetsEnd p.2 = false)
    (hrest : EvaluatedInTurn m₁ texts m') : EvaluatedInTurn m (text :: texts) m'

variable {m m₁ m' : Machine}

theorem interpret_of_evaluate_ok {steps : Nat} {text : String}
    (h : m.evaluate steps text = some (.ok () m₁)) :
    m.poison? = none ∧ (m.setText text).interpret steps = some (.ok () m₁) := by
  cases hpoison : m.poison? with
  | some f =>
    simp only [evaluate, hpoison] at h
    cases h
  | none =>
    rw [evaluate_eq_of_poison?_eq_none hpoison] at h
    obtain ⟨r, hrun, hend⟩ := Option.map_eq_some_iff.mp h
    cases r with
    | error f m₂ =>
      rw [finishRun_error] at hend
      cases hend
    | ok _ m₂ =>
      rw [finishRun_ok] at hend
      split at hend
      · cases hend
      · cases hend
        exact ⟨rfl, hrun⟩

theorem evaluates_append {steps : Nat} {a : String}
    (hfirst : m.evaluate steps a = some (.ok () m₁))
    (hmet : ∀ p ∈ (m.setText a).performed steps, p.1.meetsEnd p.2 = false)
    (b : String) (r : HostResult Unit) :
    m₁.Evaluates b r ↔ m.Evaluates (a ++ "\n" ++ b) r := by
  obtain ⟨hpoison, hrun⟩ := interpret_of_evaluate_ok hfirst
  have hpoison₁ : m₁.poison? = none :=
    (Elementary.poison?_eq none).lasting.interpret (m := m.setText a) hpoison hrun
  have hbytes : Text.bytes (a ++ "\n" ++ b) = Text.bytes a ++ Ascii.lineFeed :: Text.bytes b := by
    rw [String.append_assoc, Text.bytes_append, Text.bytes_newline_append]
  have hst : Abreast (Source.Extends (Text.bytes b)) Eq Eq (m.setText (a ++ "\n" ++ b))
      (m.setText a) := by
    refine ⟨rfl, .inl ⟨Text.bytes a, rfl, ?_⟩, rfl, by simp [setText, report]⟩
    exact congrArg (List.map ReadEvent.byte) hbytes
  obtain ⟨s', hend, hst'⟩ := sameEnd_of_extends hst hmet hrun
  have hnext : Abreast Eq Eq Eq s' (m₁.setText b) :=
    hst'.rejournal (by simpa [report] using hst'.verbosity)
  simp only [Evaluates, evaluate_eq_of_poison?_eq_none hpoison,
    evaluate_eq_of_poison?_eq_none hpoison₁, Option.map_map]
  rw [hend.exists_map]
  exact exists_congr fun n => by rw [hnext.interpret_core_eq .eq n]

/-- Texts that have been evaluated in turn, and one more: its result is that of all of them
together, one to a line. -/
theorem EvaluatedInTurn.evaluates_iff {texts : List String} (h : EvaluatedInTurn m texts m')
    (text : String) (r : HostResult Unit) :
    m'.Evaluates text r ↔ m.Evaluates (texts.foldr (fun a rest => a ++ "\n" ++ rest) text) r := by
  induction h with
  | nil m => exact Iff.rfl
  | cons hfirst hmet _ ih => exact ih.trans (evaluates_append hfirst hmet _ r)

/-- A definition with a comment, cut in its middle. -/
theorem EvaluatedInTurn.evaluates_iff_definition :
    ∃ m m₁ : Machine, EvaluatedInTurn m [": two ( n) 1"] m₁ ∧
      (∀ r, m₁.Evaluates "1 + ; two" r ↔ m.Evaluates ": two ( n) 1\n1 + ; two" r) ∧
      ∃ r, m₁.Evaluates "1 + ; two" r ∧ (endState r).dataStack.items = [2] := by
  let m := knowing [⟨":", .define .colon, false⟩, ⟨";", .define .semicolon, true⟩,
    ⟨"(", .define .paren, true⟩, ⟨"+", .binary .add, false⟩] .off
  have hmet : ∀ p ∈ (m.setText ": two ( n) 1").performed 9, p.1.meetsEnd p.2 = false := by
    decide +kernel
  have hok : (m.evaluate 9 ": two ( n) 1").map error? = some none := by decide +kernel
  obtain ⟨m₁, hfirst⟩ := exists_ok_of_error?_eq_none hok
  have hturn : EvaluatedInTurn m [": two ( n) 1"] m₁ := .cons hfirst hmet (.nil m₁)
  have hall : ((m.evaluate 20 ": two ( n) 1\n1 + ; two").map (mapState core)).map
      (fun r => (endState r).dataStack.items) = some [2] := by decide +kernel
  obtain ⟨r, hr, hitems⟩ := Option.map_eq_some_iff.mp hall
  have hiff (r : HostResult Unit) :
      m₁.Evaluates "1 + ; two" r ↔ m.Evaluates ": two ( n) 1\n1 + ; two" r :=
    hturn.evaluates_iff "1 + ; two" r
  exact ⟨m, m₁, hturn, hiff, r, (hiff r).mpr ⟨20, hr⟩, hitems⟩

/-- What reads a token sees where the text ends, and so does a comment, whatever its name: behind
the end of the first text, the second one is interpreted, and behind the end of the line it is
skipped. -/
theorem evaluates_apart_at_end :
    ∃ m : Machine, m.poison? = none ∧
      ∀ w ∈ [("pw", Action.parseWord), ("note", .define .paren)], ∃ m₁ r,
        ((m.setText w.1).performed 9).map Prod.fst = [w.2] ∧
        m.evaluate 9 w.1 = some (.ok () m₁) ∧ m₁.Evaluates "1" r ∧
        ¬ m.Evaluates (w.1 ++ "\n" ++ "1") r := by
  let words : List (String × Action) := [("pw", .parseWord), ("note", .define .paren)]
  let m := knowing (words.map fun w => ⟨w.1, w.2, false⟩) .off
  refine ⟨m, by decide +kernel, fun w hw => ?_⟩
  have hperformed : ∀ w ∈ words, ((m.setText w.1).performed 9).map Prod.fst = [w.2] := by
    decide +kernel
  have hturn : ∀ w ∈ words, (m.evaluate 9 w.1).map error? = some none ∧
      ((m.evaluate 9 w.1).bind fun r => ((endState r).evaluate 9 "1").map
        fun r => (endState (mapState core r)).dataStack.items) = some [1] := by decide +kernel
  have hwhole : ∀ w ∈ words,
      ((m.evaluate 9 (w.1 ++ "\n" ++ "1")).map (mapState core)).map
        (fun r => (endState r).dataStack.items) = some [] := by decide +kernel
  obtain ⟨m₁, hfirst⟩ := exists_ok_of_error?_eq_none (hturn w hw).1
  have hsecond := (hturn w hw).2
  rw [hfirst] at hsecond
  obtain ⟨r, hr, hone⟩ := Option.map_eq_some_iff.mp hsecond
  obtain ⟨r', hr', hnone⟩ := Option.map_eq_some_iff.mp (hwhole w hw)
  refine ⟨m₁, mapState core r, hperformed w hw, hfirst,
    ⟨9, congrArg (Option.map (mapState core)) hr⟩, fun h => ?_⟩
  rw [h.unique ⟨9, hr'⟩, hnone] at hone
  cases hone

end Machine

end CellForth
