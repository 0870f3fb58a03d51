import CellForth.Proofs.LookAhead
import CellForth.Proofs.TopLevel
import CellForth.Proofs.WordRegister

/-!
# Comments to the end of the line

The word `\` discards what follows it up to the end of the line. A text with such a comment is
therefore evaluated as the text without it, `Machine.backslash_discards_line`. Only the register `w`
tells the two apart in the end, since the word has been looked up.

A token takes the byte behind it with it. If the line ends right behind `\`, this byte is the end of
the line, and what the word discards is the line after it.

The machine with the comment comes to the word, runs it, and goes on behind the line
(`Machine.sameEnd_of_backslash`). The other machine comes to the same place, since what lies ahead
there can be exchanged, and skips the white space that is left of the line
(`Machine.sameEnd_of_blank`). From there on both read the same.
-/

namespace CellForth

open Machine (Abreast)

/-! ### Reading white space and lines -/

theorem Text.bytes_eq_nil_iff {s : String} : bytes s = [] ↔ s = "" := by
  constructor
  · intro h
    have hdata : s.toByteArray.data = #[] := by simpa [bytes] using h
    exact String.toByteArray_inj.mp (ByteArray.ext (by simpa using hdata))
  · rintro rfl
    rfl

theorem Scan.word_of_blank {blank : List UInt8} (hblank : ∀ b ∈ blank, isSpace b = true)
    (events : List ReadEvent) : word [] 0 (blank.map .byte ++ events) = word [] 0 events := by
  induction blank with
  | nil => rfl
  | cons b blank ih =>
    rw [List.forall_mem_cons] at hblank
    simp only [List.map_cons, List.cons_append, word, hblank.1, if_true]
    exact ih hblank.2

/-- What is not the delimiter is read over. -/
theorem Scan.upTo_of_notMem {delimiter : UInt8} {line : List UInt8} (hline : delimiter ∉ line)
    (seen : List UInt8) (events : List ReadEvent) :
    upTo delimiter seen (line.map .byte ++ events) =
      upTo delimiter (line.reverse ++ seen) events := by
  induction line generalizing seen with
  | nil => rfl
  | cons b line ih =>
    simp only [List.mem_cons, not_or] at hline
    have hb : b ≠ delimiter := fun h => hline.1 h.symm
    simp only [List.map_cons, List.cons_append, upTo, hb, if_false, ih hline.2, List.reverse_cons,
      List.append_assoc, List.nil_append]

/-- A line is read with its end. -/
theorem Scan.rest_upTo_line {delimiter : UInt8} {line : List UInt8} (hline : delimiter ∉ line)
    (rest : List UInt8) :
    ∃ text, upTo delimiter [] ((line ++ delimiter :: rest).map .byte) =
      ⟨text, rest.map .byte, none⟩ := by
  rw [List.map_append, upTo_of_notMem hline, List.map_cons, upTo, if_pos rfl]
  exact ⟨_, rfl⟩

/-- The last line need not have an end. -/
theorem Scan.rest_upTo_last {delimiter : UInt8} {line : List UInt8} (hline : delimiter ∉ line) :
    ∃ text, upTo delimiter [] (line.map .byte) = ⟨text, [], none⟩ := by
  have hread := upTo_of_notMem hline [] []
  rw [List.append_nil] at hread
  exact ⟨_, hread⟩

namespace Machine

variable {m m₀ : Machine}

/-- White space in front does not matter, and neither does the token that was read last. -/
theorem sameEnd_of_blank {blank rest : List UInt8} (hinput : m.input = .ofBytes (blank ++ rest))
    (hblank : ∀ b ∈ blank, isSpace b = true) (token : List UInt8) :
    SameEnd m { m with token := token, input := .ofBytes rest } := by
  refine sameEnd_of_parseWord_eq ?_
  have hscan : Scan.word [] 0 m.input.events = Scan.word [] 0 (rest.map .byte) := by
    rw [hinput, Source.ofBytes, List.map_append]
    exact Scan.word_of_blank hblank _
  unfold Exec.parseWord
  rw [hscan]
  rfl

/-! ### Running the word -/

/-- The action that a token runs: that of the opcode in the code field of its word, unless the word
is to be compiled. The code field must not be mistaken for an opcode. -/
def runs? (m : Machine) (token : List UInt8) : Option Action :=
  match m.find token with
  | .ok (some r) =>
    match m.memory.get (UInt16.ofNat r.codeField).toNat with
    | .ok code =>
      if m.table.size ≤ (UInt16.ofNat r.codeField).toNat ∧
          (m.regs.isCompiling && !r.isImmediate) = false then
        m.table[code.toNat]?
      else none
    | .error _ => none
  | _ => none

theorem execute_of_runs? {token : List UInt8} {action : Action} (h : m.runs? token = some action)
    (hexecute : action ≠ .execute) (hresume : action ≠ .resume) :
    ∃ r, m.find token = .ok (some r) ∧ (m.regs.isCompiling && !r.isImmediate) = false ∧
      Exec.execute (UInt16.ofNat r.codeField) { m with token := [] } =
        (action.step >>= fun _ => pure Continuation.done)
          (withW (UInt16.ofNat r.codeField) { m with token := [] }) := by
  unfold runs? at h
  split at h
  · rename_i r hfind
    split at h
    · rename_i code hcode
      split at h
      · rename_i hruns
        refine ⟨r, hfind, hruns.2, ?_⟩
        have hresolve := Exec.resolve_of_address (m := { m with token := [] }) hruns.1 hcode h
        exact (bind_of_ok hresolve).trans (Exec.act_of_step hexecute hresume)
      · cases h
    · cases h
  · cases h

/-- At top level, `\` uses up the line and leaves its token in `w`. -/
theorem interpretToken_backslash {token text : List UInt8} {rest : List ReadEvent}
    (h : m.runs? token = some (.define .backslash)) (hip : m.regs.ip = 0)
    (hscan : Scan.upTo Ascii.lineFeed [] m.input.events = ⟨text, rest, none⟩) :
    ∃ xt, ∀ steps, m.interpretToken steps token =
      some (.ok () (withW xt { m with token := token, input := ⟨rest⟩ })) := by
  obtain ⟨r, hfind, hrun, hexecute⟩ := execute_of_runs? h nofun nofun
  have hparse :
      Exec.parse Ascii.lineFeed (withW (UInt16.ofNat r.codeField) { m with token := [] }) =
      .ok text (withW (UInt16.ofNat r.codeField) { m with token := [], input := ⟨rest⟩ }) := by
    have hinput : (withW (UInt16.ofNat r.codeField) { m with token := [] }).input = m.input := rfl
    unfold Exec.parse
    rw [hinput, hscan]
    rfl
  have hdone : Exec.execute (UInt16.ofNat r.codeField) { m with token := [] } =
      .ok .done (withW (UInt16.ofNat r.codeField) { m with token := [], input := ⟨rest⟩ }) :=
    hexecute.trans (bind_of_ok (bind_of_ok hparse))
  refine ⟨UInt16.ofNat r.codeField, fun steps => ?_⟩
  rw [interpretToken_of_run steps hfind hrun, hdone]
  have hthread := runThread_of_eq_zero
    (m := withW (UInt16.ofNat r.codeField) { m with token := [], input := ⟨rest⟩ }) steps hip
  simp only [hthread]
  rfl

/-- The machine that comes to `\` goes on behind the line. -/
theorem sameEnd_of_backslash {blank ahead rest text : List UInt8} {sep : UInt8}
    (h : m.runs? (Text.bytes "\\") = some (.define .backslash)) (hip : m.regs.ip = 0)
    (hinput : m.input = .ofBytes (blank ++ (Text.bytes "\\" ++ sep :: ahead)))
    (hblank : ∀ b ∈ blank, isSpace b = true) (hsep : isSpace sep = true)
    (hscan : Scan.upTo Ascii.lineFeed [] (ahead.map .byte) = ⟨text, rest.map .byte, none⟩) :
    ∃ xt, SameEnd m (withW xt { m with token := Text.bytes "\\", input := .ofBytes rest }) := by
  have hword : Scan.word [] 0 m.input.events = ⟨Text.bytes "\\", ahead.map .byte, none⟩ := by
    have htoken : Text.bytes "\\" = [92] := by decide +kernel
    have hbyte : isSpace 92 = false := by decide
    rw [hinput, Source.ofBytes, List.map_append, Scan.word_of_blank hblank, htoken]
    simp [Scan.word, hbyte, hsep, maxTokenLength]
  have hparse : Exec.parseWord m =
      .ok () { m with token := Text.bytes "\\", input := .ofBytes ahead } := by
    unfold Exec.parseWord
    rw [hword]
    rfl
  have hsome : Text.bytes "\\" ≠ [] := by decide +kernel
  obtain ⟨xt, hrun⟩ := interpretToken_backslash
    (m := { m with token := Text.bytes "\\", input := .ofBytes ahead }) h hip hscan
  exact ⟨xt, sameEnd_of_interpretToken hparse hsome (hrun 0)⟩

/-! ### Texts with a comment -/

/-- Evaluating the text ends with the result, input, journal and the register `w` apart. -/
def EvaluatesUpToW (m : Machine) (text : String) (r : HostResult Unit) : Prop :=
  ∃ steps, (m.evaluate steps text).map (mapState coreButW) = some r

/-- Evaluating a text, the machine comes to the `\` in it that is followed by the given rest, and
runs it as the built-in word. -/
structure MeetsBackslash (m : Machine) (a rest : String) (m₀ : Machine) : Prop where
  /-- It comes there without a fault. -/
  comes : (m.setText (a ++ "\\" ++ rest)).ComesTo m₀
  /-- Nothing but white space is left in front of the `\`. -/
  input : ∃ blank, m₀.input = .ofBytes (blank ++ Text.bytes ("\\" ++ rest)) ∧
    ∀ b ∈ blank, isSpace b = true
  /-- It is the built-in word. -/
  runs : m₀.runs? (Text.bytes "\\") = some (.define .backslash)

theorem ComesTo.ip_eq {m' : Machine} (h : m.ComesTo m') (hip : m.regs.ip = 0) : m'.regs.ip = 0 := by
  induction h with
  | refl m => exact hip
  | next hparse _ hrun _ ih =>
    exact ih (ip_of_interpretToken ((ip_of_parseWord hparse).trans hip) hrun)

namespace MeetsBackslash

variable {a rest y : String} (h : m.MeetsBackslash a rest m₀)
include h

/-- With another text from there on, which begins with the end of a line, the machine skips this. -/
theorem exists_sameEnd (y : String) :
    ∃ m₁, Abreast Eq Eq Eq { m₀ with token := Text.bytes "\\", input := .ofText y } m₁ ∧
      SameEnd (m.setText (a ++ "\n" ++ y)) m₁ := by
  obtain ⟨blank, hinput, hblank⟩ := h.input
  have hsplit (text : String) : (m.setText (a ++ text)).input =
      .ofBytes (Text.bytes a ++ Text.bytes text) :=
    congrArg Source.ofBytes (Text.bytes_append a text)
  have hst : Abreast (Source.Parts (Text.bytes ("\\" ++ rest)) (Text.bytes ("\n" ++ y))) Eq Eq
      (m.setText (a ++ "\\" ++ rest)) (m.setText (a ++ "\n" ++ y)) := by
    rw [String.append_assoc, String.append_assoc]
    exact ⟨rfl, ⟨Text.bytes a, hsplit _, hsplit _⟩, rfl, by simp [setText, report]⟩
  have hsome : Text.bytes ("\\" ++ rest) ≠ [] := by simp [Text.bytes_eq_nil_iff]
  have hsome' : Text.bytes ("\n" ++ y) ≠ [] := by simp [Text.bytes_eq_nil_iff]
  obtain ⟨m₁, hcomes, hst₀⟩ := h.comes.exchange hsome hsome' (by simp [hinput, Source.ofBytes]) hst
  have hinput₁ : m₁.input = .ofBytes ((blank ++ [Ascii.lineFeed]) ++ Text.bytes y) := by
    obtain ⟨ahead, hx, hy⟩ := hst₀.input
    rw [hinput] at hx
    have hmap := List.map_injective_iff.mpr (fun _ _ h => ReadEvent.byte.inj h) (Source.mk.inj hx)
    rw [hy, ← List.append_cancel_right hmap, Text.bytes_newline_append, List.append_assoc]
    rfl
  have hblank' : ∀ b ∈ blank ++ [Ascii.lineFeed], isSpace b = true := by
    simpa [or_imp, forall_and] using ⟨hblank, by decide⟩
  exact ⟨_, (hst₀.retoken (Text.bytes "\\")).reinput rfl,
    hcomes.sameEnd.trans (sameEnd_of_blank hinput₁ hblank' (Text.bytes "\\"))⟩

/-- A text with a comment is evaluated like the text that the comment leaves. -/
theorem evaluatesUpToW_iff {sep : UInt8} {ahead text : List UInt8} (hpoison : m.poison? = none)
    (hip : m.regs.ip = 0) (hguards : m.GuardsW) (hrest : Text.bytes rest = sep :: ahead)
    (hsep : isSpace sep = true)
    (hscan : Scan.upTo Ascii.lineFeed [] (ahead.map .byte) = ⟨text, (Text.bytes y).map .byte, none⟩)
    (r : HostResult Unit) :
    m.EvaluatesUpToW (a ++ "\\" ++ rest) r ↔ m.EvaluatesUpToW (a ++ "\n" ++ y) r := by
  obtain ⟨blank, hinput, hblank⟩ := h.input
  rw [Text.bytes_append, hrest] at hinput
  obtain ⟨xt, hbehind⟩ := sameEnd_of_backslash h.runs (h.comes.ip_eq hip) hinput hblank hsep hscan
  obtain ⟨m₁, hst, hother⟩ := h.exists_sameEnd y
  -- Behind the line, the machines differ in `w` and in their journals.
  have hguards₀ : m₀.GuardsW := h.comes.keeps Lasting.guardsW hguards
  have hw : UpToW { m₀ with token := Text.bytes "\\", input := .ofText y }
      (withW xt { m₀ with token := Text.bytes "\\", input := .ofText y }) := ⟨hguards₀, rfl⟩
  simp only [EvaluatesUpToW, evaluate_eq_of_poison?_eq_none hpoison, Option.map_map]
  rw [(h.comes.sameEnd.trans hbehind).exists_map, hother.exists_map]
  refine exists_congr fun n => ?_
  have hsame := (hst.interpret_coreButW_eq .eq n).trans (hw.interpret_coreButW_eq n).symm
  rw [hsame]
  rfl

end MeetsBackslash

/-- **A comment ends with its line.** At top level, in a machine that guards `w`, a text with a
comment `\ c` gives the same result as the text without it: `\` discards the rest of its own line
and nothing of the next one. If nothing follows `\` on its line, not even white space, it discards
the next line. -/
theorem backslash_discards_line {m m₀ : Machine} {a b c : String} (hpoison : m.poison? = none)
    (hip : m.regs.ip = 0) (hguards : m.GuardsW) (hline : Ascii.lineFeed ∉ Text.bytes c)
    (hspace : ∀ x ∈ (Text.bytes c).head?, isSpace x = true)
    (hmeets : m.MeetsBackslash a (c ++ "\n" ++ b) m₀) :
    (c ≠ "" → ∀ r,
      m.EvaluatesUpToW (a ++ "\\" ++ (c ++ "\n" ++ b)) r ↔ m.EvaluatesUpToW (a ++ "\n" ++ b) r) ∧
    (c = "" → ∀ line, Ascii.lineFeed ∉ Text.bytes line →
      (∀ rest, b = line ++ "\n" ++ rest → ∀ r,
        m.EvaluatesUpToW (a ++ "\\" ++ (c ++ "\n" ++ b)) r ↔
          m.EvaluatesUpToW (a ++ "\n" ++ rest) r) ∧
      (b = line → ∀ r,
        m.EvaluatesUpToW (a ++ "\\" ++ (c ++ "\n" ++ b)) r ↔ m.EvaluatesUpToW (a ++ "\n") r)) := by
  have hrest : Text.bytes (c ++ "\n" ++ b) = Text.bytes c ++ Ascii.lineFeed :: Text.bytes b := by
    rw [String.append_assoc, Text.bytes_append, Text.bytes_newline_append]
  refine ⟨fun hne r => ?_, ?_⟩
  · -- The byte that the token takes with it is the first one of the comment.
    obtain ⟨x, bs, hbytes⟩ := List.exists_cons_of_ne_nil (mt Text.bytes_eq_nil_iff.mp hne)
    rw [hbytes] at hrest hline hspace
    obtain ⟨text, hscan⟩ := Scan.rest_upTo_line (List.not_mem_of_not_mem_cons hline) (Text.bytes b)
    exact hmeets.evaluatesUpToW_iff hpoison hip hguards hrest (hspace x rfl) hscan r
  · -- It is the end of the line.
    rintro rfl line hfree
    refine ⟨?_, ?_⟩
    · rintro rest rfl r
      obtain ⟨text, hscan⟩ := Scan.rest_upTo_line hfree (Text.bytes rest)
      rw [← Text.bytes_newline_append, ← Text.bytes_append, ← String.append_assoc] at hscan
      exact hmeets.evaluatesUpToW_iff hpoison hip hguards hrest (by decide) hscan r
    · rintro rfl r
      obtain ⟨text, hscan⟩ := Scan.rest_upTo_last hfree
      have hnothing :=
        hmeets.evaluatesUpToW_iff (y := "") hpoison hip hguards hrest (by decide) hscan r
      rwa [String.append_empty] at hnothing

/-- A comment on a line of its own, inside of a definition. -/
theorem backslash_discards_line_in_definition :
    ∃ m m₀ : Machine, m.poison? = none ∧ m.regs.ip = 0 ∧ m.GuardsW ∧
      Ascii.lineFeed ∉ Text.bytes " pushes 2" ∧
      (∀ x ∈ (Text.bytes " pushes 2").head?, isSpace x = true) ∧
      m.MeetsBackslash ": two\n  " (" pushes 2" ++ "\n" ++ "  2 ; two") m₀ ∧
      (∀ r, m.EvaluatesUpToW (": two\n  " ++ "\\" ++ (" pushes 2" ++ "\n" ++ "  2 ; two")) r ↔
        m.EvaluatesUpToW (": two\n  " ++ "\n" ++ "  2 ; two") r) ∧
      ∃ r, m.EvaluatesUpToW (": two\n  " ++ "\n" ++ "  2 ; two") r ∧
        (endState r).dataStack.items = [2] := by
  let m := knowing [⟨":", .define .colon, false⟩, ⟨";", .define .semicolon, true⟩,
    ⟨"\\", .define .backslash, true⟩] .off
  have hpoison : m.poison? = none := by decide +kernel
  have hip : m.regs.ip = 0 := by decide +kernel
  have hguards : m.GuardsW := guardsW_of_zipIdx (by decide +kernel)
  have hline : Ascii.lineFeed ∉ Text.bytes " pushes 2" := by decide +kernel
  have hspace : ∀ x ∈ (Text.bytes " pushes 2").head?, isSpace x = true := by decide +kernel
  -- The colon takes its name and the end of the line, and the indentation is left.
  have hcolon :
      ((m.setText (": two\n  " ++ "\\" ++ (" pushes 2" ++ "\n" ++ "  2 ; two"))).afterToken
      0).map (fun m₀ => (m₀.input, m₀.runs? (Text.bytes "\\"))) =
      some (.ofBytes ([32, 32] ++ Text.bytes ("\\" ++ (" pushes 2" ++ "\n" ++ "  2 ; two"))),
        some (.define .backslash)) := by decide +kernel
  obtain ⟨m₀, hafter, hthere⟩ := Option.map_eq_some_iff.mp hcolon
  obtain ⟨hinput, hruns⟩ := Prod.mk.inj hthere
  have hmeets : m.MeetsBackslash ": two\n  " (" pushes 2" ++ "\n" ++ "  2 ; two") m₀ :=
    ⟨.of_afterToken hafter, ⟨[32, 32], hinput, by simp [isSpace]⟩, hruns⟩
  have hall : ((m.evaluate 20 (": two\n  " ++ "\n" ++ "  2 ; two")).map (mapState coreButW)).map
      (fun r => (endState r).dataStack.items) = some [2] := by decide +kernel
  obtain ⟨r, hr, hitems⟩ := Option.map_eq_some_iff.mp hall
  exact ⟨m, m₀, hpoison, hip, hguards, hline, hspace, hmeets,
    (backslash_discards_line hpoison hip hguards hline hspace hmeets).1 (by decide), r,
    ⟨20, hr⟩, hitems⟩

theorem EvaluatesUpToW.unique {m : Machine} {text : String} {r r' : HostResult Unit}
    (hpoison : m.poison? = none) (h : m.EvaluatesUpToW text r) (h' : m.EvaluatesUpToW text r') :
    r = r' := by
  simp only [EvaluatesUpToW, evaluate_eq_of_poison?_eq_none hpoison, Option.map_map,
    Option.map_eq_some_iff] at h h'
  obtain ⟨n, o, ho, rfl⟩ := h
  obtain ⟨n', o', ho', rfl⟩ := h'
  have hmore := interpret_add ho n'
  have hmore' := interpret_add ho' n
  rw [Nat.add_comm, hmore] at hmore'
  cases hmore'
  rfl

/-- A comment without text: the number on the next line is lost. -/
theorem backslash_before_newline :
    ∃ m m₀ : Machine, m.poison? = none ∧ m.regs.ip = 0 ∧ m.GuardsW ∧
      m.MeetsBackslash "" ("" ++ "\n" ++ "1") m₀ ∧
      ∃ r, m.EvaluatesUpToW ("" ++ "\n" ++ "1") r ∧
        ¬ m.EvaluatesUpToW ("" ++ "\\" ++ ("" ++ "\n" ++ "1")) r := by
  let m := knowing [⟨"\\", .define .backslash, true⟩] .off
  have hpoison : m.poison? = none := by decide +kernel
  have hip : m.regs.ip = 0 := by decide +kernel
  have hguards : m.GuardsW := guardsW_of_zipIdx (by decide +kernel)
  have hmeets : m.MeetsBackslash "" ("" ++ "\n" ++ "1")
      (m.setText ("" ++ "\\" ++ ("" ++ "\n" ++ "1"))) :=
    ⟨.refl _, ⟨[], by decide +kernel, by simp⟩, by decide +kernel⟩
  have hwithout : ((m.evaluate 9 ("" ++ "\n" ++ "1")).map (mapState coreButW)).map
      (fun r => (endState r).dataStack.items) = some [1] := by decide +kernel
  have hwith : ((m.evaluate 9 ("" ++ "\\" ++ ("" ++ "\n" ++ "1"))).map (mapState coreButW)).map
      (fun r => (endState r).dataStack.items) = some [] := by decide +kernel
  obtain ⟨r, hr, hitems⟩ := Option.map_eq_some_iff.mp hwithout
  obtain ⟨r', hr', hitems'⟩ := Option.map_eq_some_iff.mp hwith
  refine ⟨m, _, hpoison, hip, hguards, hmeets, r, ⟨9, hr⟩, fun h => ?_⟩
  have hsame := h.unique hpoison ⟨9, hr'⟩
  rw [hsame, hitems'] at hitems
  cases hitems

end Machine

end CellForth
