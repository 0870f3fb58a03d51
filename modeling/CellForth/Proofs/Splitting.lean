import CellForth.Proofs.LineComments
import CellForth.Proofs.Streams

/-!
# Splitting the input at white space

Reading word after word splits the input at its white space. What a source offers, a text or the
chunks of a stream, falls into white space, the longest row of other bytes, and what is behind it
(`Scan.Parted`). One read uses up the white space, the row and one byte behind it, so a word that
reads on up to a delimiter starts right there.

A row that is too long for a token is cut: the read that refuses it stands behind the byte that was
one too many, and the next read goes on within the row. So what successive reads take are not the
tokens of the input but their pieces, `Scan.pieces`, which are the tokens themselves if none is too
long. `Machine.parseWord_splits` is about all reads of a source, one after the other.
-/

namespace CellForth

/-! ### What is ahead -/

namespace Source

/-- Reading the source meets the bytes and then the end of input, interruptions aside. -/
def Offers (s : Source) (bs : List UInt8) : Prop :=
  ReadEvent.calm s.events = bs.map .byte

/-- A stream offers the bytes of its chunks. -/
theorem offers_ofDeliveries {ds : List Delivery} {bs : List UInt8} (h : Delivers ds bs) :
    (ofDeliveries ds).Offers bs :=
  h.calm_events

end Source

namespace Scan

/-- The parts are white space, the longest row of other bytes, which is empty only at the end, and
what is behind the row. -/
structure Parted (blanks run behind : List UInt8) : Prop where
  /-- In front there is white space only. -/
  isSpace_of_mem_blanks : ∀ b ∈ blanks, isSpace b = true
  /-- There is none in the row. -/
  isSpace_of_mem_run : ∀ b ∈ run, isSpace b = false
  /-- White space ends the row. -/
  isSpace_head : ∀ b ∈ behind.head?, isSpace b = true
  /-- Without a row there is nothing left. -/
  behind_eq_nil : run = [] → behind = []

/-- Every text falls into such parts. -/
theorem exists_parted (bs : List UInt8) :
    ∃ blanks run behind, bs = blanks ++ run ++ behind ∧ Parted blanks run behind := by
  induction bs with
  | nil => exact ⟨[], [], [], rfl, by simp, by simp, by simp, fun _ => rfl⟩
  | cons b bs ih =>
    cases hb : isSpace b with
    | true =>
      obtain ⟨blanks, run, behind, rfl, h⟩ := ih
      refine ⟨b :: blanks, run, behind, rfl, { h with isSpace_of_mem_blanks := ?_ }⟩
      exact List.forall_mem_cons.mpr ⟨hb, h.isSpace_of_mem_blanks⟩
    | false =>
      refine ⟨[], b :: bs.takeWhile (!isSpace ·), bs.dropWhile (!isSpace ·), ?_, by simp, ?_,
        ?_, nofun⟩
      · rw [List.nil_append, List.cons_append, List.takeWhile_append_dropWhile]
      · rw [List.forall_mem_cons]
        exact ⟨hb, fun c hc => by simpa using List.all_eq_true.mp List.all_takeWhile c hc⟩
      · intro c hc
        have hhead := List.head?_dropWhile_not (!isSpace ·) bs
        rw [Option.mem_def.mp hc] at hhead
        simpa using hhead

/-! ### The pieces of a text -/

/-- A row of bytes, cut behind every byte that is one too many for a token. -/
def cuts (run : List UInt8) : List (List UInt8) :=
  if run = [] then []
  else run.take (maxTokenLength + 1) :: cuts (run.drop (maxTokenLength + 1))
termination_by run.length
decreasing_by
  rename_i hrun
  have hpos := List.length_pos_iff.mpr hrun
  rw [List.length_drop]
  omega

theorem cuts_nil : cuts [] = [] := by
  rw [cuts, if_pos rfl]

theorem cuts_of_ne_nil {run : List UInt8} (hrun : run ≠ []) :
    cuts run = run.take (maxTokenLength + 1) :: cuts (run.drop (maxTokenLength + 1)) := by
  rw [cuts, if_neg hrun]

/-- A token that is not too long is not cut. -/
theorem cuts_of_length_le {run : List UInt8} (hrun : run ≠ [])
    (hlength : run.length ≤ maxTokenLength) :
    cuts run = [run] := by
  rw [cuts_of_ne_nil hrun, List.take_of_length_le (by omega), List.drop_of_length_le (by omega),
    cuts_nil]

/-- What the reads of a text take, one after the other: its tokens, but those cut that are too
long. -/
def pieces (bs : List UInt8) : List (List UInt8) :=
  (tokens bs).flatMap cuts

theorem ne_nil_of_mem_tokens {bs token : List UInt8} (h : token ∈ tokens bs) : token ≠ [] := by
  simpa using List.of_mem_filter h

/-- If no token is too long, none is cut. -/
theorem pieces_of_length_le {bs : List UInt8}
    (h : ∀ token ∈ tokens bs, token.length ≤ maxTokenLength) :
    pieces bs = tokens bs := by
  have hcuts : ∀ token ∈ tokens bs, cuts token = [token] := fun token htoken =>
    cuts_of_length_le (ne_nil_of_mem_tokens htoken) (h token htoken)
  rw [pieces, List.flatMap_congr hcuts, List.flatMap_singleton']

/-- White space in front of a text is no part of its tokens. -/
theorem tokens_of_blank {blanks : List UInt8} (hblanks : ∀ b ∈ blanks, isSpace b = true)
    (bs : List UInt8) : tokens (blanks ++ bs) = tokens bs := by
  induction blanks with
  | nil => rfl
  | cons b blanks ih =>
    rw [List.forall_mem_cons] at hblanks
    rw [List.cons_append, tokens_cons_of_space hblanks.1, ih hblanks.2]

/-- White space keeps the tokens on its two sides apart. -/
theorem tokens_append {behind : List UInt8} (hbehind : ∀ b ∈ behind.head?, isSpace b = true)
    (bs : List UInt8) : tokens (bs ++ behind) = tokens bs ++ tokens (behind.drop 1) := by
  cases behind with
  | nil => simp
  | cons b behind =>
    have hb : isSpace b = true := hbehind b rfl
    simp only [tokens, List.splitOnP_append_cons _ _ hb, List.filter_append, List.drop_one,
      List.tail_cons]

/-- A row without white space is one token, or none if it is empty. -/
theorem pieces_of_run {run : List UInt8} (hrun : ∀ b ∈ run, isSpace b = false) :
    pieces run = cuts run := by
  rw [pieces, tokens, List.splitOnP_eq_singleton hrun]
  by_cases hnil : run = []
  · simp [hnil, cuts_nil]
  · simp [hnil]

namespace Parted

variable {blanks run behind : List UInt8} (h : Parted blanks run behind)
include h

/-- The pieces are those of the row and those behind it. -/
theorem pieces_eq : pieces (blanks ++ run ++ behind) = cuts run ++ pieces (behind.drop 1) := by
  rw [← pieces_of_run h.isSpace_of_mem_run, List.append_assoc]
  unfold pieces
  rw [tokens_of_blank h.isSpace_of_mem_blanks, tokens_append h.isSpace_head, List.flatMap_append]

end Parted

/-- What is left behind a read of the row: if the row is too long, the rest of it, and else what is
behind the byte that ends it. -/
def left (run behind : List UInt8) : List UInt8 :=
  if run.length ≤ maxTokenLength then behind.drop 1 else run.drop (maxTokenLength + 1) ++ behind

namespace Parted

variable {blanks run behind : List UInt8} (h : Parted blanks run behind)
include h

/-- A read takes the first piece and leaves the others. -/
theorem head_tail_pieces :
    (pieces (blanks ++ run ++ behind)).headD [] = run.take (maxTokenLength + 1) ∧
      (pieces (blanks ++ run ++ behind)).tail = pieces (left run behind) := by
  rw [h.pieces_eq]
  by_cases hrun : run = []
  · have hbehind := h.behind_eq_nil hrun
    subst hrun hbehind
    simp [cuts_nil, pieces, left]
  · refine ⟨by rw [cuts_of_ne_nil hrun]; rfl, ?_⟩
    unfold left
    split
    · rename_i hlength
      rw [cuts_of_length_le hrun hlength]
      rfl
    · have hrest : ∀ b ∈ run.drop (maxTokenLength + 1), isSpace b = false := fun b hb =>
        h.isSpace_of_mem_run b (List.mem_of_mem_drop hb)
      rw [cuts_of_ne_nil hrun, List.cons_append, List.tail_cons, ← pieces_of_run hrest]
      unfold pieces
      rw [tokens_append h.isSpace_head, List.flatMap_append]

end Parted

/-! ### Reading the parts -/

/-- Bytes that fit into the token are added to it. -/
theorem word_of_run {run : List UInt8} (hrun : ∀ b ∈ run, isSpace b = false) (seen : List UInt8)
    (hlength : seen.length + run.length ≤ maxTokenLength) (events : List ReadEvent) :
    word seen seen.length (run.map .byte ++ events) =
      word (run.reverse ++ seen) (run.reverse ++ seen).length events := by
  induction run generalizing seen with
  | nil => rfl
  | cons b run ih =>
    rw [List.forall_mem_cons] at hrun
    rw [List.length_cons] at hlength
    have hlt : seen.length < maxTokenLength := by omega
    have hrest := ih hrun.2 (b :: seen) (by rw [List.length_cons]; omega)
    rw [List.length_cons] at hrest
    simp only [List.map_cons, List.cons_append, word, hrun.1, Bool.false_eq_true, if_false, hlt,
      if_true, hrest, List.reverse_cons, List.append_assoc, List.nil_append]

/-- White space or the end of input ends a token. -/
theorem word_of_behind {seen behind : List UInt8} (hseen : seen ≠ [])
    (hbehind : ∀ b ∈ behind.head?, isSpace b = true) :
    word seen seen.length (behind.map .byte) = ⟨seen.reverse, (behind.drop 1).map .byte, none⟩ := by
  cases behind with
  | nil => rfl
  | cons b behind =>
    have hb : isSpace b = true := hbehind b rfl
    have hlength : seen.length ≠ 0 := fun h => hseen (List.length_eq_zero_iff.mp h)
    simp only [List.map_cons, word, hb, if_true, hlength, if_false, List.drop_one, List.tail_cons]

namespace Parted

variable {blanks run behind : List UInt8} (h : Parted blanks run behind)
include h

/-- A row that fits into a token is read with one byte behind it. -/
theorem word_of_length_le (hlength : run.length ≤ maxTokenLength) :
    word [] 0 ((run ++ behind).map .byte) = ⟨run, (behind.drop 1).map .byte, none⟩ := by
  have hrun := word_of_run h.isSpace_of_mem_run [] (by simpa using hlength) (behind.map .byte)
  rw [List.append_nil] at hrun
  rw [List.map_append]
  refine hrun.trans ?_
  by_cases hnil : run = []
  · rw [hnil, h.behind_eq_nil hnil]
    rfl
  · rw [word_of_behind (by simpa using hnil) h.isSpace_head, List.reverse_reverse]

/-- Of a longer row, no more is read than the byte that is one too many. -/
theorem word_of_lt_length (hlength : maxTokenLength < run.length) :
    word [] 0 ((run ++ behind).map .byte) = ⟨run.take maxTokenLength,
      (run.drop (maxTokenLength + 1) ++ behind).map .byte, some .tokenTooLong⟩ := by
  have hfirst : ∀ b ∈ run.take maxTokenLength, isSpace b = false := fun b hb =>
    h.isSpace_of_mem_run b (List.mem_of_mem_take hb)
  have hfull : (run.take maxTokenLength).length = maxTokenLength := by
    rw [List.length_take]
    omega
  have hnext : isSpace run[maxTokenLength] = false :=
    h.isSpace_of_mem_run _ (List.getElem_mem hlength)
  have hcut : run ++ behind =
      run.take maxTokenLength ++
      (run[maxTokenLength] :: (run.drop (maxTokenLength + 1) ++ behind)) := by
    rw [← List.cons_append, ← List.drop_eq_getElem_cons hlength, ← List.append_assoc,
      List.take_append_drop]
  rw [hcut, List.map_append]
  refine (word_of_run hfirst [] ?_ _).trans ?_
  · rw [hfull]
    exact Nat.le_of_eq (Nat.zero_add _)
  · -- The token is full, and the next byte is no white space.
    rw [List.append_nil, List.length_reverse, hfull, List.map_cons]
    simp only [word, hnext, Bool.false_eq_true, if_false, Nat.lt_irrefl, List.reverse_reverse]

/-- A read takes what precedes the cut and leaves what is behind it. -/
theorem word_eq : word [] 0 ((blanks ++ run ++ behind).map .byte) =
    ⟨run.take maxTokenLength, (left run behind).map .byte,
      if run.length ≤ maxTokenLength then none else some .tokenTooLong⟩ := by
  rw [List.append_assoc, List.map_append, word_of_blank h.isSpace_of_mem_blanks]
  unfold left
  split
  · rename_i hlength
    rw [h.word_of_length_le hlength, List.take_of_length_le hlength]
  · rename_i hlength
    exact h.word_of_lt_length (by omega)

end Parted

/-- A read up to a delimiter takes what precedes it, and the delimiter. -/
theorem upTo_bytes (delimiter : UInt8) (seen bs : List UInt8) :
    upTo delimiter seen (bs.map .byte) = ⟨seen.reverse ++ bs.takeWhile (· ≠ delimiter),
      ((bs.dropWhile (· ≠ delimiter)).drop 1).map .byte, none⟩ := by
  induction bs generalizing seen with
  | nil => simp [upTo]
  | cons b bs ih =>
    rw [List.map_cons, upTo]
    split
    · rename_i hb
      simp [hb]
    · rename_i hb
      simp [hb, ih]

end Scan

/-! ### Reading again and again -/

namespace Exec

variable {m : Machine}

/-- A read of the next token, interruptions or not. -/
theorem parseWord_of_offers {blanks run behind : List UInt8} (h : Scan.Parted blanks run behind)
    (hinput : m.input.Offers (blanks ++ run ++ behind)) :
    ∃ input : Source, input.Offers (Scan.left run behind) ∧
      parseWord m =
        if run.length ≤ maxTokenLength then
          .ok () { m with token := run.take maxTokenLength, input := input }
        else .error .tokenTooLong { m with token := run.take maxTokenLength, input := input } := by
  have hscan := Scan.word_calm [] 0 m.input.events
  rw [hinput, h.word_eq] at hscan
  refine ⟨⟨(Scan.word [] 0 m.input.events).rest⟩, (congrArg Scan.rest hscan).symm, ?_⟩
  have htext := congrArg Scan.text hscan
  have hfault := congrArg Scan.fault hscan
  unfold parseWord
  generalize Scan.word [] 0 m.input.events = scan at htext hfault ⊢
  obtain ⟨text, rest, fault⟩ := scan
  by_cases hlength : run.length ≤ maxTokenLength
  · rw [if_pos hlength] at hfault ⊢
    obtain rfl : none = fault := hfault
    obtain rfl : run.take maxTokenLength = text := htext
    rfl
  · rw [if_neg hlength] at hfault ⊢
    obtain rfl : some .tokenTooLong = fault := hfault
    obtain rfl : run.take maxTokenLength = text := htext
    rfl

/-- A read up to a delimiter, interruptions or not. -/
theorem parse_of_offers {ahead : List UInt8} (hinput : m.input.Offers ahead) (delimiter : UInt8) :
    ∃ input : Source, input.Offers ((ahead.dropWhile (· ≠ delimiter)).drop 1) ∧
      parse delimiter m = .ok (ahead.takeWhile (· ≠ delimiter)) { m with input := input } := by
  have hscan := Scan.upTo_calm delimiter [] m.input.events
  rw [hinput, Scan.upTo_bytes] at hscan
  refine ⟨⟨(Scan.upTo delimiter [] m.input.events).rest⟩, (congrArg Scan.rest hscan).symm, ?_⟩
  have htext := congrArg Scan.text hscan
  have hfault := congrArg Scan.fault hscan
  unfold parse
  generalize Scan.upTo delimiter [] m.input.events = scan at htext hfault ⊢
  obtain ⟨text, rest, fault⟩ := scan
  obtain rfl : none = fault := hfault
  obtain rfl : ahead.takeWhile (· ≠ delimiter) = text := htext
  rfl

end Exec

namespace Machine

/-- The machine behind a number of reads, whether they have succeeded or not. -/
def afterReads (m : Machine) : Nat → Machine
  | 0 => m
  | k + 1 => endState (Exec.parseWord (m.afterReads k))

variable {m : Machine} {bs : List UInt8}

/-- The machine `m'` is where a read from `m` has left it: behind the row in front of `behind`, or
behind the first bytes of a row that is too long, with the row or these bytes as its token. -/
structure HasRead (m m' : Machine) (blanks run behind : List UInt8) : Prop where
  /-- The white space, the row and what is behind it were ahead. -/
  offers : m.input.Offers (blanks ++ run ++ behind)
  /-- The row is the first one, and there is no more of it. -/
  parted : Scan.Parted blanks run behind
  /-- The read is refused if the row is too long for a token. -/
  parseWord_eq : Exec.parseWord m =
    if run.length ≤ maxTokenLength then .ok () m' else .error .tokenTooLong m'
  /-- The token is the row, or as much of it as a token can have. -/
  token_eq : m'.token = run.take maxTokenLength
  /-- What is left is ahead. -/
  offers_left : m'.input.Offers (Scan.left run behind)
  /-- Nothing else has changed. -/
  eq_with : m' = { m with token := m'.token, input := m'.input }

/-- One read. -/
theorem hasRead_of_offers (hinput : m.input.Offers bs) :
    ∃ blanks run behind, bs = blanks ++ run ++ behind ∧
      m.HasRead (endState (Exec.parseWord m)) blanks run behind := by
  obtain ⟨blanks, run, behind, rfl, hparted⟩ := Scan.exists_parted bs
  obtain ⟨input, hoffers, hread⟩ := Exec.parseWord_of_offers hparted hinput
  refine ⟨blanks, run, behind, rfl, ?_⟩
  have hend : endState (Exec.parseWord m) =
      { m with token := run.take maxTokenLength, input := input } := by
    rw [hread]
    split <;> rfl
  rw [hend]
  exact ⟨hinput, hparted, hread, rfl, hoffers, rfl⟩

/-- Behind some reads, the pieces behind as many are ahead. -/
theorem offers_afterReads (hinput : m.input.Offers bs) (k : Nat) :
    ∃ ahead, (m.afterReads k).input.Offers ahead ∧ Scan.pieces ahead = (Scan.pieces bs).drop k := by
  induction k with
  | zero => exact ⟨bs, hinput, rfl⟩
  | succ k ih =>
    obtain ⟨ahead, hahead, hpieces⟩ := ih
    obtain ⟨blanks, run, behind, rfl, hread⟩ := hasRead_of_offers hahead
    refine ⟨Scan.left run behind, hread.offers_left, ?_⟩
    rw [← hread.parted.head_tail_pieces.2, hpieces, List.tail_drop]

/-- **Reading splits the input at its white space.** However the bytes arrive, every read takes the
next piece of them: the next token, or, of a row that is too long for a token, as many bytes as a
token has and one more. It uses up the white space in front and one byte behind a token, so that
what a word reads up to a delimiter starts behind that byte. A read is refused if the row is too
long, and only then, and the token holds the first bytes of the row. Behind the last piece every
token is empty. -/
theorem parseWord_splits (hinput : m.input.Offers bs) :
    ((∀ token ∈ Scan.tokens bs, token.length ≤ maxTokenLength) → Scan.pieces bs = Scan.tokens bs) ∧
    ∀ k, ∃ blanks run behind,
      (m.afterReads k).HasRead (m.afterReads (k + 1)) blanks run behind ∧
      (Scan.pieces bs).getD k [] = run.take (maxTokenLength + 1) ∧
      ∀ delimiter, ∃ input : Source,
        Exec.parse delimiter (m.afterReads (k + 1)) =
          .ok ((Scan.left run behind).takeWhile (· ≠ delimiter))
            { m.afterReads (k + 1) with input := input } ∧
        input.Offers (((Scan.left run behind).dropWhile (· ≠ delimiter)).drop 1) := by
  refine ⟨Scan.pieces_of_length_le, fun k => ?_⟩
  obtain ⟨ahead, hahead, hpieces⟩ := offers_afterReads hinput k
  obtain ⟨blanks, run, behind, rfl, hread⟩ := hasRead_of_offers hahead
  refine ⟨blanks, run, behind, hread, ?_, fun delimiter => ?_⟩
  · rw [← hread.parted.head_tail_pieces.1, hpieces]
    simp [List.headD_eq_head?_getD, List.getD_eq_getElem?_getD]
  · obtain ⟨input, hoffers, hparse⟩ := Exec.parse_of_offers hread.offers_left delimiter
    exact ⟨input, hparse, hoffers⟩

/-- A stream whose chunks end within a row of 300 bytes and behind it. The first two reads are both
within the row, and the third one is behind it. -/
theorem parseWord_splits_long_row :
    ∃ (m : Machine) (bs : List UInt8), m.input.Offers bs ∧
      ((m.afterReads 1).token.length, (m.afterReads 2).token.length, (m.afterReads 3).token,
        (m.afterReads 4).token) = (255, 44, [121], []) ∧
      ((∀ token ∈ Scan.tokens bs, token.length ≤ maxTokenLength) →
        Scan.pieces bs = Scan.tokens bs) ∧
      ∀ k, ∃ blanks run behind,
        (m.afterReads k).HasRead (m.afterReads (k + 1)) blanks run behind ∧
        (Scan.pieces bs).getD k [] = run.take (maxTokenLength + 1) ∧
        ∀ delimiter, ∃ input : Source,
          Exec.parse delimiter (m.afterReads (k + 1)) =
            .ok ((Scan.left run behind).takeWhile (· ≠ delimiter))
              { m.afterReads (k + 1) with input := input } ∧
          input.Offers (((Scan.left run behind).dropWhile (· ≠ delimiter)).drop 1) := by
  let ds : List Delivery := [.interruption, .chunk (List.replicate 280 120), .interruption,
    .chunk (List.replicate 20 120), .chunk [32, 121]]
  have hds : Delivers ds _ := .interruption (.chunk 120 (List.replicate 279 120) (.interruption
    (.chunk 120 (List.replicate 19 120) (.chunk 32 [121] .done))))
  have hoffers := Source.offers_ofDeliveries hds
  let m := (knowing [] .off).setStream (.ofDeliveries ds)
  exact ⟨m, _, hoffers, by decide +kernel, parseWord_splits (m := m) hoffers⟩

/-- If a row of bytes is too long for a token, the next read does not go on behind the row, and
neither does a read up to a delimiter. -/
theorem second_read_within_long_row :
    ∃ m : Machine, m.input = .ofBytes (List.replicate 300 120 ++ [32, 121]) ∧
      Scan.tokens (List.replicate 300 120 ++ [32, 121]) = [List.replicate 300 120, [121]] ∧
      (m.afterReads 2).token = List.replicate 44 120 ∧
      ∃ m', Exec.parse Ascii.lineFeed (m.afterReads 1) =
        .ok (List.replicate 44 120 ++ [32, 121]) m' := by
  let m : Machine :=
    { knowing [] .off with input := .ofBytes (List.replicate 300 120 ++ [32, 121]) }
  have hoffers : (m.afterReads 1).input.Offers (List.replicate 44 120 ++ [32, 121]) := by
    unfold Source.Offers
    decide +kernel
  have hline : (List.replicate 44 120 ++ [32, 121] : List UInt8).takeWhile (· ≠ Ascii.lineFeed) =
    List.replicate 44 120 ++ [32, 121] := by decide +kernel
  obtain ⟨input, -, hparse⟩ := Exec.parse_of_offers hoffers Ascii.lineFeed
  rw [hline] at hparse
  exact ⟨m, rfl, by decide +kernel, by decide +kernel, _, hparse⟩

end Machine

end CellForth
