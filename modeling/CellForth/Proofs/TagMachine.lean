import CellForth.Proofs.Draft
import Mathlib.Algebra.GroupWithZero.Nat

/-!
# The tag machine

While a definition is compiled, the tags of the open structures decide what may come next: a word
that closes a structure needs the right tag on top. `Part.runTags` is this check on its own, a
machine with a stack of tags that knows neither code nor addresses, and `Part.MismatchAt` is the
first place at which it fails. What each word needs and leaves is a table, `ControlWord.needs` and
`ControlWord.leaves`.

A run of the tag machine also says how much room its parts take: `Part.height` is the number of
structures that are open at once, and `Part.codeCells` is the length of the code. Neither counts
what stands behind the first mismatch.

A draft has tags, and with that room it follows the tag machine: parts can be drafted as far as the
machine runs (`Part.forM_draft_of_runTags`), and where the machine fails, so does the draft
(`Part.draft_of_retag_eq_none`).
-/

namespace CellForth

/-- What a token contributes to the definition in which it stands. -/
inductive Part where
  /-- A number. -/
  | number (c : Cell)
  /-- A reference to a word. -/
  | reference (c : Cell)
  /-- A part of a control structure. -/
  | control (word : ControlWord)
  deriving DecidableEq

/-! ### The tag machine -/

namespace ControlWord

/-- The tags that a control word needs on top, innermost first. -/
def needs : ControlWord → List ControlTag
  | openIf | openBegin | openDo => []
  | turnElse | closeThen => [.origin]
  | closeUntil | closeAgain | turnWhile => [.destination]
  | closeRepeat => [.destination, .origin]
  | closeLoop | closePlusLoop => [.countedLoop]

/-- The tags that a control word leaves in their place. -/
def leaves : ControlWord → List ControlTag
  | openIf | turnElse => [.origin]
  | openBegin => [.destination]
  | turnWhile => [.destination, .origin]
  | openDo => [.countedLoop]
  | closeThen | closeUntil | closeAgain | closeRepeat | closeLoop | closePlusLoop => []

/-- The tags of the open structures after a control word, if it finds what it needs. -/
def retag (word : ControlWord) (tags : List ControlTag) : Option (List ControlTag) :=
  if word.needs <+: tags then some (word.leaves ++ tags.drop word.needs.length) else none

theorem retag_eq_some_iff {word : ControlWord} {tags tags' : List ControlTag} :
    word.retag tags = some tags' ↔
      ∃ rest, tags = word.needs ++ rest ∧ tags' = word.leaves ++ rest := by
  unfold retag
  split
  · rename_i hneeds
    obtain ⟨rest, rfl⟩ := hneeds
    rw [List.drop_left, Option.some.injEq]
    constructor
    · rintro rfl
      exact ⟨rest, rfl, rfl⟩
    · rintro ⟨rest', hrest, rfl⟩
      rw [List.append_cancel_left hrest]
  · rename_i hneeds
    simp only [reduceCtorEq, false_iff]
    rintro ⟨rest, rfl, -⟩
    exact hneeds ⟨rest, rfl⟩

theorem retag_eq_none_iff {word : ControlWord} {tags : List ControlTag} :
    word.retag tags = none ↔ ¬ word.needs <+: tags := by
  unfold retag
  split <;> simp_all

end ControlWord

namespace Part

/-- Numbers and references leave the open structures alone. -/
def retag : Part → List ControlTag → Option (List ControlTag)
  | control word, tags => word.retag tags
  | _, tags => some tags

/-- The open structures after a row of parts, if none of them fails. -/
def runTags (tags : List ControlTag) (ps : List Part) : Option (List ControlTag) :=
  ps.foldlM (fun tags p => p.retag tags) tags

/-- With the given open structures, the tag machine cannot go on with the next part, or cannot end
if there is none. -/
def Refused (tags : List ControlTag) : Option Part → Prop
  | some p => p.retag tags = none
  | none => tags ≠ []

instance (tags : List ControlTag) : (next : Option Part) → Decidable (Refused tags next)
  | some p => inferInstanceAs (Decidable (p.retag tags = none))
  | none => inferInstanceAs (Decidable (tags ≠ []))

/-- The tag machine runs through the first `n` parts and is refused there. -/
def MismatchAt (tags : List ControlTag) (ps : List Part) (n : Nat) : Prop :=
  ∃ tags' ∈ runTags tags (ps.take n), Refused tags' ps[n]?

instance (tags : List ControlTag) (ps : List Part) (n : Nat) : Decidable (MismatchAt tags ps n) :=
  inferInstanceAs (Decidable (∃ tags' ∈ runTags tags (ps.take n), Refused tags' ps[n]?))

/-- The tag machine runs through and ends with nothing open, or there is a first mismatch. -/
theorem runTags_or_mismatchAt (tags : List ControlTag) (ps : List Part) :
    runTags tags ps = some [] ∨ ∃ n ≤ ps.length, MismatchAt tags ps n := by
  induction ps generalizing tags with
  | nil =>
    by_cases htags : tags = []
    · subst htags
      exact .inl rfl
    · exact .inr ⟨0, Nat.le_refl _, tags, rfl, htags⟩
  | cons p ps ih =>
    cases hp : p.retag tags with
    | none => exact .inr ⟨0, Nat.zero_le _, tags, rfl, hp⟩
    | some tags' =>
      have hstep : ∀ qs, runTags tags (p :: qs) = runTags tags' qs := fun qs => by
        simp [runTags, hp]
      obtain hrun | ⟨n, hn, tags'', hrun, hfail⟩ := ih tags'
      · exact .inl ((hstep ps).trans hrun)
      · exact .inr ⟨n + 1, Nat.succ_le_succ hn, tags'', (hstep _).trans hrun, hfail⟩

/-! ### The room for a run -/

/-- The cells that a part takes. -/
def cells : Part → Nat
  | number _ => 2
  | reference _ => 1
  | control .closeThen | control .openBegin => 0
  | control .openDo => 1
  | control _ => 2

/-- The cells that a part adds with the given open structures. A control word adds its cells once it
has found the first tag that it needs; `repeat` can add them and be refused at its second. -/
def spends (tags : List ControlTag) : Part → Nat
  | control word => if word.needs.take 1 <+: tags then (control word).cells else 0
  | p => p.cells

/-- The number of structures that are open at once in a run of the tag machine, up to the first
mismatch. -/
def height (tags : List ControlTag) : List Part → Nat
  | [] => tags.length
  | p :: ps =>
    match p.retag tags with
    | some tags' => max tags.length (height tags' ps)
    | none => tags.length

/-- The cells that the parts of a run of the tag machine add, up to the first mismatch, with the one
that ends the definition. -/
def codeCells (tags : List ControlTag) : List Part → Nat
  | [] => if tags = [] then 1 else 0
  | p :: ps =>
    p.spends tags +
      match p.retag tags with
      | some tags' => codeCells tags' ps
      | none => 0

variable {tags tags' : List ControlTag} {p : Part} {ps : List Part}

theorem spends_of_retag (h : p.retag tags = some tags') : p.spends tags = p.cells := by
  cases p with
  | control word =>
    obtain ⟨rest, rfl, rfl⟩ := ControlWord.retag_eq_some_iff.mp h
    exact if_pos ((List.take_prefix _ _).trans (List.prefix_append _ _))
  | _ => rfl

theorem length_le_height (tags : List ControlTag) (ps : List Part) :
    tags.length ≤ height tags ps := by
  cases ps with
  | nil => exact Nat.le_refl _
  | cons p ps =>
    unfold height
    split
    · exact Nat.le_max_left _ _
    · exact Nat.le_refl _

theorem height_cons_of_retag (h : p.retag tags = some tags') :
    height tags (p :: ps) = max tags.length (height tags' ps) := by
  rw [height, h]

theorem codeCells_cons_of_retag (h : p.retag tags = some tags') :
    codeCells tags (p :: ps) = p.cells + codeCells tags' ps := by
  rw [codeCells, h, spends_of_retag h]

theorem spends_le_codeCells (tags : List ControlTag) (p : Part) (ps : List Part) :
    p.spends tags ≤ codeCells tags (p :: ps) :=
  Nat.le_add_right _ _

end Part

/-! ### Drafts follow the tag machine -/

/-- The tags of the open structures. -/
def Draft.tags (d : Draft) : List ControlTag :=
  d.pending.map Prod.fst

namespace Part

/-- What a part does to a draft. -/
def draft (limits : Draft.Limits) : Part → EStateM Fault Draft Unit
  | number c => do
    Draft.emit limits Runtime.literal.opcode
    Draft.emit limits c
  | reference c => Draft.emit limits c
  | control word => word.draft limits

end Part

namespace Draft

variable {limits : Limits} {d : Draft}

theorem emit_of_lt (c : Cell) (h : d.code.length < limits.cells) :
    emit limits c d = .ok () ⟨d.code ++ [c], d.pending⟩ :=
  if_pos h

theorem openAt_of_le (i : Nat) (tag : ControlTag) (h : 2 * d.pending.length + 2 ≤ limits.items) :
    openAt limits i tag d = .ok () ⟨d.code, (tag, i) :: d.pending⟩ :=
  if_pos h

theorem close_of_tags {tag : ControlTag} {tags : List ControlTag} (h : d.tags = tag :: tags) :
    ∃ i rest, tags = rest.map Prod.fst ∧ close tag d = .ok i ⟨d.code, rest⟩ := by
  obtain ⟨⟨found, i⟩, rest, hpending, rfl, hrest⟩ := List.map_eq_cons_iff.mp h
  exact ⟨i, rest, hrest.symm, by simp [close, hpending]⟩

theorem close_of_ne {tag : ControlTag} (h : ∀ tags, d.tags ≠ tag :: tags) :
    close tag d = .error .controlMismatch d := by
  unfold close
  cases hpending : d.pending with
  | nil => rfl
  | cons entry rest =>
    obtain ⟨found, i⟩ := entry
    refine if_neg fun hfound => h (rest.map Prod.fst) ?_
    rw [tags, hpending, ← hfound]
    rfl

theorem emitBackward_of_lt (destination : Nat) (h : d.code.length < limits.cells) :
    emitBackward limits destination d =
      .ok () ⟨d.code ++ [offset d.code.length destination], d.pending⟩ :=
  emit_of_lt _ h

theorem markForward_of_room (hcells : d.code.length < limits.cells)
    (hitems : 2 * d.pending.length + 2 ≤ limits.items) :
    markForward limits d =
      .ok () ⟨d.code ++ [0], (.origin, d.code.length) :: d.pending⟩ :=
  (bind_of_ok (emit_of_lt 0 hcells)).trans (openAt_of_le _ _ hitems)

end Draft

/-! ### What each control word does to a draft -/

namespace ControlWord

section Draft

variable {limits : Draft.Limits} {code : List Cell} {pending : List (ControlTag × Nat)} {i j : Nat}

theorem draft_openIf (hcells : code.length + 2 ≤ limits.cells)
    (hitems : 2 * (pending.length + 1) ≤ limits.items) :
    openIf.draft limits ⟨code, pending⟩ =
      .ok () ⟨code ++ [Runtime.zeroBranch.opcode, 0], (.origin, code.length + 1) :: pending⟩ := by
  rw [draft, bind_of_ok (Draft.emit_of_lt _ (by simp; omega)),
    Draft.markForward_of_room (by simp; omega) (by simp; omega)]
  simp

theorem draft_turnElse (hcells : code.length + 2 ≤ limits.cells)
    (hitems : 2 * (pending.length + 1) ≤ limits.items) :
    turnElse.draft limits ⟨code, (.origin, i) :: pending⟩ =
      .ok () ⟨(code ++ [Runtime.branch.opcode, 0]).set i (Draft.offset i (code.length + 2)),
        (.origin, code.length + 1) :: pending⟩ := by
  have hclose : Draft.close .origin ⟨code, (.origin, i) :: pending⟩ = .ok i ⟨code, pending⟩ := rfl
  rw [draft, bind_of_ok hclose, bind_of_ok (Draft.emit_of_lt _ (by simp; omega)),
    bind_of_ok (Draft.markForward_of_room (by simp; omega) (by simp; omega))]
  simp [Draft.resolveForward]

theorem draft_closeThen :
    closeThen.draft limits ⟨code, (.origin, i) :: pending⟩ =
      .ok () ⟨code.set i (Draft.offset i code.length), pending⟩ := rfl

theorem draft_openBegin (hitems : 2 * (pending.length + 1) ≤ limits.items) :
    openBegin.draft limits ⟨code, pending⟩ =
      .ok () ⟨code, (.destination, code.length) :: pending⟩ :=
  Draft.openAt_of_le _ _ (by simp; omega)

/-- A word that closes a loop adds an action and an offset. -/
theorem draft_closeBackward {word : ControlWord} {tag : ControlTag} {r : Runtime}
    (hword : word.draft limits = do
      let destination ← Draft.close tag
      Draft.emit limits r.opcode
      Draft.emitBackward limits destination) (hcells : code.length + 2 ≤ limits.cells) :
    word.draft limits ⟨code, (tag, i) :: pending⟩ =
      .ok () ⟨code ++ [r.opcode, Draft.offset (code.length + 1) i], pending⟩ := by
  have hclose : Draft.close tag ⟨code, (tag, i) :: pending⟩ = .ok i ⟨code, pending⟩ := by
    simp [Draft.close]
  rw [hword, bind_of_ok hclose, bind_of_ok (Draft.emit_of_lt _ (by simp; omega)),
    Draft.emitBackward_of_lt _ (by simp; omega)]
  simp

theorem draft_turnWhile (hcells : code.length + 2 ≤ limits.cells)
    (hitems : 2 * (pending.length + 2) ≤ limits.items) :
    turnWhile.draft limits ⟨code, (.destination, i) :: pending⟩ =
      .ok () ⟨code ++ [Runtime.zeroBranch.opcode, 0],
        (.destination, i) :: (.origin, code.length + 1) :: pending⟩ := by
  have hclose : Draft.close .destination ⟨code, (.destination, i) :: pending⟩ =
      .ok i ⟨code, pending⟩ := rfl
  rw [draft, bind_of_ok hclose, bind_of_ok (Draft.emit_of_lt _ (by simp; omega)),
    bind_of_ok (Draft.markForward_of_room (by simp; omega) (by simp; omega)),
    Draft.openAt_of_le _ _ (by simp; omega)]
  simp

theorem draft_closeRepeat (hcells : code.length + 2 ≤ limits.cells) :
    closeRepeat.draft limits ⟨code, (.destination, i) :: (.origin, j) :: pending⟩ =
      .ok () ⟨(code ++ [Runtime.branch.opcode, Draft.offset (code.length + 1) i]).set j
        (Draft.offset j (code.length + 2)), pending⟩ := by
  have hclose : Draft.close .destination ⟨code, (.destination, i) :: (.origin, j) :: pending⟩ =
      .ok i ⟨code, (.origin, j) :: pending⟩ := rfl
  have horigin : ∀ code : List Cell,
      Draft.close .origin ⟨code, (.origin, j) :: pending⟩ = .ok j ⟨code, pending⟩ := fun _ => rfl
  rw [draft, bind_of_ok hclose, bind_of_ok (Draft.emit_of_lt _ (by simp; omega)),
    bind_of_ok (Draft.emitBackward_of_lt _ (by simp; omega)), bind_of_ok (horigin _)]
  simp [Draft.resolveForward]

theorem draft_openDo (hcells : code.length + 1 ≤ limits.cells)
    (hitems : 2 * (pending.length + 1) ≤ limits.items) :
    openDo.draft limits ⟨code, pending⟩ =
      .ok () ⟨code ++ [Runtime.enterLoop.opcode], (.countedLoop, code.length + 1) :: pending⟩ := by
  rw [draft, bind_of_ok (Draft.emit_of_lt _ (by simp; omega))]
  exact (Draft.openAt_of_le _ _ (by simp; omega)).trans (by simp)

end Draft

variable {limits : Draft.Limits} {d : Draft} {tags : List ControlTag}

/-- Where the tag machine goes on, so does the draft, if there is room. -/
theorem draft_of_retag {word : ControlWord} (h : word.retag d.tags = some tags)
    (hcells : d.code.length + (Part.control word).cells ≤ limits.cells)
    (hitems : 2 * tags.length ≤ limits.items) :
    ∃ d', word.draft limits d = .ok () d' ∧ d'.tags = tags ∧
      d'.code.length = d.code.length + (Part.control word).cells := by
  obtain ⟨rest, htags, rfl⟩ := retag_eq_some_iff.mp h
  obtain ⟨code, pending⟩ := d
  -- The tags that a word needs are those of the innermost open structures.
  have hcons : ∀ {tag tags} {pending : List (ControlTag × Nat)},
      pending.map Prod.fst = tag :: tags →
        ∃ i others, pending = (tag, i) :: others ∧ others.map Prod.fst = tags := by
    intro tag tags pending hmap
    obtain ⟨⟨found, i⟩, others, rfl, rfl, hothers⟩ := List.map_eq_cons_iff.mp hmap
    exact ⟨i, others, rfl, hothers⟩
  cases word with
  | openIf =>
    obtain rfl : pending.map Prod.fst = rest := htags
    simp only [leaves, List.length_append, List.length_map, List.length_cons,
      List.length_nil] at hitems
    exact ⟨_, draft_openIf hcells (by omega), rfl, by simp [Part.cells]⟩
  | turnElse =>
    obtain ⟨i, pending, rfl, rfl⟩ := hcons htags
    simp only [leaves, List.length_append, List.length_map, List.length_cons,
      List.length_nil] at hitems
    exact ⟨_, draft_turnElse hcells (by omega), rfl, by simp [Part.cells]⟩
  | closeThen =>
    obtain ⟨i, pending, rfl, rfl⟩ := hcons htags
    exact ⟨_, draft_closeThen, rfl, by simp [Part.cells]⟩
  | openBegin =>
    obtain rfl : pending.map Prod.fst = rest := htags
    simp only [leaves, List.length_append, List.length_map, List.length_cons,
      List.length_nil] at hitems
    exact ⟨_, draft_openBegin (by omega), rfl, rfl⟩
  | turnWhile =>
    obtain ⟨i, pending, rfl, rfl⟩ := hcons htags
    simp only [leaves, List.length_append, List.length_map, List.length_cons,
      List.length_nil] at hitems
    exact ⟨_, draft_turnWhile hcells (by omega), rfl, by simp [Part.cells]⟩
  | closeRepeat =>
    obtain ⟨i, pending, rfl, hrest⟩ := hcons htags
    obtain ⟨j, pending, rfl, rfl⟩ := hcons hrest
    exact ⟨_, draft_closeRepeat hcells, rfl, by simp [Part.cells]⟩
  | openDo =>
    obtain rfl : pending.map Prod.fst = rest := htags
    simp only [leaves, List.length_append, List.length_map, List.length_cons,
      List.length_nil] at hitems
    exact ⟨_, draft_openDo hcells (by omega), rfl, by simp [Part.cells]⟩
  | closeUntil | closeAgain | closeLoop | closePlusLoop =>
    obtain ⟨i, pending, rfl, rfl⟩ := hcons htags
    exact ⟨_, draft_closeBackward rfl hcells, rfl, by simp [Part.cells]⟩

/-- Where the tag machine fails, so does the draft, if there is room. -/
theorem draft_of_retag_eq_none {word : ControlWord} (h : word.retag d.tags = none)
    (hcells : d.code.length + (Part.control word).spends d.tags ≤ limits.cells) :
    ∃ d', word.draft limits d = .error .controlMismatch d' := by
  rw [retag_eq_none_iff] at h
  have hclose : ∀ tag, [tag] = word.needs → Draft.close tag d = .error .controlMismatch d :=
    fun tag hneeds => Draft.close_of_ne fun tags htags => h (hneeds ▸ ⟨tags, htags.symm⟩)
  cases word with
  | openIf => exact absurd ⟨_, rfl⟩ h
  | turnElse => exact ⟨d, bind_of_error (hclose .origin rfl)⟩
  | closeThen => exact ⟨d, bind_of_error (hclose .origin rfl)⟩
  | openBegin => exact absurd ⟨_, rfl⟩ h
  | closeUntil => exact ⟨d, bind_of_error (hclose .destination rfl)⟩
  | closeAgain => exact ⟨d, bind_of_error (hclose .destination rfl)⟩
  | turnWhile => exact ⟨d, bind_of_error (hclose .destination rfl)⟩
  | closeRepeat =>
    by_cases hdestination : ∃ tags, d.tags = .destination :: tags
    · obtain ⟨tags, htags⟩ := hdestination
      obtain ⟨i, rest, rfl, hclose⟩ := Draft.close_of_tags htags
      have hspends : (Part.control closeRepeat).spends d.tags = 2 :=
        if_pos ⟨rest.map Prod.fst, htags.symm⟩
      rw [hspends] at hcells
      rw [draft, bind_of_ok hclose, bind_of_ok (Draft.emit_of_lt _ (by simp; omega)),
        bind_of_ok (Draft.emitBackward_of_lt _ (by simp; omega))]
      refine ⟨_, bind_of_error (Draft.close_of_ne fun tags horigin => h ⟨tags, ?_⟩)⟩
      exact (htags.trans (congrArg (ControlTag.destination :: ·) horigin)).symm
    · exact ⟨d, bind_of_error (Draft.close_of_ne fun tags htags => hdestination ⟨tags, htags⟩)⟩
  | openDo => exact absurd ⟨_, rfl⟩ h
  | closeLoop => exact ⟨d, bind_of_error (hclose .countedLoop rfl)⟩
  | closePlusLoop => exact ⟨d, bind_of_error (hclose .countedLoop rfl)⟩

end ControlWord

namespace Part

variable {limits : Draft.Limits} {d : Draft} {tags : List ControlTag} {p : Part} {ps : List Part}

theorem draft_of_retag (h : p.retag d.tags = some tags)
    (hcells : d.code.length + p.cells ≤ limits.cells) (hitems : 2 * tags.length ≤ limits.items) :
    ∃ d', p.draft limits d = .ok () d' ∧ d'.tags = tags ∧
      d'.code.length = d.code.length + p.cells := by
  cases p with
  | control word => exact ControlWord.draft_of_retag h hcells hitems
  | number c =>
    cases h
    simp only [cells] at hcells
    rw [draft, bind_of_ok (Draft.emit_of_lt _ (by omega)), Draft.emit_of_lt _ (by simp; omega)]
    exact ⟨_, rfl, rfl, by simp [cells]⟩
  | reference c =>
    cases h
    simp only [cells] at hcells
    exact ⟨_, Draft.emit_of_lt _ (by omega), rfl, by simp [cells]⟩

theorem draft_of_retag_eq_none (h : p.retag d.tags = none)
    (hcells : d.code.length + p.spends d.tags ≤ limits.cells) :
    ∃ d', p.draft limits d = .error .controlMismatch d' := by
  cases p with
  | control word => exact ControlWord.draft_of_retag_eq_none h hcells
  | _ => cases h

/-- As far as the tag machine runs, a row of parts can be drafted, if there is room for what it gets
to; then there is still room for the rest. -/
theorem forM_draft_of_runTags {rest : List Part} (h : runTags d.tags ps = some tags)
    (hcells : d.code.length + codeCells d.tags (ps ++ rest) ≤ limits.cells)
    (hitems : 2 * height d.tags (ps ++ rest) ≤ limits.items) :
    ∃ d', ps.forM (draft limits) d = .ok () d' ∧ d'.tags = tags ∧
      d'.code.length + codeCells tags rest ≤ limits.cells := by
  induction ps generalizing d with
  | nil =>
    cases h
    exact ⟨d, rfl, rfl, hcells⟩
  | cons p ps ih =>
    obtain ⟨tags', hp, hps⟩ := Option.bind_eq_some_iff.mp h
    rw [List.cons_append, codeCells_cons_of_retag hp] at hcells
    rw [List.cons_append, height_cons_of_retag hp] at hitems
    have hopen := length_le_height tags' (ps ++ rest)
    have hroom : d.code.length + p.cells ≤ limits.cells := by omega
    obtain ⟨d₁, hdraft, rfl, hlength⟩ := draft_of_retag hp hroom (by omega)
    obtain ⟨d₂, hforM, htags, hleft⟩ := ih hps (by omega) (by omega)
    exact ⟨d₂, (bind_of_ok hdraft).trans hforM, htags, hleft⟩

end Part

end CellForth
