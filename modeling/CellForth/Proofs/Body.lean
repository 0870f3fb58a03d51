import CellForth.Proofs.Store
import CellForth.Proofs.TagMachine

/-!
# Structured bodies

The body of a definition, as long as its control structures are properly nested, is a tree. `Body`
is the type of these trees. Its leaves are numbers, primitives, calls of earlier definitions and the
index of a counted loop. The index can be asked for only directly inside of such a loop, since
elsewhere the return stack has something else on top; the scope in the type says so, and no tree
breaks the rule. A call carries the body of the definition that it calls, so trees are finite and a
definition calls earlier ones only.

A tree has two linear forms. `Body.parts` is how it is written, as parts that tokens denote, and
`Body.code` is the threaded code for it. In that code every jump is an offset between two places of
the tree's own code, so it is the same wherever it stands. That parts add code to a draft, whatever
the draft, is `Draft.Adds`, and there is a rule of it for every structure. The main result is
`Body.becomes`: with room for the code and for the structures that are open at the same time,
drafting the parts adds the code and leaves nothing open.
-/

namespace CellForth

/-- Where a body stands, which decides what is on top of the return stack. -/
inductive Scope where
  /-- In a definition, outside of its counted loops. -/
  | definition
  /-- Directly inside of a counted loop. -/
  | countedLoop
  deriving DecidableEq

/-- By what a counted loop steps its index. -/
inductive Stride where
  /-- By one. -/
  | one
  /-- By a number from the stack. -/
  | popped
  deriving DecidableEq

namespace Stride

/-- The word that closes the loop. -/
def closing : Stride → ControlWord
  | one => .closeLoop
  | popped => .closePlusLoop

/-- The action at the end of the loop. -/
def runtime : Stride → Runtime
  | one => .stepLoop
  | popped => .stepLoopBy

end Stride

/-- The body of a definition, or a part of one. Words are given by the cells that refer to them. -/
inductive Body : Scope → Type where
  /-- Nothing. -/
  | empty {scope : Scope} : Body scope
  /-- A number. -/
  | number {scope : Scope} (c : Cell) : Body scope
  /-- A primitive, and its opcode. -/
  | word {scope : Scope} (op : Cell) (p : Primitive) : Body scope
  /-- An earlier definition, its token and its body. -/
  | call {scope : Scope} (xt : Cell) (body : Body .definition) : Body scope
  /-- The index of the loop around, and the opcode of the word for it. -/
  | index (op : Cell) : Body .countedLoop
  /-- One after the other. -/
  | seq {scope : Scope} (first second : Body scope) : Body scope
  /-- `if … then`. -/
  | ifThen {scope : Scope} (body : Body scope) : Body scope
  /-- `if … else … then`. -/
  | ifElse {scope : Scope} (yes no : Body scope) : Body scope
  /-- `begin … until`. -/
  | beginUntil {scope : Scope} (body : Body scope) : Body scope
  /-- `begin … again`. -/
  | beginAgain {scope : Scope} (body : Body scope) : Body scope
  /-- `begin … while … repeat`. -/
  | beginWhile {scope : Scope} (test body : Body scope) : Body scope
  /-- `do … loop` or `do … +loop`. -/
  | counted {scope : Scope} (stride : Stride) (body : Body .countedLoop) : Body scope

namespace Body

/-- How the body is written. -/
def parts : {scope : Scope} → Body scope → List Part
  | _, empty => []
  | _, number c => [.number c]
  | _, word op _ => [.reference op]
  | _, call xt _ => [.reference xt]
  | _, index op => [.reference op]
  | _, seq first second => first.parts ++ second.parts
  | _, ifThen body => .control .openIf :: (body.parts ++ [.control .closeThen])
  | _, ifElse yes no =>
    .control .openIf :: (yes.parts ++ .control .turnElse :: (no.parts ++ [.control .closeThen]))
  | _, beginUntil body => .control .openBegin :: (body.parts ++ [.control .closeUntil])
  | _, beginAgain body => .control .openBegin :: (body.parts ++ [.control .closeAgain])
  | _, beginWhile test body =>
    .control .openBegin ::
      (test.parts ++ .control .turnWhile :: (body.parts ++ [.control .closeRepeat]))
  | _, counted stride body => .control .openDo :: (body.parts ++ [.control stride.closing])

open CellForth.Runtime Draft in
/-- The threaded code of the body. The places between which an offset leads are counted from the
start of the structure that it belongs to. -/
def code : {scope : Scope} → Body scope → List Cell
  | _, empty => []
  | _, number c => [literal.opcode, c]
  | _, word op _ => [op]
  | _, call xt _ => [xt]
  | _, index op => [op]
  | _, seq first second => first.code ++ second.code
  | _, ifThen body => zeroBranch.opcode :: offset 1 (body.code.length + 2) :: body.code
  | _, ifElse yes no =>
    zeroBranch.opcode :: offset 1 (yes.code.length + 4) :: (yes.code ++
      branch.opcode :: offset (yes.code.length + 3) (yes.code.length + no.code.length + 4) ::
        no.code)
  | _, beginUntil body => body.code ++ [zeroBranch.opcode, offset (body.code.length + 1) 0]
  | _, beginAgain body => body.code ++ [branch.opcode, offset (body.code.length + 1) 0]
  | _, beginWhile test body =>
    test.code ++
      zeroBranch.opcode ::
        offset (test.code.length + 1) (test.code.length + body.code.length + 4) ::
        (body.code ++ [branch.opcode, offset (test.code.length + body.code.length + 3) 0])
  | _, counted stride body =>
    enterLoop.opcode :: (body.code ++ [stride.runtime.opcode, offset (body.code.length + 2) 1])

/-- The greatest number of structures that are open at the same time while the body is compiled. -/
def nesting : {scope : Scope} → Body scope → Nat
  | _, empty | _, number _ | _, word _ _ | _, call _ _ | _, index _ => 0
  | _, seq first second => max first.nesting second.nesting
  | _, ifThen body | _, beginUntil body | _, beginAgain body | _, counted _ body => body.nesting + 1
  | _, ifElse yes no => max yes.nesting no.nesting + 1
  | _, beginWhile test body => max (test.nesting + 1) (body.nesting + 2)

end Body

/-! ### Drafting a body -/

namespace Draft

/-- With the given room, a row of parts makes the second draft from the first. -/
def Becomes (limits : Limits) (ps : List Part) (d d' : Draft) : Prop :=
  ps.forM (Part.draft limits) d = .ok () d'

namespace Becomes

variable {limits : Limits} {d d' d'' : Draft} {ps qs : List Part}

theorem nil : Becomes limits [] d d := rfl

theorem cons {p : Part} (hp : p.draft limits d = .ok () d') (h : Becomes limits ps d' d'') :
    Becomes limits (p :: ps) d d'' :=
  (bind_of_ok hp).trans h

theorem control {word : ControlWord} (hword : word.draft limits d = .ok () d')
    (h : Becomes limits ps d' d'') : Becomes limits (.control word :: ps) d d'' :=
  cons (p := .control word) hword h

theorem reference (c : Cell) (hroom : d.code.length < limits.cells) :
    Becomes limits [.reference c] d ⟨d.code ++ [c], d.pending⟩ :=
  cons (p := .reference c) (emit_of_lt c hroom) nil

theorem append (h : Becomes limits ps d d') (h' : Becomes limits qs d' d'') :
    Becomes limits (ps ++ qs) d d'' := by
  have hbind : (ps ++ qs).forM (Part.draft limits) =
      ps.forM (Part.draft limits) >>= fun _ => qs.forM (Part.draft limits) := List.forM_append
  exact (congrFun hbind d).trans ((bind_of_ok h).trans h')

theorem of_code {code code' : List Cell} {pending : List (ControlTag × Nat)}
    (h : Becomes limits ps d ⟨code, pending⟩) (hcode : code = code') :
    Becomes limits ps d ⟨code', pending⟩ :=
  hcode ▸ h

end Becomes

/-- An offset between two places is the same when both are counted from elsewhere. -/
theorem offset_congr {origin target i j : Nat} (start : Nat) (horigin : origin = start + i)
    (htarget : target = start + j) : offset origin target = offset i j := by
  rw [horigin, htarget]
  exact offset_eq start i j

/-- Setting the operand of an action behind a row of code. -/
theorem set_operand (cs ds : List Cell) (action c c' : Cell) :
    (cs ++ action :: c :: ds).set (cs.length + 1) c' = cs ++ action :: c' :: ds := by
  rw [List.set_append_right _ _ (Nat.le_add_right _ 1), Nat.add_sub_cancel_left]
  rfl

/-- A row of parts adds a row of code to any draft, if there is room for the code and for `nesting`
more structures that are open at the same time, and leaves open what was open before. -/
def Adds (limits : Limits) (ps : List Part) (cs : List Cell) (nesting : Nat) : Prop :=
  ∀ ⦃code : List Cell⦄ ⦃pending : List (ControlTag × Nat)⦄,
    code.length + cs.length ≤ limits.cells → 2 * (pending.length + nesting) ≤ limits.items →
    Becomes limits ps ⟨code, pending⟩ ⟨code ++ cs, pending⟩

namespace Adds

variable {limits : Limits} {ps qs : List Part} {cs ds : List Cell} {n k : Nat}

theorem nil : Adds limits [] [] 0 := by
  intro code pending _ _
  rw [List.append_nil]
  exact .nil

theorem number (c : Cell) : Adds limits [.number c] [Runtime.literal.opcode, c] 0 := by
  intro code pending hcells _
  simp only [List.length_cons, List.length_nil] at hcells
  refine .cons ?_ .nil
  rw [Part.draft, bind_of_ok (emit_of_lt _ (by simp; omega)), emit_of_lt _ (by simp; omega)]
  simp

theorem reference (c : Cell) : Adds limits [.reference c] [c] 0 :=
  fun _ _ hcells _ => .reference c hcells

theorem append (hps : Adds limits ps cs n) (hqs : Adds limits qs ds k) :
    Adds limits (ps ++ qs) (cs ++ ds) (max n k) := by
  intro code pending hcells hitems
  rw [List.length_append] at hcells
  rw [← List.append_assoc]
  exact .append (hps (by omega) (by omega)) (hqs (by simp; omega) (by omega))

theorem ifThen (h : Adds limits ps cs n) :
    Adds limits (.control .openIf :: (ps ++ [.control .closeThen]))
      (Runtime.zeroBranch.opcode :: offset 1 (cs.length + 2) :: cs) (n + 1) := by
  intro code pending hcells hitems
  simp only [List.length_cons] at hcells
  have hrun :
      Becomes limits (.control .openIf :: (ps ++ [.control .closeThen])) ⟨code, pending⟩ _ :=
    .control (ControlWord.draft_openIf (by omega) (by omega))
      (.append (h (by simp; omega) (by simp; omega)) (.control ControlWord.draft_closeThen .nil))
  have hforward : offset (code.length + 1)
      ((code ++ [Runtime.zeroBranch.opcode, 0]) ++ cs).length = offset 1 (cs.length + 2) :=
    offset_congr code.length rfl (by simp)
  refine hrun.of_code ?_
  rw [hforward, List.append_assoc]
  exact set_operand ..

/-- Up to the `else`, an alternative is drafted around two offsets, of which the first is set when
the second is added. -/
theorem untilElse (h : Adds limits ps cs n) (code : List Cell) (pending : List (ControlTag × Nat))
    (hcells : code.length + (cs.length + 4) ≤ limits.cells)
    (hitems : 2 * (pending.length + (n + 1)) ≤ limits.items) :
    Becomes limits (.control .openIf :: (ps ++ [.control .turnElse])) ⟨code, pending⟩
      ⟨(code ++ Runtime.zeroBranch.opcode :: offset 1 (cs.length + 4) :: cs) ++
          [Runtime.branch.opcode, 0],
        (.origin, code.length + (cs.length + 3)) :: pending⟩ := by
  have hrun : Becomes limits (.control .openIf :: (ps ++ [.control .turnElse])) ⟨code, pending⟩ _ :=
    .control (ControlWord.draft_openIf (by omega) (by omega))
      (.append (h (by simp; omega) (by simp; omega))
        (.control (ControlWord.draft_turnElse (by simp; omega) (by omega)) .nil))
  have hforward : offset (code.length + 1)
      (((code ++ [Runtime.zeroBranch.opcode, 0]) ++ cs).length + 2) = offset 1 (cs.length + 4) :=
    offset_congr code.length rfl (by simp; omega)
  have hlength : ((code ++ [Runtime.zeroBranch.opcode, 0]) ++ cs).length + 1 =
      code.length + (cs.length + 3) := by
    simp
    omega
  rw [hforward, hlength] at hrun
  refine hrun.of_code ?_
  rw [List.append_assoc, List.append_assoc, List.append_assoc]
  exact set_operand ..

theorem ifElse (hps : Adds limits ps cs n) (hqs : Adds limits qs ds k) :
    Adds limits (.control .openIf :: (ps ++ .control .turnElse :: (qs ++ [.control .closeThen])))
      (Runtime.zeroBranch.opcode :: offset 1 (cs.length + 4) :: (cs ++
        Runtime.branch.opcode :: offset (cs.length + 3) (cs.length + ds.length + 4) :: ds))
      (max n k + 1) := by
  intro code pending hcells hitems
  simp only [List.length_cons, List.length_append] at hcells
  -- The first part is the draft up to `else`; the second goes on from there, with the new offset
  -- pending.
  have hfirst := hps.untilElse code pending (by omega) (by omega)
  have hrun := hfirst.append (.append (hqs (by simp; omega) (by simp; omega))
    (.control ControlWord.draft_closeThen .nil))
  have hparts :
      (.control .openIf :: (ps ++ [.control .turnElse])) ++ (qs ++ [.control .closeThen]) =
      .control .openIf :: (ps ++ .control .turnElse :: (qs ++ [.control .closeThen])) := by
    simp
  have hplace : code.length + (cs.length + 3) =
      (code ++ Runtime.zeroBranch.opcode :: offset 1 (cs.length + 4) :: cs).length + 1 := by
    simp
    omega
  have hskip : offset (code.length + (cs.length + 3))
      ((code ++ Runtime.zeroBranch.opcode :: offset 1 (cs.length + 4) :: cs) ++
        [Runtime.branch.opcode, 0] ++ ds).length =
        offset (cs.length + 3) (cs.length + ds.length + 4) :=
    offset_congr code.length rfl (by simp; omega)
  rw [hparts] at hrun
  refine hrun.of_code ?_
  rw [hskip, hplace, List.append_assoc]
  refine Eq.trans (set_operand ..) ?_
  rw [List.append_assoc]
  rfl

/-- Loops that a word closes with an action and the offset back to `begin`. -/
theorem backward {word : ControlWord} {r : Runtime}
    (hword : word.draft limits = do
      let destination ← close .destination
      emit limits r.opcode
      emitBackward limits destination) (h : Adds limits ps cs n) :
    Adds limits (.control .openBegin :: (ps ++ [.control word]))
      (cs ++ [r.opcode, offset (cs.length + 1) 0]) (n + 1) := by
  intro code pending hcells hitems
  simp only [List.length_append, List.length_cons, List.length_nil] at hcells
  have hrun : Becomes limits (.control .openBegin :: (ps ++ [.control word])) ⟨code, pending⟩ _ :=
    .control (ControlWord.draft_openBegin (by omega))
      (.append (h (by omega) (by simp; omega))
        (.control (ControlWord.draft_closeBackward hword (by simp; omega)) .nil))
  have hback : offset ((code ++ cs).length + 1) code.length = offset (cs.length + 1) 0 :=
    offset_congr code.length (by simp; omega) rfl
  refine hrun.of_code ?_
  rw [hback, List.append_assoc]

theorem beginWhile (hps : Adds limits ps cs n) (hqs : Adds limits qs ds k) :
    Adds limits
      (.control .openBegin :: (ps ++ .control .turnWhile :: (qs ++ [.control .closeRepeat])))
      (cs ++ Runtime.zeroBranch.opcode :: offset (cs.length + 1) (cs.length + ds.length + 4) ::
        (ds ++ [Runtime.branch.opcode, offset (cs.length + ds.length + 3) 0]))
      (max (n + 1) (k + 2)) := by
  intro code pending hcells hitems
  simp only [List.length_append, List.length_cons, List.length_nil] at hcells
  have hrun : Becomes limits
      (.control .openBegin :: (ps ++ .control .turnWhile :: (qs ++ [.control .closeRepeat])))
      ⟨code, pending⟩ _ :=
    .control (ControlWord.draft_openBegin (by omega))
      (.append (hps (by omega) (by simp; omega))
        (.control (ControlWord.draft_turnWhile (by simp; omega) (by omega))
          (.append (hqs (by simp; omega) (by simp; omega))
            (.control (ControlWord.draft_closeRepeat (by simp; omega)) .nil))))
  -- `repeat` closes both pending places: one offset goes back to `begin`, the other from `while`
  -- behind it.
  have hback :
      offset (((code ++ cs) ++ [Runtime.zeroBranch.opcode, 0] ++ ds).length + 1) code.length =
      offset (cs.length + ds.length + 3) 0 :=
    offset_congr code.length (by simp; omega) rfl
  have hforward : offset ((code ++ cs).length + 1)
      (((code ++ cs) ++ [Runtime.zeroBranch.opcode, 0] ++ ds).length + 2) =
        offset (cs.length + 1) (cs.length + ds.length + 4) :=
    offset_congr code.length (by simp; omega) (by simp; omega)
  refine hrun.of_code ?_
  rw [hback, hforward, List.append_assoc, List.append_assoc]
  refine Eq.trans (set_operand ..) ?_
  rw [List.append_assoc]
  rfl

theorem counted (stride : Stride) (h : Adds limits ps cs n) :
    Adds limits (.control .openDo :: (ps ++ [.control stride.closing]))
      (Runtime.enterLoop.opcode :: (cs ++ [stride.runtime.opcode, offset (cs.length + 2) 1]))
      (n + 1) := by
  intro code pending hcells hitems
  simp only [List.length_append, List.length_cons, List.length_nil] at hcells
  have hclose : stride.closing.draft limits = (do
      let destination ← close .countedLoop
      emit limits stride.runtime.opcode
      emitBackward limits destination) := by
    cases stride <;> rfl
  have hrun : Becomes limits (.control .openDo :: (ps ++ [.control stride.closing]))
      ⟨code, pending⟩ _ :=
    .control (ControlWord.draft_openDo (by omega) (by omega))
      (.append (h (by simp; omega) (by simp; omega))
        (.control (ControlWord.draft_closeBackward hclose (by simp; omega)) .nil))
  have hback : offset (((code ++ [Runtime.enterLoop.opcode]) ++ cs).length + 1) (code.length + 1) =
      offset (cs.length + 2) 1 :=
    offset_congr code.length (by simp; omega) rfl
  refine hrun.of_code ?_
  rw [hback, List.append_assoc, List.append_assoc]
  rfl

end Adds

end Draft

namespace Body

/-- The parts of a body add its code. -/
theorem adds {scope : Scope} (b : Body scope) (limits : Draft.Limits) :
    Draft.Adds limits b.parts b.code b.nesting := by
  induction b with
  | empty => exact .nil
  | number c => exact .number c
  | word op p => exact .reference op
  | call xt body => exact .reference xt
  | index op => exact .reference op
  | seq first second ih₁ ih₂ => exact ih₁.append ih₂
  | ifThen body ih => exact ih.ifThen
  | ifElse yes no ih₁ ih₂ => exact ih₁.ifElse ih₂
  | beginUntil body ih => exact ih.backward rfl
  | beginAgain body ih => exact ih.backward rfl
  | beginWhile test body ih₁ ih₂ => exact ih₁.beginWhile ih₂
  | counted stride body ih => exact ih.counted stride

/-- With room for its code and for its open structures, drafting the parts of a body adds its
code. -/
theorem becomes {scope : Scope} (b : Body scope) {limits : Draft.Limits} {code : List Cell}
    {pending : List (ControlTag × Nat)} (hcells : code.length + b.code.length ≤ limits.cells)
    (hitems : 2 * (pending.length + b.nesting) ≤ limits.items) :
    Draft.Becomes limits b.parts ⟨code, pending⟩ ⟨code ++ b.code, pending⟩ :=
  b.adds limits hcells hitems

end Body

end CellForth
