import CellForth.Proofs.Instructions

/-!
# Compiled bodies do what they mean

The threaded code of a body, run anywhere in the dictionary, follows the evaluation of the body.
This is `Body.simulates`, by induction on the tree, and each kind of structure is one case of it.
The statement fixes what is on the return stack: the frame of the body on top, then whatever the
caller of the definition has there. At the end all of this is in place again, however many loops and
calls the body has made in between.

Two things are asked of the machine. The code of every definition that the body calls, directly or
not, must stand where the calls lead to, and opcodes must lead to their actions (`Body.Stands`). And
the return stack must have room for the counters of the loops and the return addresses of the calls
that are active at the same time (`Body.depth`).
-/

namespace CellForth

namespace Body

/-- Opcodes in the body lead to their actions, and the code of the definitions that it calls stands
in the dictionary, below a bound. -/
def Stands (m : Machine) (bound : Nat) : {scope : Scope} → Body scope → Prop
  | _, empty | _, number _ => True
  | _, word op p => m.Native op p.action
  | _, call xt body =>
    m.memory.Code bound xt.toNat (Runtime.nest.opcode :: (body.code ++ [Runtime.exit.opcode])) ∧
      body.Stands m bound
  | _, index op => m.Native op (.returns .fetchReturn)
  | _, seq first second => first.Stands m bound ∧ second.Stands m bound
  | _, ifThen body | _, beginUntil body | _, beginAgain body | _, counted _ body =>
    body.Stands m bound
  | _, ifElse yes no => yes.Stands m bound ∧ no.Stands m bound
  | _, beginWhile test body => test.Stands m bound ∧ body.Stands m bound

/-- The greatest number of items that the body has on the return stack at the same time. -/
def depth : {scope : Scope} → Body scope → Nat
  | _, empty | _, number _ | _, word _ _ | _, index _ => 0
  | _, call _ body => body.depth + 1
  | _, seq first second | _, ifElse first second | _, beginWhile first second =>
    max first.depth second.depth
  | _, ifThen body | _, beginUntil body | _, beginAgain body => body.depth
  | _, counted _ body => body.depth + 2

end Body

namespace Draft

/-- An offset leads from its own place to its target. -/
theorem ofNat_add_offset (start i j : Nat) :
    UInt16.ofNat (start + i) + offset i j = UInt16.ofNat (start + j) := by
  rw [← offset_eq start i j]
  grind

end Draft

namespace Machine

/-- Run with the given items on the return stack, the code at a place follows an evaluation and ends
behind itself, with these items in place. -/
def Simulates (m₀ : Machine) (rounds : Nat) (returns : List Cell) (pos : Nat) (cs : List Cell)
    (x : Eval Unit) : Prop :=
  ∀ s m, m₀.Running s returns pos m →
    m₀.Follows rounds m (fun _ s' m' => m₀.Running s' returns (pos + cs.length) m') (x s)

namespace Simulates

variable {m₀ : Machine} {rounds : Nat} {returns : List Cell} {pos : Nat} {cs ds : List Cell}
  {x y : Eval Unit}

theorem nil : m₀.Simulates rounds returns pos [] (pure ()) :=
  fun _ _ h => .pure h

theorem append (hx : m₀.Simulates rounds returns pos cs x)
    (hy : m₀.Simulates rounds returns (pos + cs.length) ds y) :
    m₀.Simulates rounds returns pos (cs ++ ds) (do x; y) := by
  intro s m h
  refine (hx s m h).bind fun _ _ s' m' _ h' => ?_
  rw [List.length_append, ← Nat.add_assoc]
  exact hy s' m' h'

variable (hequipped : m₀.Equipped)
include hequipped

open CellForth.Runtime Draft

theorem ifThen (hcode : m₀.HasCode pos (zeroBranch.opcode :: offset 1 (cs.length + 2) :: cs))
    (hx : m₀.Simulates rounds returns (pos + 2) cs x) :
    m₀.Simulates rounds returns pos (zeroBranch.opcode :: offset 1 (cs.length + 2) :: cs) (do
      let flag ← .of Store.pop
      if flag = 0 then pure () else x) := by
  intro s m h
  have htarget := ofNat_add_offset pos 1 (cs.length + 2)
  refine (h.follows_zeroBranch hequipped hcode htarget).bind fun _ flag s' m' _ hpost => ?_
  obtain ⟨-, h'⟩ := hpost
  by_cases hflag : flag = 0
  · rw [if_pos hflag] at h' ⊢
    exact .pure h'
  · rw [if_neg hflag] at h' ⊢
    exact (hx s' m' h').imp fun _ _ _ h'' => h''.at_eq (by simp; omega)

theorem ifElse
    (hcode : m₀.HasCode pos (zeroBranch.opcode :: offset 1 (cs.length + 4) :: (cs ++
      branch.opcode :: offset (cs.length + 3) (cs.length + ds.length + 4) :: ds)))
    (hx : m₀.Simulates rounds returns (pos + 2) cs x)
    (hy : m₀.Simulates rounds returns (pos + 2 + cs.length + 2) ds y) :
    m₀.Simulates rounds returns pos (zeroBranch.opcode :: offset 1 (cs.length + 4) :: (cs ++
        branch.opcode :: offset (cs.length + 3) (cs.length + ds.length + 4) :: ds)) (do
      let flag ← .of Store.pop
      if flag = 0 then y else x) := by
  intro s m h
  have htarget := ofNat_add_offset pos 1 (cs.length + 4)
  refine (h.follows_zeroBranch hequipped hcode htarget).bind fun _ flag s' m' _ hpost => ?_
  obtain ⟨-, h'⟩ := hpost
  by_cases hflag : flag = 0
  · rw [if_pos hflag] at h' ⊢
    have hstart : pos + (cs.length + 4) = pos + 2 + cs.length + 2 := by omega
    exact (hy s' m' (h'.at_eq hstart)).imp fun _ _ _ h'' => h''.at_eq (by simp; omega)
  · rw [if_neg hflag] at h' ⊢
    -- The first arm ends in front of a jump over the second.
    refine (hx s' m' h').andThen fun _ _ s'' m'' _ h'' => ?_
    have hskip : UInt16.ofNat (pos + 2 + cs.length + 1) +
        offset (cs.length + 3) (cs.length + ds.length + 4) =
          UInt16.ofNat (pos + (cs.length + ds.length + 4)) := by
      rw [← ofNat_add_offset pos (cs.length + 3)]
      congr 2
      omega
    obtain ⟨m₃, hreach, h₃⟩ := h''.reaches_branch hequipped hcode.tail.tail.right hskip
    exact ⟨1, m₃, hreach, h₃.at_eq (by simp; omega)⟩

theorem beginUntil (hcode : m₀.HasCode pos (cs ++ [zeroBranch.opcode, offset (cs.length + 1) 0]))
    (hx : m₀.Simulates rounds returns pos cs x) :
    m₀.Simulates rounds returns pos (cs ++ [zeroBranch.opcode, offset (cs.length + 1) 0])
      (.loop rounds () fun _ => do
        x
        let flag ← .of Store.pop
        return if flag = 0 then some () else none) := by
  intro s m h
  refine Follows.loop (I := fun _ s m => m₀.Running s returns pos m)
    (fun _ s m h => h.ip_ne_zero_of_code hcode (by simp)) (fun _ s m h => ?_) (Nat.le_refl _) h
  refine (hx s m h).bind fun n _ s' m' hreach h' => ?_
  have hback := ofNat_add_offset pos (cs.length + 1) 0
  refine (h'.follows_zeroBranch hequipped hcode.right hback).bind fun _ flag s'' m'' _ hpost => ?_
  obtain ⟨hone, h''⟩ := hpost
  by_cases hflag : flag = 0
  · rw [if_pos hflag] at h'' ⊢
    exact .pure ⟨⟨n, hreach.trans hone⟩, h''⟩
  · rw [if_neg hflag] at h'' ⊢
    exact .pure (h''.at_eq (by simp; omega))

theorem beginAgain (hcode : m₀.HasCode pos (cs ++ [branch.opcode, offset (cs.length + 1) 0]))
    (hx : m₀.Simulates rounds returns pos cs x) :
    m₀.Simulates rounds returns pos (cs ++ [branch.opcode, offset (cs.length + 1) 0])
      (.loop rounds () fun _ => do
        x
        return some ()) := by
  intro s m h
  refine Follows.loop (I := fun _ s m => m₀.Running s returns pos m)
    (fun _ s m h => h.ip_ne_zero_of_code hcode (by simp)) (fun _ s m h => ?_) (Nat.le_refl _) h
  refine (hx s m h).bind fun n _ s' m' hreach h' => ?_
  have hback := ofNat_add_offset pos (cs.length + 1) 0
  obtain ⟨m'', hone, h''⟩ := h'.reaches_branch hequipped hcode.right hback
  exact (Follows.pure ⟨⟨n, hreach.trans hone⟩, h''⟩).prepend hone

theorem beginWhile
    (hcode : m₀.HasCode pos (cs ++
      zeroBranch.opcode :: offset (cs.length + 1) (cs.length + ds.length + 4) ::
        (ds ++ [branch.opcode, offset (cs.length + ds.length + 3) 0])))
    (hx : m₀.Simulates rounds returns pos cs x)
    (hy : m₀.Simulates rounds returns (pos + cs.length + 2) ds y) :
    m₀.Simulates rounds returns pos (cs ++
        zeroBranch.opcode :: offset (cs.length + 1) (cs.length + ds.length + 4) ::
          (ds ++ [branch.opcode, offset (cs.length + ds.length + 3) 0]))
      (.loop rounds () fun _ => do
        x
        let flag ← .of Store.pop
        if flag = 0 then return none
        else
          y
          return some ()) := by
  intro s m h
  -- Each round begins where the first does.
  refine Follows.loop (I := fun _ s m => m₀.Running s returns pos m)
    (fun _ s m h => h.ip_ne_zero_of_code hcode (by simp)) (fun _ s m h => ?_) (Nat.le_refl _) h
  refine (hx s m h).bind fun n _ s' m' hreach h' => ?_
  have hout := ofNat_add_offset pos (cs.length + 1) (cs.length + ds.length + 4)
  refine (h'.follows_zeroBranch hequipped hcode.right hout).bind fun _ flag s'' m'' _ hpost => ?_
  obtain ⟨hone, h''⟩ := hpost
  by_cases hflag : flag = 0
  · rw [if_pos hflag] at h'' ⊢
    exact .pure (h''.at_eq (by simp; omega))
  · rw [if_neg hflag] at h'' ⊢
    refine (hy s'' m'' h'').bind fun n' _ s₃ m₃ hreach' h₃ => ?_
    have hback : UInt16.ofNat (pos + cs.length + 2 + ds.length + 1) +
        offset (cs.length + ds.length + 3) 0 = UInt16.ofNat pos := by
      rw [show pos + cs.length + 2 + ds.length + 1 = pos + (cs.length + ds.length + 3) by omega]
      exact ofNat_add_offset pos _ 0
    obtain ⟨m₄, hlast, h₄⟩ := h₃.reaches_branch hequipped hcode.right.tail.tail.right hback
    have hround := ((hreach.trans hone).trans hreach').trans hlast
    exact (Follows.pure ⟨⟨_, hround⟩, h₄⟩).prepend hlast

theorem counted (stride : Stride)
    (hcode : m₀.HasCode pos (enterLoop.opcode ::
      (cs ++ [stride.runtime.opcode, offset (cs.length + 2) 1])))
    (hroom : returns.length + 2 ≤ m₀.returnStack.capacity) {x : Cell → Cell → Eval Unit}
    (hx : ∀ limit i, m₀.Simulates rounds (i :: limit :: returns) (pos + 1) cs (x limit i)) :
    m₀.Simulates rounds returns pos
      (enterLoop.opcode :: (cs ++ [stride.runtime.opcode, offset (cs.length + 2) 1])) (do
        let (limit, start) ← .of Store.popCounters
        .loop rounds start fun i => do
          x limit i
          let n ← .of stride.amount
          return if passesLimit limit i n then none else some (i + n)) := by
  intro s m h
  obtain ⟨c, rest, hrest⟩ : ∃ c rest,
      cs ++ [stride.runtime.opcode, offset (cs.length + 2) 1] = c :: rest :=
    List.exists_cons_of_ne_nil (by simp)
  refine (h.follows_enterLoop hequipped (hrest ▸ hcode) hroom).bind
    fun _ counters s' m' _ hpost => ?_
  obtain ⟨limit, start⟩ := counters
  -- From round to round only the index on top of the return stack changes.
  refine Follows.loop (I := fun i s m => m₀.Running s (i :: limit :: returns) (pos + 1) m)
    (fun _ s m h => h.ip_ne_zero_of_code hcode.tail (by simp)) (fun i s m h => ?_) (Nat.le_refl _)
    hpost.2
  refine (hx limit i s m h).bind fun n _ s' m' hreach h' => ?_
  have hback : UInt16.ofNat (pos + 1 + cs.length + 1) + offset (cs.length + 2) 1 =
      UInt16.ofNat (pos + 1) := by
    rw [show pos + 1 + cs.length + 1 = pos + (cs.length + 2) by omega]
    exact ofNat_add_offset pos _ 1
  refine (h'.follows_stepLoop hequipped stride hcode.tail.right hback).bind
    fun _ n s'' m'' _ hpost => ?_
  obtain ⟨hone, h''⟩ := hpost
  cases hpasses : passesLimit limit i n with
  | true =>
    rw [hpasses, if_pos rfl] at h''
    exact .pure (h''.at_eq (by simp; omega))
  | false =>
    rw [hpasses, if_neg (by simp)] at h''
    exact .pure ⟨⟨_, hreach.trans hone⟩, h''⟩

/-- The code of a definition that has been entered ends where it is to go back to. -/
theorem definition {xt back : Cell} {s : Store} {m : Machine}
    (hbody : m₀.HasCode xt.toNat (nest.opcode :: (cs ++ [exit.opcode])))
    (hx : m₀.Simulates rounds (back :: returns) (xt.toNat + 1) cs x)
    (h : m₀.Running s (back :: returns) (xt.toNat + 1) m) :
    m₀.Follows rounds m (fun _ s' m' => m₀.Running s' returns back.toNat m') (x s) := by
  refine (hx s m h).andThen fun _ _ s' m' _ h' => ?_
  obtain ⟨m'', hone, h''⟩ := h'.reaches_exit hequipped hbody.tail.right
  exact ⟨1, m'', hone, h''⟩

theorem call {xt : Cell} (hcode : m₀.HasCode pos [xt])
    (hbody : m₀.HasCode xt.toNat (nest.opcode :: (cs ++ [exit.opcode])))
    (hroom : returns.length + 1 ≤ m₀.returnStack.capacity)
    (hx : m₀.Simulates rounds (UInt16.ofNat (pos + 1) :: returns) (xt.toNat + 1) cs x) :
    m₀.Simulates rounds returns pos [xt] x := by
  intro s m h
  obtain ⟨m', hone, h'⟩ := h.reaches_call hequipped hcode hbody hroom
  refine ((hx.definition hequipped hbody h').imp fun _ _ _ h'' => h''.at_eq ?_).prepend hone
  have hpos := hcode.pos_lt
  have hlt := m₀.regs.dataBase.toNat_lt
  exact Cell.toNat_ofNat (by omega)

end Simulates

end Machine

/-! ### Bodies -/

namespace Body

open Machine

/-- The code of a body that stands in the dictionary follows the evaluation of the body, if there is
room for it on the return stack. -/
theorem simulates {scope : Scope} (b : Body scope) {m₀ : Machine} (hequipped : m₀.Equipped)
    (hstands : b.Stands m₀ m₀.regs.dataBase.toNat) (rounds : Nat) (frame : Frame scope)
    {returns : List Cell} {pos : Nat} (hcode : m₀.HasCode pos b.code)
    (hroom : (frame.items ++ returns).length + b.depth ≤ m₀.returnStack.capacity) :
    m₀.Simulates rounds (frame.items ++ returns) pos b.code (b.eval rounds frame) := by
  induction b generalizing returns pos with
  | empty => exact .nil
  | number c => exact fun s m h => (h.follows_literal hequipped hcode).imp fun _ _ _ h' => h'.2
  | word op p => exact fun s m h => (h.follows_word hcode hstands).imp fun _ _ _ h' => h'.2
  | index op =>
    cases frame with
    | countedLoop limit i =>
      exact fun s m h => (h.follows_index rfl hcode hstands).imp fun _ _ _ h' => h'.2
  | call xt body ih =>
    obtain ⟨hbody, hstands⟩ := hstands
    simp only [depth] at hroom
    have hx :
        m₀.Simulates rounds (UInt16.ofNat (pos + 1) :: (frame.items ++ returns)) (xt.toNat + 1)
        body.code (body.eval rounds .definition) := by
      have hdeep : (UInt16.ofNat (pos + 1) :: (frame.items ++ returns)).length + body.depth ≤
          m₀.returnStack.capacity := by
        simp only [List.length_cons]
        omega
      exact ih hstands .definition hbody.tail.left hdeep
    exact .call hequipped hcode hbody (by omega) hx
  | seq first second ih₁ ih₂ =>
    simp only [depth] at hroom
    exact (ih₁ hstands.1 frame hcode.left (by omega)).append
      (ih₂ hstands.2 frame hcode.right (by omega))
  | ifThen body ih =>
    exact .ifThen hequipped hcode (ih hstands frame hcode.tail.tail hroom)
  | ifElse yes no ih₁ ih₂ =>
    simp only [depth] at hroom
    exact .ifElse hequipped hcode (ih₁ hstands.1 frame hcode.tail.tail.left (by omega))
      (ih₂ hstands.2 frame hcode.tail.tail.right.tail.tail (by omega))
  | beginUntil body ih =>
    exact .beginUntil hequipped hcode (ih hstands frame hcode.left hroom)
  | beginAgain body ih =>
    exact .beginAgain hequipped hcode (ih hstands frame hcode.left hroom)
  | beginWhile test body ih₁ ih₂ =>
    simp only [depth] at hroom
    exact .beginWhile hequipped hcode (ih₁ hstands.1 frame hcode.left (by omega))
      (ih₂ hstands.2 frame hcode.right.tail.tail.left (by omega))
  | counted stride body ih =>
    simp only [depth] at hroom
    have hx : ∀ limit i, m₀.Simulates rounds (i :: limit :: (frame.items ++ returns)) (pos + 1)
        body.code (body.eval rounds (.countedLoop limit i)) := by
      intro limit i
      have hdeep : (i :: limit :: (frame.items ++ returns)).length + body.depth ≤
          m₀.returnStack.capacity := by
        simp only [List.length_cons]
        omega
      exact ih hstands (.countedLoop limit i) hcode.tail.left hdeep
    exact .counted hequipped stride hcode (by omega) hx

end Body

end CellForth
