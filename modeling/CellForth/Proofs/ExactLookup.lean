import CellForth.Proofs.Lookup
import Mathlib.Logic.Function.Iterate

/-!
# Look-up on any memory

A program can write anywhere in the dictionary. Links can then lead out of memory or in a circle,
and headers can give names that are too long. Look-up answers or fails on any memory, and here is
what its answers and failures say about the chain that links make of it (`Memory.Leads`). Its limit
is exact: where more records have been passed than memory has cells, they are in a circle, and there
is no other record to be met on it (`Memory.Leads.cyclic_of_size_lt`).

One round of look-up is `Memory.findFrom_round`, and what its result says about the chain is
`Memory.Tells`. As loops without a limit of their own but the one that they check (`Walk.step`),
look-up and the list of all records end in as many rounds as memory has cells, and one.
`Machine.find_exact` puts this together.
-/

namespace CellForth

namespace Memory

variable {memory : Memory} {a : Nat} {r : Record} {rs : List Record} {name : List UInt8}

/-! ### Names -/

/-- Is this a visible record whose name can be read and is the given one, up to case? -/
def isVisiblyNamed (memory : Memory) (name : List UInt8) (r : Record) : Bool :=
  !r.isHidden &&
    match memory.recordName r with
    | .ok bs => sameName bs name
    | .error _ => false

theorem isVisiblyNamed_iff :
    memory.isVisiblyNamed name r = true ↔
      r.isHidden = false ∧ ∃ bs, memory.recordName r = .ok bs ∧ sameName bs name = true := by
  unfold isVisiblyNamed
  cases memory.recordName r with
  | error e => simp
  | ok bs => simp

/-- A name that is spelled out to its end can be read. -/
theorem exists_getByte_of_spells {pos i : Nat} (h : memory.spells pos i name = .ok true) {j : Nat}
    (hj : j < name.length) : ∃ b, memory.getByte pos (i + j) = .ok b := by
  induction name generalizing i j with
  | nil => exact absurd hj (Nat.not_lt_zero _)
  | cons c rest ih =>
    unfold spells at h
    cases hbyte : memory.getByte pos i with
    | error e =>
      rw [hbyte] at h
      cases h
    | ok b =>
      cases j with
      | zero => exact ⟨b, hbyte⟩
      | succ j =>
        simp only [hbyte] at h
        rw [Nat.add_succ, ← Nat.succ_add]
        split at h
        · exact ih h (Nat.lt_of_succ_lt_succ hj)
        · cases h

/-- A record that lies in memory answers to its name, unless it is hidden. A name that does not lie
in memory is that of no record. -/
theorem answersTo_cases (h : memory.recordAt a = .ok r) (name : List UInt8) :
    (r.codeField ≤ memory.size ∧ memory.answersTo r name = .ok (memory.isVisiblyNamed name r)) ∨
      (memory.size < r.codeField ∧ memory.isVisiblyNamed name r = false ∧
        memory.answersTo r name ≠ .ok true) := by
  obtain ⟨rfl, hlt⟩ := address_of_recordAt h
  have hreadable := exists_recordName_iff (r := r) hlt
  by_cases hinside : r.codeField ≤ memory.size
  · obtain ⟨bs, hbs⟩ := hreadable.mpr hinside
    obtain ⟨hlength, hbytes⟩ := getByte_of_getBytes hbs
    refine .inl ⟨hinside, ?_⟩
    unfold isVisiblyNamed
    rw [answersTo_of_bytes hlength.symm hbytes, hbs]
  · refine .inr ⟨Nat.lt_of_not_le hinside, ?_, fun hanswer => hinside ?_⟩
    · rw [Bool.eq_false_iff, ne_eq, isVisiblyNamed_iff]
      rintro ⟨-, bs, hbs, -⟩
      exact hinside (hreadable.mp ⟨bs, hbs⟩)
    · -- The name has been spelled out, so its last byte is in memory.
      unfold answersTo isNamed at hanswer
      split at hanswer
      · cases hanswer
      · split at hanswer
        · rename_i hlength
          refine hreadable.mp (exists_getBytes_iff.mpr ?_)
          by_cases hempty : r.nameLength = 0
          · exact .inl hempty
          · have hlast := exists_getByte_of_spells hanswer (j := r.nameLength - 1) (by omega)
            rw [exists_getByte_iff] at hlast
            unfold packedLength
            omega
        · cases hanswer

/-! ### What look-up says about the chain -/

/-- All the records are passed over by a search for that name. -/
def Passes (memory : Memory) (name : List UInt8) (rs : List Record) : Prop :=
  ∀ x ∈ rs, memory.isVisiblyNamed name x = false

/-- The head and the name of the record at the address lie in memory. -/
def HasRecord (memory : Memory) (a : Nat) : Prop :=
  ∃ r, memory.recordAt a = .ok r ∧ r.codeField ≤ memory.size

/-- What the result of a look-up from an address, over at most `limit` records, says about the
chain. -/
def Tells (memory : Memory) (name : List UInt8) (limit a : Nat) :
    Except Fault (Option Record) → Prop
  | .ok (some r) => ∃ before b, memory.Leads a (before ++ [r]) b ∧ memory.Passes name before ∧
      memory.isVisiblyNamed name r = true ∧ r.codeField ≤ memory.size
  | .ok none => ∃ rs, memory.Leads a rs 0 ∧ memory.Passes name rs
  | .error e => ∃ rs b, memory.Leads a rs b ∧ memory.Passes name rs ∧
      (b ≠ 0 ∧ ¬ memory.HasRecord b ∨ e = .invalidMemoryAddress ∧ limit < rs.length)

/-- A record that is passed over comes in front. -/
theorem Tells.cons {limit : Nat} {result : Except Fault (Option Record)}
    (h : memory.Tells name limit r.link.toNat result) (hne : a ≠ 0)
    (hrecord : memory.recordAt a = .ok r) (hname : memory.isVisiblyNamed name r = false) :
    memory.Tells name (limit + 1) a result := by
  have hpasses {rs : List Record} (hrs : memory.Passes name rs) : memory.Passes name (r :: rs) :=
    List.forall_mem_cons.mpr ⟨hname, hrs⟩
  match result, h with
  | .ok (some r'), ⟨before, b, hleads, hbefore, hfound⟩ =>
    exact ⟨r :: before, b, .cons hne hrecord hleads, hpasses hbefore, hfound⟩
  | .ok none, ⟨rs, hleads, hrs⟩ => exact ⟨r :: rs, .cons hne hrecord hleads, hpasses hrs⟩
  | .error e, ⟨rs, b, hleads, hrs, hwhy⟩ =>
    refine ⟨r :: rs, b, .cons hne hrecord hleads, hpasses hrs, ?_⟩
    exact hwhy.imp_right (And.imp_right Nat.succ_lt_succ)

/-- One round of look-up: the chain ends, or there is no record in memory, or the record is found,
or it is passed over. -/
theorem findFrom_round (memory : Memory) (name : List UInt8) (limit a : Nat) :
    (a = 0 ∧ memory.findFrom name limit a = .ok none) ∨
    (a ≠ 0 ∧ ¬ memory.HasRecord a ∧ ∃ e, memory.findFrom name limit a = .error e) ∨
    (a ≠ 0 ∧ ∃ r, memory.recordAt a = .ok r ∧ memory.isVisiblyNamed name r = true ∧
      r.codeField ≤ memory.size ∧ memory.findFrom name limit a = .ok (some r)) ∨
    (a ≠ 0 ∧ ∃ r, memory.recordAt a = .ok r ∧ memory.isVisiblyNamed name r = false ∧
      memory.findFrom name limit a =
        match limit with
        | 0 => .error .invalidMemoryAddress
        | limit + 1 => memory.findFrom name limit r.link.toNat) := by
  have hfind := findFrom.eq_def memory name limit a
  dsimp only at hfind
  by_cases hzero : a = 0
  · rw [if_pos hzero] at hfind
    exact .inl ⟨hzero, hfind⟩
  rw [if_neg hzero] at hfind
  cases hrecord : memory.recordAt a with
  | error e =>
    rw [hrecord] at hfind
    refine .inr (.inl ⟨hzero, ?_, e, hfind⟩)
    rintro ⟨r, hr, -⟩
    cases hrecord.symm.trans hr
  | ok r =>
    have hcases := answersTo_cases hrecord name
    rw [hrecord] at hfind
    dsimp only at hfind
    -- A name that memory cuts off may still be told apart, by its length or by the bytes that are
    -- there.
    cases hanswer : memory.answersTo r name with
    | error e =>
      rw [hanswer] at hfind hcases
      refine .inr (.inl ⟨hzero, ?_, e, hfind⟩)
      rintro ⟨r', hr', hinside⟩
      obtain rfl := Except.ok.inj (hrecord.symm.trans hr')
      obtain ⟨-, heq⟩ | ⟨hlt, -, -⟩ := hcases
      · cases heq
      · exact absurd hinside (Nat.not_le.mpr hlt)
    | ok answer =>
      rw [hanswer] at hfind hcases
      cases answer with
      | true =>
        obtain ⟨hinside, heq⟩ | ⟨-, -, hne⟩ := hcases
        · exact .inr (.inr (.inl ⟨hzero, r, rfl, (Except.ok.inj heq).symm, hinside, hfind⟩))
        · exact absurd rfl hne
      | false =>
        have hname : memory.isVisiblyNamed name r = false := by
          obtain ⟨-, heq⟩ | ⟨-, hname, -⟩ := hcases
          · exact (Except.ok.inj heq).symm
          · exact hname
        exact .inr (.inr (.inr ⟨hzero, r, rfl, hname, hfind⟩))

/-- Look-up tells this of every chain. -/
theorem tells_findFrom (memory : Memory) (name : List UInt8) (limit a : Nat) :
    memory.Tells name limit a (memory.findFrom name limit a) := by
  have hnone : memory.Passes name [] := fun _ hx => absurd hx List.not_mem_nil
  -- Only the last of the four cases looks at the limit, so the induction does not split it before.
  induction limit using Nat.strongRecOn generalizing a with
  | ind limit ih =>
    obtain ⟨rfl, h⟩ | ⟨hne, hno, e, h⟩ | ⟨hne, r, hrecord, hname, hinside, h⟩ |
      ⟨hne, r, hrecord, hname, h⟩ := memory.findFrom_round name limit a <;> rw [h]
    · exact ⟨[], .nil 0, hnone⟩
    · exact ⟨[], a, .nil a, hnone, .inl ⟨hne, hno⟩⟩
    · exact ⟨[], _, .cons hne hrecord (.nil _), hnone, hname, hinside⟩
    · cases limit with
      | zero =>
        exact ⟨[r], _, .cons hne hrecord (.nil _), List.forall_mem_singleton.mpr hname,
          .inr ⟨rfl, Nat.one_pos⟩⟩
      | succ limit => exact (ih limit (Nat.lt_succ_self limit) r.link.toNat).cons hne hrecord hname

/-- The records that are listed are those of the chain, to its end. -/
theorem leads_of_recordsFrom {limit : Nat} (h : memory.recordsFrom limit a = .ok rs) :
    memory.Leads a rs 0 := by
  induction limit generalizing a rs with
  | zero =>
    unfold recordsFrom at h
    split at h
    · rename_i hzero
      cases h
      exact hzero ▸ .nil a
    · split at h <;> cases h
  | succ limit ih =>
    unfold recordsFrom at h
    split at h
    · rename_i hzero
      cases h
      exact hzero ▸ .nil a
    · rename_i hne
      split at h
      · cases h
      · rename_i r hrecord
        dsimp only at h
        split at h
        · cases h
        · rename_i rs' hrest
          cases h
          exact .cons hne hrecord (ih hrest)

/-! ### Letters of either case -/

theorem spells_congr {name' : List UInt8} (h : sameName name name' = true) (pos i : Nat) :
    memory.spells pos i name = memory.spells pos i name' := by
  have hmap : name.map lowerCase = name'.map lowerCase := of_decide_eq_true h
  clear h
  induction name generalizing name' i with
  | nil =>
    obtain rfl := List.map_eq_nil_iff.mp hmap.symm
    rfl
  | cons c rest ih =>
    obtain ⟨c', rest', rfl, hc, hrest⟩ := List.map_eq_cons_iff.mp hmap.symm
    unfold spells sameLetter
    rw [hc, ih (i + 1) hrest.symm]

theorem answersTo_congr {name' : List UInt8} (h : sameName name name' = true) (r : Record) :
    memory.answersTo r name = memory.answersTo r name' := by
  have hlength : name.length = name'.length := by
    simpa using congrArg List.length
      (of_decide_eq_true h : name.map lowerCase = name'.map lowerCase)
  unfold answersTo isNamed
  rw [spells_congr h, hlength]

theorem findFrom_congr {name' : List UInt8} (h : sameName name name' = true) (limit a : Nat) :
    memory.findFrom name limit a = memory.findFrom name' limit a := by
  induction limit generalizing a with
  | zero =>
    unfold findFrom
    simp only [answersTo_congr h]
  | succ limit ih =>
    unfold findFrom
    simp only [answersTo_congr h, ih]

end Memory

/-! ### The loops behind look-up -/

/-- Where a loop along the chain is: it goes on, with some records behind it, or it has ended. -/
inductive Walk (α : Type) where
  /-- These records have been passed, and the link leads to that address. -/
  | going (passed : List Record) (address : Nat)
  /-- The loop has ended. -/
  | ended (result : Except Fault α)

namespace Walk

variable {α : Type} {memory : Memory} {name : List UInt8} {passed : List Record}
  {limit address : Nat}

/-- One round of a loop along the chain. It ends with the link zero, with a fault, with what `visit`
makes of a record, or when more records have been passed than memory has cells. -/
def step (memory : Memory) (visit : Record → Option (Except Fault α)) (finish : List Record → α) :
    Walk α → Walk α
  | ended result => ended result
  | going passed address =>
    if address = 0 then ended (.ok (finish passed))
    else
      match memory.recordAt address with
      | .error e => ended (.error e)
      | .ok r =>
        match visit r with
        | some result => ended result
        | none =>
          if memory.size < passed.length + 1 then ended (.error .invalidMemoryAddress)
          else going (passed ++ [r]) r.link.toNat

/-- The loop that looks for a name. -/
def seek (memory : Memory) (name : List UInt8) : Walk (Option Record) → Walk (Option Record) :=
  step memory
    (fun r =>
      match memory.answersTo r name with
      | .error e => some (.error e)
      | .ok true => some (.ok (some r))
      | .ok false => none)
    fun _ => none

/-- The loop that lists all records. -/
def list (memory : Memory) : Walk (List Record) → Walk (List Record) :=
  step memory (fun _ => none) id

theorem step_iterate_ended (visit : Record → Option (Except Fault α)) (finish : List Record → α)
    (n : Nat) (result : Except Fault α) :
    (step memory visit finish)^[n] (ended result) = ended result :=
  Function.iterate_fixed rfl n

/-- The loop ends with what look-up finds: the records that it has passed, and those that it may
still pass, are as many as memory has cells. -/
theorem seek_iterate (h : passed.length + limit = memory.size) :
    (seek memory name)^[limit + 1] (going passed address) =
      ended (memory.findFrom name limit address) := by
  induction limit using Nat.strongRecOn generalizing passed address with
  | ind limit ih =>
    have hfind := Memory.findFrom.eq_def memory name limit address
    have hround : seek memory name (going passed address) = _ := step.eq_2 ..
    dsimp only at hfind
    rw [Function.iterate_succ_apply, hround, hfind]
    by_cases hzero : address = 0
    · rw [if_pos hzero, if_pos hzero]
      exact step_iterate_ended ..
    rw [if_neg hzero, if_neg hzero]
    cases memory.recordAt address with
    | error e => exact step_iterate_ended ..
    | ok r =>
      dsimp only
      cases memory.answersTo r name with
      | error e => exact step_iterate_ended ..
      | ok answer =>
        cases answer with
        | true => exact step_iterate_ended ..
        | false =>
          dsimp only
          cases limit with
          | zero => exact if_pos (by omega)
          | succ limit =>
            have hlength : (passed ++ [r]).length + limit = memory.size := by
              rw [List.length_append, List.length_singleton]
              omega
            rw [if_neg (by omega)]
            exact ih limit (Nat.lt_succ_self limit) hlength

/-- The loop ends with the list of the records. -/
theorem list_iterate (h : passed.length + limit = memory.size) :
    (list memory)^[limit + 1] (going passed address) =
      ended ((memory.recordsFrom limit address).map (passed ++ ·)) := by
  induction limit using Nat.strongRecOn generalizing passed address with
  | ind limit ih =>
    have hrecords := Memory.recordsFrom.eq_def memory limit address
    have hround : list memory (going passed address) = _ := step.eq_2 ..
    dsimp only at hrecords hround
    rw [Function.iterate_succ_apply, hround, hrecords]
    by_cases hzero : address = 0
    · rw [if_pos hzero, if_pos hzero]
      refine (step_iterate_ended ..).trans ?_
      exact congrArg (fun rs => ended (.ok rs)) (List.append_nil passed).symm
    rw [if_neg hzero, if_neg hzero]
    cases memory.recordAt address with
    | error e => exact step_iterate_ended ..
    | ok r =>
      dsimp only
      cases limit with
      | zero => exact if_pos (by omega)
      | succ limit =>
        have hlength : (passed ++ [r]).length + limit = memory.size := by
          rw [List.length_append, List.length_singleton]
          omega
        rw [if_neg (by omega), ih limit (Nat.lt_succ_self limit) hlength]
        dsimp only
        cases memory.recordsFrom limit r.link.toNat with
        | error e => rfl
        | ok rs => exact congrArg (fun rs => ended (.ok rs)) (List.append_assoc passed [r] rs)

end Walk

/-! ### Look-up in a machine -/

namespace Machine

variable {m : Machine} {name : List UInt8}

/-- If all records that can be reached lie in memory, look-up fails exactly for chains in a circle
without a visible record of that name. -/
theorem find_eq_error_iff
    (hinside : ∀ rs b, m.memory.Leads m.regs.latest.toNat rs b → b ≠ 0 → m.memory.HasRecord b)
    {e : Fault} :
    m.find name = .error e ↔ e = .invalidMemoryAddress ∧ m.memory.Cyclic m.regs.latest.toNat ∧
      ∀ rs b, m.memory.Leads m.regs.latest.toNat rs b → m.memory.Passes name rs := by
  have htells := m.memory.tells_findFrom name m.memory.size m.regs.latest.toNat
  rw [← find] at htells
  constructor
  · intro hfind
    rw [hfind] at htells
    obtain ⟨rs, b, hleads, hpasses, ⟨hne, hno⟩ | ⟨he, hlong⟩⟩ := htells
    · exact absurd (hinside rs b hleads hne) hno
    · -- The limit has been reached, and then there is nothing on the chain that has not been
      -- passed.
      obtain ⟨hcyclic, hall⟩ := hleads.cyclic_of_size_lt hlong
      exact ⟨he, hcyclic, fun us c hus x hx => hpasses x (hall us c hus x hx)⟩
  · rintro ⟨rfl, hcyclic, hpasses⟩
    cases hfind : m.find name with
    | error e =>
      rw [hfind] at htells
      obtain ⟨rs, b, hleads, -, ⟨hne, hno⟩ | ⟨rfl, -⟩⟩ := htells
      · exact absurd (hinside rs b hleads hne) hno
      · rfl
    | ok found =>
      rw [hfind] at htells
      cases found with
      | none =>
        obtain ⟨rs, hleads, -⟩ := htells
        exact absurd hcyclic hleads.not_cyclic
      | some r =>
        obtain ⟨before, b, hleads, -, hname, -⟩ := htells
        have hpassed := hpasses _ _ hleads r (List.mem_append_right _ (List.mem_singleton_self r))
        exact absurd (hpassed.symm.trans hname) Bool.noConfusion

/-- What is found is the first visible record of that name in the list of all records. -/
theorem find_eq_find? {rs : List Record} (hrecords : m.records = .ok rs) {found : Option Record}
    (hfind : m.find name = .ok found) : found = rs.find? (m.memory.isVisiblyNamed name) := by
  have hleads := Memory.leads_of_recordsFrom hrecords
  have htells := m.memory.tells_findFrom name m.memory.size m.regs.latest.toNat
  rw [← find, hfind] at htells
  cases found with
  | none =>
    obtain ⟨us, hway, hpasses⟩ := htells
    obtain rfl := hleads.unique_of_zero hway
    exact (List.find?_eq_none.mpr fun x hx => Bool.eq_false_iff.mp (hpasses x hx)).symm
  | some r =>
    obtain ⟨before, b, hway, hbefore, hname, -⟩ := htells
    obtain ⟨ts, rfl, -⟩ := hleads.rest_of_zero hway
    have hnone : before.find? (m.memory.isVisiblyNamed name) = none :=
      List.find?_eq_none.mpr fun x hx => Bool.eq_false_iff.mp (hbefore x hx)
    rw [List.append_assoc, List.find?_append, hnone, List.singleton_append,
      List.find?_cons_of_pos hname]
    rfl

/-- **Look-up is exact and ends on any memory.** The two loops along the chain end. What is found is
on the chain, visible and of that name, behind no other such record; and its code field can be told
by a cell. If nothing is found, the chain ends without such a record. Where all records that can be
reached lie in memory, look-up fails only for a chain in a circle without such a record, and always
with the same fault. What is found is the first such record in the list of all records, if there is
that list; and the case of letters does not matter. -/
theorem find_exact (hsize : m.memory.size ≤ maxCoreSize) (name : List UInt8) :
    (Walk.seek m.memory name)^[m.memory.size + 1] (.going [] m.regs.latest.toNat) =
        .ended (m.find name) ∧
    (Walk.list m.memory)^[m.memory.size + 1] (.going [] m.regs.latest.toNat) = .ended m.records ∧
    (∀ r, m.find name = .ok (some r) →
      (∃ before b, m.memory.Leads m.regs.latest.toNat (before ++ [r]) b ∧
        m.memory.Passes name before) ∧
      r.isHidden = false ∧ (∃ bs, m.memory.recordName r = .ok bs ∧ sameName bs name = true) ∧
      r.codeField ≤ m.memory.size ∧ (UInt16.ofNat r.codeField).toNat = r.codeField) ∧
    (m.find name = .ok none →
      ∃ rs, m.memory.Leads m.regs.latest.toNat rs 0 ∧ m.memory.Passes name rs) ∧
    ((∀ rs b, m.memory.Leads m.regs.latest.toNat rs b → b ≠ 0 → m.memory.HasRecord b) →
      ∀ e, m.find name = .error e ↔
        e = .invalidMemoryAddress ∧ m.memory.Cyclic m.regs.latest.toNat ∧
          ∀ rs b, m.memory.Leads m.regs.latest.toNat rs b → m.memory.Passes name rs) ∧
    (∀ rs found, m.records = .ok rs → m.find name = .ok found →
      found = rs.find? (m.memory.isVisiblyNamed name)) ∧
    ∀ name', sameName name name' = true → m.find name' = m.find name := by
  have htells := m.memory.tells_findFrom name m.memory.size m.regs.latest.toNat
  rw [← find] at htells
  refine ⟨Walk.seek_iterate (Nat.zero_add _), ?_, fun r hfind => ?_, fun hfind => ?_,
    fun hinside e => find_eq_error_iff hinside,
    fun _ _ hrecords hfind => find_eq_find? hrecords hfind,
    fun name' hsame => (Memory.findFrom_congr hsame _ _).symm⟩
  · rw [Walk.list_iterate (Nat.zero_add _), ← records]
    cases m.records <;> rfl
  · rw [hfind] at htells
    obtain ⟨before, b, hleads, hbefore, hname, hinside⟩ := htells
    obtain ⟨hvisible, hbytes⟩ := Memory.isVisiblyNamed_iff.mp hname
    refine ⟨⟨before, b, hleads, hbefore⟩, hvisible, hbytes, hinside, Cell.toNat_ofNat ?_⟩
    unfold maxCoreSize at hsize
    omega
  · rw [hfind] at htells
    exact htells

/-- Two records that link to each other: nothing is found along them, and that takes no more rounds
than memory has cells, and one. -/
theorem find_exact_of_circle :
    ∃ (m : Machine) (name : List UInt8), m.memory.size ≤ maxCoreSize ∧
      m.memory.Cyclic m.regs.latest.toNat ∧ m.find name = .error .invalidMemoryAddress ∧
      (Walk.seek m.memory name)^[6] (.going [] m.regs.latest.toNat) = .ended (m.find name) := by
  let bare := Machine.bare 0 ⟨0, 0, 0⟩ Source.empty {} .off
  let m : Machine :=
    { bare with
      memory := ⟨#[0, 3, 0, 1, 0]⟩
      regs := { bare.regs with latest := 1 } }
  have hfirst : m.memory.recordAt 1 = .ok ⟨1, 3, 0⟩ := rfl
  have hsecond : m.memory.recordAt 3 = .ok ⟨3, 1, 0⟩ := rfl
  have hcircle : m.memory.Leads 1 [⟨1, 3, 0⟩, ⟨3, 1, 0⟩] 1 :=
    .cons (by decide) hfirst (.cons (by decide) hsecond (.nil 1))
  have hway {a b : Nat} {rs : List Record} (h : m.memory.Leads a rs b) (ha : a = 1 ∨ a = 3) :
      (b = 1 ∨ b = 3) ∧ m.memory.Passes [120] rs := by
    induction h with
    | nil => exact ⟨ha, fun _ hx => absurd hx List.not_mem_nil⟩
    | cons hne hrecord _ ih =>
      rcases ha with rfl | rfl
      · obtain rfl := Except.ok.inj (hrecord.symm.trans hfirst)
        obtain ⟨hb, hpasses⟩ := ih (.inr rfl)
        exact ⟨hb, List.forall_mem_cons.mpr ⟨rfl, hpasses⟩⟩
      · obtain rfl := Except.ok.inj (hrecord.symm.trans hsecond)
        obtain ⟨hb, hpasses⟩ := ih (.inl rfl)
        exact ⟨hb, List.forall_mem_cons.mpr ⟨rfl, hpasses⟩⟩
  have hcyclic : m.memory.Cyclic m.regs.latest.toNat :=
    ⟨[], 1, _, .nil 1, List.cons_ne_nil _ _, hcircle⟩
  have hsize : m.memory.size ≤ maxCoreSize := by decide
  obtain ⟨hrounds, -, -, -, hfails, -⟩ := find_exact hsize [120]
  have hinside : ∀ rs b, m.memory.Leads m.regs.latest.toNat rs b → b ≠ 0 →
      m.memory.HasRecord b := by
    intro rs b h _
    rcases (hway h (.inl rfl)).1 with rfl | rfl
    · exact ⟨_, hfirst, by decide⟩
    · exact ⟨_, hsecond, by decide⟩
  have hfind := (hfails hinside .invalidMemoryAddress).mpr
    ⟨rfl, hcyclic, fun rs b h => (hway h (.inl rfl)).2⟩
  exact ⟨m, [120], hsize, hcyclic, hfind, hrounds⟩

end Machine

end CellForth
