import CellForth.Proofs.Abreast
import CellForth.Proofs.Definitions
import CellForth.Proofs.Regions
import CellForth.Proofs.Writes

/-!
# Machines that keep journals of their own

A machine reports what it does, and nothing should depend on whether a report is kept. There is one
place where something does: the notice that a definition is complete has the name of the definition,
and the name is read back from memory for it, but only if the notice is kept. A program can have
overwritten the header of the record by then, and with it the length of the name. Reading the name
can then go beyond the end of memory, which is a fault.

So two machines that differ in their verbosity are in step until the louder one is out for this
reason (`Machine.lockstep_journaled`). The record of an open definition is in the dictionary, so the
fault needs a name that reaches across both stacks (`Machine.HasOverlongName`), and stacks that are
not very small rule it out (`Machine.HasOverlongName.size_lt`). Where the header has been
overwritten with the length of such a name, it does occur (`Machine.Overwritten.endDefinition_eq`).
-/

namespace CellForth

open Machine (Abreast)

variable {α : Type}

/-! ### Names that go beyond memory -/

namespace Machine

/-- There is a record in the dictionary whose name, by the length in its header, goes beyond the end
of memory. -/
def HasOverlongName (m : Machine) : Prop :=
  ∃ r : Record, m.memory.recordAt r.address = .ok r ∧ r.address + 4 ≤ m.regs.dataBase.toNat ∧
    m.memory.size < r.codeField

/-- A name has at most 255 bytes, so there are few cells behind the dictionary then. -/
theorem HasOverlongName.size_lt {m : Machine} (h : m.HasOverlongName) :
    m.memory.size < m.regs.dataBase.toNat + 126 := by
  obtain ⟨r, -, hle, hlt⟩ := h
  have hlength : r.nameLength ≤ 255 := by
    unfold Record.nameLength Record.nameMask
    rw [UInt16.toNat_and]
    exact Nat.and_le_right
  unfold Record.codeField Record.nameAddress packedLength at hlt
  omega

end Machine

/-! ### The record of the open definition -/

/-- The open definition has at least four cells below the given end of the dictionary. -/
def Machine.OpensBelow (n : Nat) (m : Machine) : Prop :=
  m.regs.defining.toNat + 4 ≤ n

namespace Machine.OpensBelow

variable {n : Nat}

theorem onMemory (op : EStateM Fault Memory α) : Keeps (OpensBelow n) (Exec.onMemory op) := by
  intro m hm
  rw [Exec.onMemory_eq]
  cases op m.memory <;> exact hm

theorem onData (op : StackM α) : Keeps (OpensBelow n) (Exec.onData op) := by
  intro m hm
  rw [Exec.onData_eq]
  cases op m.dataStack <;> exact hm

theorem onReturn (op : StackM α) : Keeps (OpensBelow n) (Exec.onReturn op) := by
  intro m hm
  rw [Exec.onReturn_eq]
  cases op m.returnStack <;> exact hm

theorem setRegs {g : Registers → Registers} (hg : ∀ regs, (g regs).defining = regs.defining) :
    Keeps (OpensBelow n) (Exec.setRegs g) := by
  intro m hm
  show (g m.regs).defining.toNat + 4 ≤ n
  rw [hg]
  exact hm

theorem report {op : Exec Unit} (h : Exec.Reports op) : Keeps (OpensBelow n) op := by
  intro m hm
  obtain ⟨journal, hop, -⟩ := h m
  rw [hop]
  exact hm

theorem compileCell (c : Cell) : Keeps (OpensBelow n) (Exec.compileCell c) :=
  .bind (.observe _) fun _ => .bind (.reg _) fun _ => .bind (onMemory _) fun _ =>
    setRegs fun _ => rfl

theorem packBytes (bs : List UInt8) : Keeps (OpensBelow n) (Exec.packBytes bs) :=
  .bind (.reg _) fun _ => .bind (onMemory _) fun _ => setRegs fun _ => rfl

theorem createRecord (name : List UInt8) (code flags : Cell) :
    Keeps (OpensBelow n) (Exec.createRecord name code flags) :=
  .bind (.settle _) fun _ => .bind (.settle _) fun _ => .bind (.observe _) fun _ =>
    .bind (report (Exec.reports_noteRedefinition name)) fun _ => .bind (.reg _) fun _ =>
    .bind (.reg _) fun _ => .bind (compileCell _) fun _ => .bind (compileCell _) fun _ =>
    .bind (packBytes name) fun _ => .bind (compileCell _) fun _ =>
    .bind (setRegs fun _ => rfl) fun _ => .pure _

theorem allot (i : Int) : Keeps (OpensBelow n) (Exec.allot i) :=
  .bind (.reg _) fun _ => .bind (.observe _) fun _ => .bind (.settle _) fun _ =>
    setRegs fun _ => rfl

end Machine.OpensBelow

/-- The machine is within regions of the given boundaries, and so is the beginning of the open
definition. -/
def Machine.Enclosed (g : Regions) (m : Machine) : Prop :=
  m.Bounded g ∧ m.OpensBelow g.dataBase.toNat

namespace Machine.Enclosed

variable {g : Regions} {m : Machine}

/-- Keeping the boundaries is a matter of operations that leave the open definition alone. -/
theorem keeps {op : Exec α} (hop : Keeps (Bounded g) op)
    (hopen : Keeps (OpensBelow g.dataBase.toNat) op) : Keeps (Enclosed g) op :=
  hop.and hopen

/-- A record that is created begins below the end of the dictionary. -/
theorem ends_createRecord (h : m.Enclosed g) (name : List UInt8) (code flags : Cell) :
    CellForth.Ends (Enclosed g) (fun r m' => m'.Enclosed g ∧ r.address + 4 ≤ g.dataBase.toNat)
      (Exec.createRecord name code flags m) := by
  have hkept := keeps ((Elementary.bounded g).createRecord name code flags)
    (OpensBelow.createRecord name code flags) m h
  by_cases hgood : name ≠ [] ∧ name.length ≤ Record.maxNameLength ∧
      Record.cellsFor name.length ≤ m.unused
  · obtain ⟨hne, hlen, hroom⟩ := hgood
    obtain ⟨journal, hok⟩ := Exec.createRecord_of_room h.1.1.ordered code flags hne hlen hroom
    rw [hok] at hkept ⊢
    refine ⟨hkept, ?_⟩
    -- There is at least one cell for the name, and there are three others.
    have hpos := List.length_pos_iff.mpr hne
    have hdata : m.regs.dataBase.toNat = g.dataBase.toNat := congrArg (·.dataBase.toNat) h.1.2
    unfold Record.cellsFor packedLength unused at hroom
    show m.regs.here.toNat + 4 ≤ g.dataBase.toNat
    omega
  · obtain ⟨e, herror⟩ := Exec.createRecord_refused code flags hgood
    rw [herror]
    exact h

theorem beginDefinition : Keeps (Enclosed g) Exec.beginDefinition := by
  have hb := Elementary.bounded g
  intro m hm
  have hname : Keeps (Enclosed g) Exec.parseName :=
    keeps hb.hereditary.parseName (.bind (fun m hm => by
      unfold Exec.parseWord
      split <;> exact hm) fun _ => .observe _)
  refine CellForth.Ends.endState (Q := fun _ => Enclosed g) ?_ fun _ _ => id
  refine .bind ((Keeps.observe _).ends hm) fun _ m₁ h₁ => .bind (hname.ends h₁) fun name m₂ h₂ => ?_
  refine .bind (h₂.ends_createRecord _ _ _) fun r m₃ h₃ => ?_
  obtain ⟨h₃, hle⟩ := h₃
  refine .bind ((keeps (hb.hereditary.pushControl _ _) (OpensBelow.onData _)).ends h₃)
    fun _ m₄ h₄ => ?_
  have haddress : (UInt16.ofNat r.address).toNat = r.address := by
    have hlt := g.dataBase.toNat_lt
    exact Cell.toNat_ofNat (by omega)
  rw [Exec.bind_setRegs]
  refine ⟨hb.journal _ _ (hb.setDefinition (UInt16.ofNat r.address) .compile m₄ h₄.1), ?_⟩
  show (UInt16.ofNat r.address).toNat + 4 ≤ g.dataBase.toNat
  omega

/-- A definition that is closed was the open one, so that it begins below the end of the
dictionary. -/
theorem ends_closeDefinition (h : m.Enclosed g) :
    CellForth.Ends (Enclosed g) (fun address m' => m'.Enclosed g ∧
      address.toNat + 4 ≤ g.dataBase.toNat) (Exec.closeDefinition m) := by
  have hb := Elementary.bounded g
  have hpop : Keeps (Enclosed g) (Exec.popControl .definition) :=
    keeps (hb.hereditary.popControl _) (.bind (.observe _) fun _ => .bind (OpensBelow.onData _)
      fun _ => .bind (.settle _) fun _ => .bind (OpensBelow.onData _) fun _ => OpensBelow.onData _)
  refine .bind ((Keeps.observe _).ends h) fun _ m₁ h₁ =>
    .bind (hpop.ends h₁) fun address m₂ h₂ => ?_
  refine .bind (Q := fun _ m' => m'.Enclosed g ∧ address.toNat + 4 ≤ g.dataBase.toNat)
    (.observe h₂ fun _ hdemand => ?_) fun _ m₃ h₃ => ?_
  · have haddress := demand_eq_ok_iff.mp hdemand
    rw [haddress]
    exact ⟨h₂, h₂.2⟩
  · obtain ⟨h₃, hle⟩ := h₃
    have hexit := keeps (hb.compileCell Runtime.exit.opcode) (OpensBelow.compileCell _)
    have hreveal : Keeps (Enclosed g) (Exec.reveal address.toNat) :=
      keeps (hb.hereditary.reveal _) (.bind (.settle _) fun _ => .bind (.observe _) fun _ =>
        OpensBelow.onMemory _)
    refine .bind (hexit.ends h₃) fun _ m₄ h₄ => .bind (hreveal.ends h₄) fun _ m₅ h₅ => ?_
    rw [Exec.bind_setRegs]
    refine ⟨⟨hb.setDefinition _ _ _ h₅.1, ?_⟩, hle⟩
    show 0 + 4 ≤ g.dataBase.toNat
    omega

theorem noteDefinition (address : Cell) : Keeps (Enclosed g) (Exec.noteDefinition address) := by
  intro m hm
  obtain ⟨journal, hok⟩ | herror := Exec.noteDefinition_cases address m
  · rw [hok]
    exact ⟨(Elementary.bounded g).journal m journal hm.1, hm.2⟩
  · rw [herror]
    exact hm

theorem endDefinition : Keeps (Enclosed g) Exec.endDefinition := by
  rw [Exec.endDefinition_eq]
  exact .bind (fun m hm => hm.ends_closeDefinition.endState fun _ _ h => h.1) noteDefinition

theorem addRuntime (name : String) (action : Action) :
    Keeps (Enclosed g) (Exec.addRuntime name action) := by
  refine keeps ((Elementary.bounded g).addRuntime name action) fun m hm => ?_
  rw [Exec.addRuntime_eq]
  split <;> exact hm

/-- All of this lasts. -/
theorem lasting (g : Regions) : Lasting (Enclosed g) := by
  have hb := (Elementary.bounded g).lasting
  have hfree : DeviceFree (OpensBelow g.dataBase.toNat) := fun _ _ _ _ _ => id
  exact
    { hereditary :=
        { look := fun _ => .observe _
          bind := .bind
          onData := fun hop => keeps (hb.hereditary.onData hop) (OpensBelow.onData _)
          onReturn := fun hop => keeps (hb.hereditary.onReturn hop) (OpensBelow.onReturn _)
          put := fun pos c => keeps (hb.hereditary.put pos c) (OpensBelow.onMemory _)
          compileCell := fun c => keeps (hb.hereditary.compileCell c) (OpensBelow.compileCell c)
          compileString := fun bs => keeps (hb.hereditary.compileString bs)
            (.bind (.observe _) fun _ => .bind (OpensBelow.compileCell _) fun _ =>
              OpensBelow.packBytes bs)
          createRecord := fun name code flags => keeps (hb.hereditary.createRecord name code flags)
            (OpensBelow.createRecord name code flags)
          allot := fun i => keeps (hb.hereditary.allot i) (OpensBelow.allot i)
          setIp := fun f => keeps (hb.hereditary.setIp f) (OpensBelow.setRegs fun _ => rfl)
          setW := fun xt => keeps (hb.hereditary.setW xt) (OpensBelow.setRegs fun _ => rfl)
          setBase := fun b hbase =>
            keeps (hb.hereditary.setBase b hbase) (OpensBelow.setRegs fun _ => rfl)
          setMode :=
            fun mode => keeps (hb.hereditary.setMode mode) (OpensBelow.setRegs fun _ => rfl)
          beginDefinition := beginDefinition
          endDefinition := endDefinition
          parseName := keeps hb.hereditary.parseName hfree.parseName
          write := fun bs => keeps (hb.hereditary.write bs) (hfree.write bs) }
      parseWord := keeps hb.parseWord hfree.parseWord
      parse := fun delimiter => keeps (hb.parse delimiter) (hfree.parse delimiter)
      readByte := keeps hb.readByte hfree.readByte
      addRuntime := fun name action _ => addRuntime name action
      token := fun m token hm => ⟨hb.token m token hm.1, hm.2⟩ }

/-- Devices do not matter to it. -/
theorem deviceFree (g : Regions) : DeviceFree (Enclosed g) := fun m input output token journal hm =>
  ⟨(Elementary.bounded g).devices m input output token journal hm.1, hm.2⟩

theorem poisonWith (f : Fault) (h : m.Enclosed g) : (m.poisonWith f).Enclosed g :=
  ⟨⟨{ h.1.1 with }, h.1.2⟩, h.2⟩

end Machine.Enclosed

/-! ### Journals of two verbosities -/

/-- The machines differ in their journals only, which have the given verbosities, and the second one
is within its regions. -/
def Machine.Journaled (v₀ v₁ : Verbosity) (g : Regions) (s t : Machine) : Prop :=
  Abreast Eq Eq (fun v v' => v = v₀ ∧ v' = v₁) s t ∧ t.Enclosed g

/-- The machine, of the second verbosity, could not read the name of a definition, and a machine of
the first verbosity would not have tried to. -/
structure Machine.Tripped (v₀ v₁ : Verbosity) (e : Fault) (m : Machine) : Prop where
  /-- The other machine does not keep the notice. -/
  quiet : v₀.admits .debug = false
  /-- This one does. -/
  loud : v₁.admits .debug = true
  /-- The fault is that of reading beyond memory. -/
  fault : e = .invalidMemoryAddress
  /-- There is a name that goes beyond memory. -/
  name : m.HasOverlongName

namespace Exec

/-- A name that cannot be read goes beyond memory. -/
theorem hasOverlongName_of_error {g : Regions} {address : Cell} {m : Machine} {e : Fault}
    (hm : m.Enclosed g) (hle : address.toNat + 4 ≤ g.dataBase.toNat)
    (h : (do
      let r ← m.memory.recordAt address.toNat
      m.memory.recordName r) = .error e) : m.HasOverlongName := by
  have hdata : m.regs.dataBase.toNat = g.dataBase.toNat := congrArg (·.dataBase.toNat) hm.1.2
  have hsize := hm.1.1.ordered.dataBase_le_size
  have hlt : address.toNat < m.memory.size := by omega
  have hlt' : address.toNat + 1 < m.memory.size := by omega
  obtain ⟨link, -, hlink⟩ := Memory.get_eq_ok_of_lt hlt
  obtain ⟨header, -, hheader⟩ := Memory.get_eq_ok_of_lt hlt'
  have hrecord := Memory.recordAt_of_some hlink hheader
  rw [hrecord] at h
  refine ⟨⟨address.toNat, link, header⟩, hrecord, hdata ▸ hle, ?_⟩
  by_contra hshort
  have hend : Record.nameAddress ⟨address.toNat, link, header⟩ ≤ m.memory.size := by
    show address.toNat + 2 ≤ _
    omega
  obtain ⟨name, hname⟩ := (Memory.exists_recordName_iff hend).mpr (Nat.le_of_not_lt hshort)
  have hok : m.memory.recordName ⟨address.toNat, link, header⟩ = .error e := h
  rw [hname] at hok
  cases hok

/-- A notice is made in step, unless the louder machine trips over the name. -/
theorem inStep_noteDefinition {v₀ v₁ : Verbosity} {g : Regions} {address : Cell} {s t : Machine}
    (hloud : v₀.admits .debug = true → v₁.admits .debug = true)
    (hle : address.toNat + 4 ≤ g.dataBase.toNat) (hst : Machine.Journaled v₀ v₁ g s t) :
    InStep (Machine.Journaled v₀ v₁ g) (fun _ => Machine.Tripped v₀ v₁) (noteDefinition address s)
      (noteDefinition address t) := by
  obtain ⟨hst, ht⟩ := hst
  have hs : s.journal.admits .debug = v₀.admits .debug := by rw [Journal.admits, hst.verbosity.1]
  have ht' : t.journal.admits .debug = v₁.admits .debug := by rw [Journal.admits, hst.verbosity.2]
  have hkept := Machine.Enclosed.noteDefinition address t ht
  rw [noteDefinition_eq, noteDefinition_eq, hs, ht']
  rw [noteDefinition_eq, ht'] at hkept
  cases h₁ : v₁.admits .debug with
  | false =>
    have h₀ : v₀.admits .debug = false := by
      by_contra h
      exact absurd (hloud (by simpa using h)) (by simp [h₁])
    simp only [h₀, Bool.false_eq_true, if_false]
    exact .ok ⟨hst, ht⟩
  | true =>
    simp only [h₁, if_true] at hkept ⊢
    cases h₀ : v₀.admits .debug with
    | true =>
      have hreport : Tracks (Abreast Eq Eq fun v v' => v = v₀ ∧ v' = v₁)
          (fun _ => Machine.Tripped v₀ v₁) (reportDefinition address) :=
        tracks_reportDefinition (E := fun _ _ => Machine.Tripped v₀ v₁) address
      simp only [if_true]
      have hboth := hreport.inStep hst
      generalize reportDefinition address s = r, reportDefinition address t = r' at hboth hkept
      cases hboth with
      | ok h => exact .ok ⟨h, hkept⟩
      | error h => exact .error ⟨h, hkept⟩
      | out h => exact .out h
    | false =>
      simp only [Bool.false_eq_true, if_false]
      -- Only the second machine reads the name.
      cases hname : (do
          let r ← t.memory.recordAt address.toNat
          t.memory.recordName r) with
      | ok name =>
        have hreport : reportDefinition address t = .ok ()
            { t with journal := t.journal.record (.defined name (t.regs.here - address)) } :=
          bind_of_ok (observe_of_ok hname)
        have hjournal : Abreast Eq Eq (fun v v' => v = v₀ ∧ v' = v₁) s
            { t with journal := t.journal.record (.defined name (t.regs.here - address)) } :=
          hst.rejournal (by simpa using hst.verbosity)
        rw [hreport] at hkept ⊢
        exact .ok ⟨hjournal, hkept⟩
      | error e =>
        have hreport : reportDefinition address t = .error e t :=
          bind_of_error (observe_of_error hname)
        rw [hreport]
        exact .out ⟨h₀, h₁, readRecord_error hname, hasOverlongName_of_error ht hle hname⟩

theorem tracks_endDefinition_journaled {v₀ v₁ : Verbosity}
    (hloud : v₀.admits .debug = true → v₁.admits .debug = true) (g : Regions) :
    Tracks (Machine.Journaled v₀ v₁ g) (fun _ => Machine.Tripped v₀ v₁) endDefinition where
  inStep {s t} hst := by
    have hclose :
        Tracks (Machine.Journaled v₀ v₁ g) (fun _ => Machine.Tripped v₀ v₁) closeDefinition :=
      (Inward.closeDefinition.tracks (E := fun _ _ => Machine.Tripped v₀ v₁)).and
        fun m hm => hm.ends_closeDefinition.endState fun _ _ h => h.1
    rw [endDefinition_eq]
    refine (hclose.inStep hst).bind (fun address s' t' hok hst' => ?_) fun _ _ _ _ => id
    have hends := hst.2.ends_closeDefinition
    rw [hok] at hends
    exact inStep_noteDefinition hloud hends.2 hst'
  keeps _ _ _ := id

end Exec

/-- Machines that differ in their journals are in step until the louder one trips. -/
theorem Machine.lockstep_journaled {v₀ v₁ : Verbosity}
    (hloud : v₀.admits .debug = true → v₁.admits .debug = true) (g : Regions) :
    Lockstep (Journaled v₀ v₁ g) (fun _ => Tripped v₀ v₁) fun _ _ => True :=
  .of_abreast_and (E := fun _ => Tripped v₀ v₁) (Enclosed.lasting g) .eq
    (Exec.tracks_write (E := fun _ => Tripped v₀ v₁)) (Exec.tracks_endDefinition_journaled hloud g)
    fun _ _ _ _ h => ⟨h.quiet, h.loud, h.fault, h.name⟩

/-! ### Definitions with an overwritten header -/

/-- A definition is open, and by the length in its header its name goes beyond memory, but nothing
keeps the definition from being completed. -/
structure Machine.Overwritten (m : Machine) : Prop where
  /-- The machine is within its regions. -/
  within : m.WithinRegions
  /-- Words are compiled. -/
  mode_eq : m.regs.mode = .compile
  /-- The definition is the top of the data stack. -/
  items : ∃ rest, m.dataStack.items = ControlTag.definition.cell :: m.regs.defining :: rest
  /-- A definition is open. -/
  defining_pos : 0 < m.regs.defining.toNat
  /-- The header is in the dictionary. -/
  defining_lt : m.regs.defining.toNat + 1 < m.regs.here.toNat
  /-- There is room for one more cell. -/
  room : 0 < m.unused
  /-- The header has the length of an overlong name. -/
  overlong : ∃ link header, m.memory.cells[m.regs.defining.toNat]? = some link ∧
    m.memory.cells[m.regs.defining.toNat + 1]? = some header ∧
    m.memory.size <
      Record.codeField ⟨m.regs.defining.toNat, link, header &&& ~~~Record.hiddenBit⟩

/-- The notice of a definition with an overlong name is a fault where it is kept. -/
theorem Exec.noteDefinition_of_overlong {m : Machine} {address : Cell} {r : Record}
    (hrecord : m.memory.recordAt address.toNat = .ok r) (hname : r.nameAddress ≤ m.memory.size)
    (hlong : m.memory.size < r.codeField) :
    noteDefinition address m =
      if m.journal.admits .debug then .error .invalidMemoryAddress m else .ok () m := by
  rw [noteDefinition_eq]
  refine if_congr Iff.rfl ?_ rfl
  cases hread : m.memory.recordName r with
  | ok name =>
    exact absurd hlong (Nat.not_lt_of_le ((Memory.exists_recordName_iff hname).mp ⟨name, hread⟩))
  | error e =>
    have hboth : (do
        let r ← m.memory.recordAt address.toNat
        m.memory.recordName r) = .error e := by
      rw [hrecord]
      exact hread
    cases readRecord_error hboth
    exact bind_of_error (observe_of_error hboth)

namespace Machine.Overwritten

variable {m : Machine} (h : m.Overwritten)
include h

/-- But for the notice, the definition can be completed. -/
theorem closeDefinition_eq :
    ∃ m' r, Exec.closeDefinition m = .ok m.regs.defining m' ∧ m'.journal = m.journal ∧
      m'.memory.recordAt m.regs.defining.toNat = .ok r ∧ r.nameAddress ≤ m'.memory.size ∧
      m'.memory.size < r.codeField := by
  obtain ⟨rest, hitems⟩ := h.items
  obtain ⟨link, header, hlink, hheader, hlong⟩ := h.overlong
  have hunused := h.within.here_add_unused
  have hroom := h.room
  have hlt := h.defining_lt
  have hfits : m.dataStack.Fits 2 [] := by
    refine ⟨?_, Nat.zero_le _⟩
    rw [← h.within.dataStack.length_items, hitems]
    exact Nat.le_add_left 2 _
  have hnesting : Exec.requireNesting (fun regs => regs.isCompiling && regs.defining ≠ 0) m =
      .ok () m := by
    have hne : m.regs.defining ≠ 0 := Cell.toNat_ne_zero_iff.mp (Nat.ne_of_gt h.defining_pos)
    exact observe_of_ok (demand_of_pos (by simp [Registers.isCompiling, h.mode_eq, hne]))
  have hpop := Exec.popControl_eq h.within hitems .definition
  rw [if_pos rfl] at hpop
  have h₁ := h.within.replaceData hfits
  have hexit : Exec.compileRuntime .exit (m.replaceData 2 []) = _ :=
    Exec.compileCell_of_room h₁.ordered hroom
  -- The two cells of the record are below the dictionary's end, so none of this has changed them.
  have hkept (i : Nat) (hi : i < m.regs.here.toNat) :
      ((m.replaceData 2 []).append [Runtime.exit.opcode]).memory.cells[i]? = m.memory.cells[i]? :=
    (Memory.cells_overlay_of_lt _ hi).trans (h.within.cells_replaceData hfits (.inl (by omega)))
  generalize hm₂ : (m.replaceData 2 []).append [Runtime.exit.opcode] = m₂ at hexit hkept
  have hheader₂ : m₂.memory.cells[m.regs.defining.toNat + 1]? = some header :=
    (hkept _ hlt).trans hheader
  have hlink₂ : m₂.memory.cells[m.regs.defining.toNat]? = some link :=
    (hkept _ (Nat.lt_of_succ_lt hlt)).trans hlink
  have hreveal := Exec.updateHeader_of_some (Nat.ne_of_gt h.defining_pos) hheader₂
    (· &&& ~~~Record.hiddenBit)
  have hheader₃ := Memory.lt_size_of_some hheader₂
  refine ⟨{ m₂ with
      memory := m₂.memory.overlay (m.regs.defining.toNat + 1) [header &&& ~~~Record.hiddenBit]
      regs := { m₂.regs with defining := 0, mode := .interpret } },
    ⟨m.regs.defining.toNat, link, header &&& ~~~Record.hiddenBit⟩, ?_, ?_, ?_, ?_, ?_⟩
  · unfold Exec.closeDefinition
    rw [bind_of_ok hnesting, bind_of_ok hpop]
    refine Eq.trans (bind_of_ok (observe_of_ok (demand_of_pos rfl))) ?_
    rw [bind_of_ok hexit]
    refine Eq.trans (bind_of_ok hreveal) ?_
    rw [Exec.bind_setRegs]
    rfl
  · rw [← hm₂]
    rfl
  · exact Memory.recordAt_of_some
      ((Memory.cells_overlay_of_lt _ (Nat.lt_succ_self _)).trans hlink₂)
      (Memory.cells_overlay_add (i := 0) Nat.zero_lt_one hheader₃)
  · rw [Memory.size_overlay]
    exact hheader₃
  · rw [Memory.size_overlay, ← hm₂]
    exact Nat.lt_of_le_of_lt
      (Nat.le_of_eq ((Memory.size_overlay ..).trans (Memory.size_overlay ..))) hlong

/-- Completing the definition is a fault if the machine keeps debugging notices, and only then. -/
theorem endDefinition_eq :
    ∃ m', Exec.endDefinition m =
      if m.journal.admits .debug then .error .invalidMemoryAddress m' else .ok () m' := by
  obtain ⟨m', r, hclose, hjournal, hrecord, hname, hlong⟩ := h.closeDefinition_eq
  refine ⟨m', ?_⟩
  rw [Exec.endDefinition_eq, bind_of_ok hclose,
    Exec.noteDefinition_of_overlong hrecord hname hlong, hjournal]

end Machine.Overwritten

namespace Machine

/-- The machine with the free end of its dictionary moved to a cell. -/
def moveHere (here : Cell) (m : Machine) : Machine :=
  { m with regs := { m.regs with here := here } }

section Overwriting

variable {m₀ m : Machine} {name : List UInt8} (h : m₀.Drafting name .empty m)
include h

/-- The free end of the dictionary can be moved back to the header of the open definition. -/
theorem Drafting.moveHere :
    (m.moveHere (m₀.regs.here + 1)).WithinRegions ∧
      (m.moveHere (m₀.regs.here + 1)).regs.here.toNat = m₀.regs.here.toNat + 1 ∧
      2 ≤ (m.moveHere (m₀.regs.here + 1)).unused := by
  have hstart := h.grown.before.start_le_here
  have hend := h.grown.here_le
  have hdata := h.grown.after.here_le_dataBase
  have hlt := m.regs.dataBase.toNat_lt
  unfold Record.cellsFor at hend
  have hback : (m₀.regs.here + 1).toNat = m₀.regs.here.toNat + 1 := by
    rw [UInt16.toNat_add]
    exact Nat.mod_eq_of_lt (by simp only [UInt16.toNat_one]; omega)
  have hstart₁ : dictionaryStart ≤ (m₀.regs.here + 1).toNat := by omega
  have hdata₁ : (m₀.regs.here + 1).toNat ≤ m.regs.dataBase.toNat := by omega
  refine ⟨{ h.grown.after with start_le_here := hstart₁, here_le_dataBase := hdata₁ }, hback, ?_⟩
  show 2 ≤ m.regs.dataBase.toNat - (m₀.regs.here + 1).toNat
  omega

/-- A cell that is added there overwrites the header. -/
theorem Drafting.overwritten {c : Cell}
    (hlong : m.memory.size <
      Record.codeField ⟨m₀.regs.here.toNat, m₀.regs.latest, c &&& ~~~Record.hiddenBit⟩) :
    ((m.moveHere (m₀.regs.here + 1)).append [c]).Overwritten := by
  obtain ⟨hwithin, hhere₁, htwo⟩ := h.moveHere
  have hstart := h.grown.before.start_le_here
  have hdata₁ : (m.moveHere (m₀.regs.here + 1)).regs.dataBase = m.regs.dataBase := rfl
  have hmemory₁ : (m.moveHere (m₀.regs.here + 1)).memory = m.memory := rfl
  -- Of the machine that was moved only these facts matter, and as a record it is costly to unfold.
  generalize hm₁ : m.moveHere (m₀.regs.here + 1) = m₁ at *
  have hdefining₁ : (append [c] m₁).regs.defining = m₀.regs.here := by
    rw [← hm₁]
    exact h.defining_eq
  have hunused := hwithin.here_add_unused
  have hsize := hwithin.ordered.dataBase_le_size
  have hroom : [c].length ≤ m₁.unused := Nat.le_of_succ_le htwo
  have hitems : (append [c] m₁).dataStack.items = m₁.dataStack.items :=
    items_overlay_of_le (m := { m₁ with regs := (append [c] m₁).regs }) (by
      show m₁.regs.here.toNat + 1 ≤ m₁.regs.dataBase.toNat
      omega)
  have hlink : m.memory.cells[m₀.regs.here.toNat]? = some m₀.regs.latest :=
    h.grown.holds.cell (i := 0) rfl
  refine
    { within := hwithin.append hroom
      mode_eq := ?_
      items := ⟨m₀.dataStack.items, ?_⟩
      defining_pos := ?_
      defining_lt := ?_
      room := ?_
      overlong := ⟨m₀.regs.latest, c, ?_, ?_, ?_⟩ }
  · rw [← hm₁]
    exact h.mode_eq
  · rw [hitems, hdefining₁, ← hm₁]
    exact h.items
  · rw [hdefining₁]
    unfold dictionaryStart at hstart
    omega
  · rw [hdefining₁, hwithin.toNat_here_append hroom, hhere₁]
    exact Nat.lt_succ_self _
  · rw [hwithin.unused_append hroom]
    show 0 < m₁.unused - 1
    omega
  · rw [hdefining₁]
    refine (Memory.cells_overlay_of_lt _ (by omega)).trans ?_
    rw [hmemory₁]
    exact hlink
  · have hfit : m₁.regs.here.toNat + [c].length ≤ m₁.memory.size := by
      show _ + 1 ≤ _
      omega
    rw [hdefining₁, ← hhere₁]
    exact Memory.cells_overlay_add (i := 0) Nat.zero_lt_one hfit
  · rw [hdefining₁]
    refine Nat.lt_of_le_of_lt (Nat.le_of_eq ?_) hlong
    rw [← hmemory₁]
    exact Memory.size_overlay ..

end Overwriting

end Machine

end CellForth
