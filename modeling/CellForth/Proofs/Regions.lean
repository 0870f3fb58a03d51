import CellForth.Proofs.Boot
import CellForth.Proofs.Requests

/-!
# Regions never run into each other

Whatever a host asks of a machine, and whatever programs it has the machine interpret, the
dictionary, the data stack and the return stack stay in their regions. Programs can overwrite any
cell of memory, move the end of the dictionary back, and forge the entries by which the compiler
remembers open structures; none of this reaches the registers past the checks in front of them.

The bounds are `Machine.WithinRegions`, and the boundaries that they speak of, `Machine.regions`,
are fixed when the machine is built. `Elementary.bounded` checks each elementary operation once;
a machine is built by such operations from one that has no words, so a new machine is within its
regions (`Machine.create_withinRegions`) and stays so for ever.
-/

namespace CellForth

/-! ### The elementary operations -/

namespace Machine

/-- The machine is within its regions, and these have the given boundaries. -/
def Bounded (g : Regions) (m : Machine) : Prop :=
  m.WithinRegions ∧ m.regions = g

variable {g : Regions} {m : Machine}

/-- A machine with another memory of the same size is bounded in the same way. -/
theorem Bounded.withMemory (h : m.Bounded g) {memory : Memory}
    (hsize : memory.size = m.memory.size) : ({ m with memory := memory } : Machine).Bounded g := by
  obtain ⟨hm, rfl⟩ := h
  refine ⟨?_, ?_⟩
  · exact
      { hm with
        returnLimit_eq := hm.returnLimit_eq.trans hsize.symm
        size_le := Nat.le_trans (Nat.le_of_eq hsize) hm.size_le }
  · exact congrArg (Regions.mk _ _ _ _) hsize

theorem Bounded.onData {α : Type} {op : StackM α} (hop : Stack.Safe op) :
    Keeps (Bounded g) (Exec.onData op) := by
  rintro m ⟨hm, rfl⟩
  obtain ⟨hbounds, hframe⟩ := hop _ m.dataStack ⟨hm.dataStack, rfl⟩
  have hend : endState (Exec.onData op m) = m.withDataStack (endState (op m.dataStack)) := by
    rw [Exec.onData_eq]
    cases op m.dataStack <;> rfl
  obtain ⟨hbase, hlimit, hsize⟩ := Stack.Frame.mk.inj hframe
  rw [hend]
  generalize endState (op m.dataStack) = s at hbounds hbase hlimit hsize
  refine Bounded.withMemory (m := { m with regs := { m.regs with sp := s.pointer } })
    ⟨?_, rfl⟩ hsize
  exact
    { hm with
      dataBase_le_sp :=
        Nat.le_trans (Nat.le_of_eq (congrArg UInt16.toNat hbase).symm) hbounds.base_le
      sp_le_dataLimit :=
        Nat.le_trans hbounds.pointer_le (Nat.le_of_eq (congrArg UInt16.toNat hlimit)) }

theorem Bounded.onReturn {α : Type} {op : StackM α} (hop : Stack.Safe op) :
    Keeps (Bounded g) (Exec.onReturn op) := by
  rintro m ⟨hm, rfl⟩
  obtain ⟨hbounds, hframe⟩ := hop _ m.returnStack ⟨hm.returnStack, rfl⟩
  have hend : endState (Exec.onReturn op m) = m.withReturnStack (endState (op m.returnStack)) := by
    rw [Exec.onReturn_eq]
    cases op m.returnStack <;> rfl
  obtain ⟨hbase, hlimit, hsize⟩ := Stack.Frame.mk.inj hframe
  rw [hend]
  generalize endState (op m.returnStack) = s at hbounds hbase hlimit hsize
  refine Bounded.withMemory (m := { m with regs := { m.regs with rp := s.pointer } })
    ⟨?_, rfl⟩ hsize
  exact
    { hm with
      returnBase_le_rp :=
        Nat.le_trans (Nat.le_of_eq (congrArg UInt16.toNat hbase).symm) hbounds.base_le
      rp_le_returnLimit :=
        Nat.le_trans hbounds.pointer_le (Nat.le_of_eq (congrArg UInt16.toNat hlimit)) }

theorem Bounded.put (pos : Nat) (c : Cell) :
    Keeps (Bounded g) (Exec.onMemory (Memory.put pos c)) := by
  intro m hm
  have hend : endState (Exec.onMemory (Memory.put pos c) m) =
      { m with memory := endState (Memory.put pos c m.memory) } := by
    rw [Exec.onMemory_eq]
    cases Memory.put pos c m.memory <;> rfl
  rw [hend]
  exact hm.withMemory (Memory.size_endState_put pos c m.memory)

theorem Bounded.append {cs : List Cell} (hm : m.Bounded g) (hroom : cs.length ≤ m.unused) :
    (m.append cs).Bounded g :=
  ⟨hm.1.append hroom, (regions_append cs m).trans hm.2⟩

theorem Bounded.compileCell (c : Cell) : Keeps (Bounded g) (Exec.compileCell c) := by
  intro m hm
  rw [Exec.compileCell_eq hm.1.ordered]
  split
  · rename_i hroom
    exact hm.append hroom
  · exact hm

theorem Bounded.compileString (bs : List UInt8) : Keeps (Bounded g) (Exec.compileString bs) := by
  intro m hm
  rw [Exec.compileString_eq hm.1.ordered]
  split
  · rename_i hroom
    refine hm.append ?_
    rw [Memory.length_stringCells]
    exact hroom.2
  · exact hm

theorem Bounded.createRecord (name : List UInt8) (code flags : Cell) :
    Keeps (Bounded g) (Exec.createRecord name code flags) := by
  intro m hm
  by_cases hgood : name ≠ [] ∧ name.length ≤ Record.maxNameLength ∧
      Record.cellsFor name.length ≤ m.unused
  · obtain ⟨hne, hlen, hroom⟩ := hgood
    obtain ⟨journal, hok⟩ := Exec.createRecord_of_room hm.1.ordered code flags hne hlen hroom
    have hlength :=
      Record.length_cells m.regs.latest (Record.makeHeader flags name.length) name code
    have hcells := hm.append (Nat.le_trans (Nat.le_of_eq hlength) hroom)
    rw [hok]
    exact ⟨{ hcells.1 with }, hcells.2⟩
  · obtain ⟨e, herror⟩ := Exec.createRecord_refused code flags hgood
    rw [herror]
    exact hm

theorem Bounded.allot (n : Int) : Keeps (Bounded g) (Exec.allot n) := by
  intro m hm
  rw [Exec.allot_eq]
  split
  · rename_i hle
    split
    · rename_i hstart
      have hlt := m.regs.dataBase.toNat_lt
      have hhere : (UInt16.ofNat ((m.regs.here.toNat : Int) + n).toNat).toNat =
          ((m.regs.here.toNat : Int) + n).toNat := Cell.toNat_ofNat (by omega)
      refine ⟨{ hm.1 with start_le_here := ?_, here_le_dataBase := ?_ }, hm.2⟩
      · show dictionaryStart ≤ (UInt16.ofNat ((m.regs.here.toNat : Int) + n).toNat).toNat
        omega
      · show (UInt16.ofNat ((m.regs.here.toNat : Int) + n).toNat).toNat ≤ m.regs.dataBase.toNat
        omega
    · exact hm
  · exact hm

theorem Bounded.addRuntime (name : String) (action : Action) :
    Keeps (Bounded g) (Exec.addRuntime name action) := by
  intro m hm
  rw [Exec.addRuntime_eq]
  split
  · rename_i hlt
    have htable : (m.table.push action).size ≤ dictionaryStart := by
      rw [Array.size_push]
      omega
    exact ⟨{ hm.1 with table_le := htable }, hm.2⟩
  · exact hm

end Machine

open Machine in
/-- The bounds are kept by all elementary operations. -/
theorem Elementary.bounded (g : Regions) : Elementary (Machine.Bounded g) where
  onData := Bounded.onData
  onReturn := Bounded.onReturn
  put := Bounded.put
  compileCell := Bounded.compileCell
  compileString := Bounded.compileString
  createRecord := Bounded.createRecord
  allot := Bounded.allot
  setIp _ _ hm := ⟨{ hm.1 with }, hm.2⟩
  setW _ _ hm := ⟨{ hm.1 with }, hm.2⟩
  setBase _ hb _ hm :=
    ⟨{ hm.1 with
        two_le_base := UInt16.le_iff_toNat_le.mp hb.1
        base_le := UInt16.le_iff_toNat_le.mp hb.2 }, hm.2⟩
  setMode _ _ hm := ⟨{ hm.1 with }, hm.2⟩
  setDefinition _ _ _ hm := ⟨{ hm.1 with }, hm.2⟩
  addRuntime := Bounded.addRuntime
  devices _ _ _ _ _ hm := ⟨{ hm.1 with }, hm.2⟩

/-- Where the boundaries are does not matter. -/
theorem Elementary.withinRegions : Elementary Machine.WithinRegions where
  onData hop m hm := ((bounded _).onData hop m ⟨hm, rfl⟩).1
  onReturn hop m hm := ((bounded _).onReturn hop m ⟨hm, rfl⟩).1
  put pos c m hm := ((bounded _).put pos c m ⟨hm, rfl⟩).1
  compileCell c m hm := ((bounded _).compileCell c m ⟨hm, rfl⟩).1
  compileString bs m hm := ((bounded _).compileString bs m ⟨hm, rfl⟩).1
  createRecord name code flags m hm :=
    ((bounded _).createRecord name code flags m ⟨hm, rfl⟩).1
  allot n m hm := ((bounded _).allot n m ⟨hm, rfl⟩).1
  setIp f m hm := ((bounded _).setIp f m ⟨hm, rfl⟩).1
  setW xt m hm := ((bounded _).setW xt m ⟨hm, rfl⟩).1
  setBase b hb m hm := ((bounded _).setBase b hb m ⟨hm, rfl⟩).1
  setMode mode m hm := ((bounded _).setMode mode m ⟨hm, rfl⟩).1
  setDefinition address mode m hm := ((bounded _).setDefinition address mode m ⟨hm, rfl⟩).1
  addRuntime name action m hm := ((bounded _).addRuntime name action m ⟨hm, rfl⟩).1
  devices m input output token journal hm :=
    ((bounded _).devices m input output token journal ⟨hm, rfl⟩).1

/-! ### Whole lives of machines -/

/-- Whatever the configuration, a machine that is built is within its regions. -/
theorem Machine.create_withinRegions {config : Config} {input : Source} {output : Sink}
    {verbosity : Verbosity} {m : Machine} (h : create config input output verbosity = .ok m) :
    m.WithinRegions := by
  unfold create at h
  split at h
  · cases h
  · rename_i layout hlayout
    have hbare := bare_withinRegions hlayout input output verbosity
    have hkept := Elementary.withinRegions.plain.addVocabulary _ hbare
    split at h
    · cases h
    · rename_i m₀ hadd
      rw [hadd] at hkept
      cases h
      exact { hkept with }

end CellForth
