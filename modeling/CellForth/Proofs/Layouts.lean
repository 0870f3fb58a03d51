import CellForth.Proofs.Boot

/-!
# Layouts in the arithmetic of the host

A host keeps the sizes of a configuration in words of 64 bits. `HostConfig` is such a configuration,
with three arbitrary words, and `HostConfig.layoutBy add sub` places its regions with the given
addition and subtraction of words. With `checkedAdd` and `checkedSub` the host gives up as soon as
one result is not exact; with the sums and differences modulo `2 ^ 64` it never gives up.

Only the size of memory is bounded before the sizes of the stacks are added, so there are sizes for
which the sum is not exact, and no check comes before it (`HostConfig.Overflows`). For all others
every result is exact, both ways to compute agree with `Config.layout`, and the layout is what it
should be (`HostConfig.layout_exact`). For sizes whose sum is not exact, computing modulo `2 ^ 64`
can let through a layout whose stacks begin beyond the end of memory
(`HostConfig.wrapped_layout_out_of_order`).
-/

namespace CellForth

/-! ### Exact results -/

/-- The sum of two words, if it is one. -/
def checkedAdd (a b : UInt64) : Option UInt64 :=
  if a.toNat + b.toNat < hostRange then some (a + b) else none

/-- The difference of two words, if it is one. -/
def checkedSub (a b : UInt64) : Option UInt64 :=
  if b.toNat ≤ a.toNat then some (a - b) else none

/-- The sizes of memory and of its stacks, as a host keeps them. -/
structure HostConfig where
  /-- The size of the whole memory. -/
  coreSize : UInt64
  /-- The size of the data stack. -/
  dataStackSize : UInt64
  /-- The size of the return stack. -/
  returnStackSize : UInt64

namespace HostConfig

/-- The configuration with these sizes. -/
def config (c : HostConfig) : Config where
  coreSize := c.coreSize.toNat
  dataStackSize := c.dataStackSize.toNat
  returnStackSize := c.returnStackSize.toNat

/-- Adds up what memory has to hold, and places the stacks if there is room for them; `none` if a
sum or a difference is missing. -/
def placeBy (add sub : UInt64 → UInt64 → Option UInt64) (c : HostConfig) :
    Option (Except ConfigError Layout) := do
  let stackCells ← add c.dataStackSize c.returnStackSize
  let used ← add (UInt64.ofNat dictionaryStart) stackCells
  if c.coreSize ≤ used then pure (.error .stacksDoNotFit)
  else do
    let returnBase ← sub c.coreSize c.returnStackSize
    let dataBase ← sub returnBase c.dataStackSize
    pure (.ok ⟨dataBase.toNat, returnBase.toNat, c.coreSize.toNat⟩)

/-- The regions of a configuration, or the first reason to refuse it. -/
def layoutBy (add sub : UInt64 → UInt64 → Option UInt64) (c : HostConfig) :
    Option (Except ConfigError Layout) :=
  if UInt64.ofNat maxCoreSize < c.coreSize then some (.error .coreTooLarge)
  else if c.dataStackSize = 0 ∨ c.returnStackSize = 0 then some (.error .emptyStack)
  else c.placeBy add sub

/-- The sizes pass the checks in front of the sum, and the sum is not a word. -/
def Overflows (c : HostConfig) : Prop :=
  c.coreSize.toNat ≤ maxCoreSize ∧ 1 ≤ c.dataStackSize.toNat ∧ 1 ≤ c.returnStackSize.toNat ∧
    hostRange ≤ dictionaryStart + c.dataStackSize.toNat + c.returnStackSize.toNat

end HostConfig

theorem checkedAdd_of_lt {a b : UInt64} (h : a.toNat + b.toNat < hostRange) :
    ∃ c, checkedAdd a b = some c ∧ c.toNat = a.toNat + b.toNat := by
  refine ⟨a + b, if_pos h, ?_⟩
  rw [UInt64.toNat_add]
  exact Nat.mod_eq_of_lt h

theorem checkedAdd_of_le {a b : UInt64} (h : hostRange ≤ a.toNat + b.toNat) :
    checkedAdd a b = none :=
  if_neg (Nat.not_lt.mpr h)

theorem checkedSub_of_le {a b : UInt64} (h : b.toNat ≤ a.toNat) :
    ∃ c, checkedSub a b = some c ∧ c.toNat = a.toNat - b.toNat :=
  ⟨a - b, if_pos h, UInt64.toNat_sub_of_le a b (UInt64.le_iff_toNat_le.mpr h)⟩

/-! ### Layouts -/

namespace HostConfig

variable {c : HostConfig}

theorem ofNat_maxCoreSize_lt_iff :
    UInt64.ofNat maxCoreSize < c.coreSize ↔ maxCoreSize < c.config.coreSize :=
  UInt64.lt_iff_toNat_lt

theorem stack_eq_zero_iff : c.dataStackSize = 0 ∨ c.returnStackSize = 0 ↔
    c.config.dataStackSize = 0 ∨ c.config.returnStackSize = 0 := by
  rw [← UInt64.toNat_inj, ← UInt64.toNat_inj]
  rfl

/-- An addition and a subtraction that give the exact results where there are any cannot be told
from the checked ones as long as these do not give up. -/
theorem layoutBy_of_checked {add sub : UInt64 → UInt64 → Option UInt64}
    (hadd : ∀ a b x, checkedAdd a b = some x → add a b = some x)
    (hsub : ∀ a b x, checkedSub a b = some x → sub a b = some x) {r : Except ConfigError Layout}
    (h : c.layoutBy checkedAdd checkedSub = some r) : c.layoutBy add sub = some r := by
  have hplace (h : c.placeBy checkedAdd checkedSub = some r) : c.placeBy add sub = some r := by
    obtain ⟨stackCells, hstack, h⟩ := Option.bind_eq_some_iff.mp h
    obtain ⟨used, hused, h⟩ := Option.bind_eq_some_iff.mp h
    refine Option.bind_eq_some_iff.mpr ⟨stackCells, hadd _ _ _ hstack, ?_⟩
    refine Option.bind_eq_some_iff.mpr ⟨used, hadd _ _ _ hused, ?_⟩
    split
    · rwa [if_pos ‹_›] at h
    · rw [if_neg ‹_›] at h
      obtain ⟨returnBase, hreturn, h⟩ := Option.bind_eq_some_iff.mp h
      obtain ⟨dataBase, hdata, h⟩ := Option.bind_eq_some_iff.mp h
      refine Option.bind_eq_some_iff.mpr ⟨returnBase, hsub _ _ _ hreturn, ?_⟩
      exact Option.bind_eq_some_iff.mpr ⟨dataBase, hsub _ _ _ hdata, h⟩
  unfold layoutBy at h ⊢
  split
  · rwa [if_pos ‹_›] at h
  · rw [if_neg ‹_›] at h
    split
    · rwa [if_pos ‹_›] at h
    · rw [if_neg ‹_›] at h
      exact hplace h

/-- The checked sum is missing where it is not a word. -/
theorem placeBy_of_le
    (hsum : hostRange ≤ dictionaryStart + c.dataStackSize.toNat + c.returnStackSize.toNat) :
    c.placeBy checkedAdd checkedSub = none := by
  have hstart : (UInt64.ofNat dictionaryStart).toNat = dictionaryStart := by decide
  -- It is either of the two additions that fails, the second one if the stacks alone are a word.
  rcases Nat.lt_or_ge (c.dataStackSize.toNat + c.returnStackSize.toNat) hostRange with hlt | hge
  · obtain ⟨stackCells, hadd, hcells⟩ := checkedAdd_of_lt hlt
    have hused : checkedAdd (UInt64.ofNat dictionaryStart) stackCells = none :=
      checkedAdd_of_le (by omega)
    simp [placeBy, hadd, hused]
  · simp [placeBy, checkedAdd_of_le hge]

/-- With a sum that is a word, no other result is missing: the stacks are subtracted only if they
fit. -/
theorem placeBy_of_lt
    (hsum : dictionaryStart + c.dataStackSize.toNat + c.returnStackSize.toNat < hostRange) :
    c.placeBy checkedAdd checkedSub =
      some (if c.coreSize.toNat ≤
        dictionaryStart + (c.dataStackSize.toNat + c.returnStackSize.toNat) then
          .error .stacksDoNotFit
        else .ok ⟨c.coreSize.toNat - c.returnStackSize.toNat - c.dataStackSize.toNat,
          c.coreSize.toNat - c.returnStackSize.toNat, c.coreSize.toNat⟩) := by
  have hstart : (UInt64.ofNat dictionaryStart).toNat = dictionaryStart := by decide
  obtain ⟨stackCells, hstack, hcells⟩ := checkedAdd_of_lt (a := c.dataStackSize)
    (b := c.returnStackSize) (by omega)
  obtain ⟨used, hused, huses⟩ := checkedAdd_of_lt (a := UInt64.ofNat dictionaryStart)
    (b := stackCells) (by omega)
  rw [hstart, hcells] at huses
  have hfits : c.coreSize ≤ used ↔
      c.coreSize.toNat ≤ dictionaryStart + (c.dataStackSize.toNat + c.returnStackSize.toNat) := by
    rw [UInt64.le_iff_toNat_le, huses]
  by_cases hle : c.coreSize ≤ used
  · simp [placeBy, hstack, hused, hle, hfits.mp hle]
  · -- Memory is larger than all that was added up, so neither difference can fall below zero.
    have hlt := Nat.lt_of_not_le (mt hfits.mpr hle)
    obtain ⟨returnBase, hreturn, hreturnBase⟩ := checkedSub_of_le (a := c.coreSize)
      (b := c.returnStackSize) (by omega)
    obtain ⟨dataBase, hdata, hdataBase⟩ := checkedSub_of_le (a := returnBase)
      (b := c.dataStackSize) (by omega)
    simp [placeBy, hstack, hused, hle, mt hfits.mpr hle, hreturn, hdata, hdataBase, hreturnBase]

/-- The checked computation gives up on sizes that overflow, and so does the layout. -/
theorem layoutBy_of_overflows (h : c.Overflows) :
    c.layoutBy checkedAdd checkedSub = none ∧ c.config.layout = .error .sizeOverflow := by
  obtain ⟨hcore, hdata, hreturn, hsum⟩ := h
  have hsmall : ¬maxCoreSize < c.config.coreSize := Nat.not_lt.mpr hcore
  have hstacks : ¬(c.config.dataStackSize = 0 ∨ c.config.returnStackSize = 0) := by
    simp only [config]
    omega
  have hrange :
      hostRange ≤ dictionaryStart + (c.config.dataStackSize + c.config.returnStackSize) := by
    rwa [← Nat.add_assoc]
  constructor
  · simp only [layoutBy, ofNat_maxCoreSize_lt_iff, stack_eq_zero_iff, hsmall, hstacks, if_false]
    exact placeBy_of_le hsum
  · simp only [Config.layout, hsmall, hstacks, hrange, if_false, if_true]

/-- On all other sizes they agree. -/
theorem layoutBy_of_not_overflows (h : ¬c.Overflows) :
    c.layoutBy checkedAdd checkedSub = some c.config.layout ∧
      c.config.layout ≠ .error .sizeOverflow := by
  simp only [layoutBy, Config.layout, ofNat_maxCoreSize_lt_iff, stack_eq_zero_iff]
  by_cases hcore : maxCoreSize < c.config.coreSize
  · simp [hcore]
  · by_cases hstacks : c.config.dataStackSize = 0 ∨ c.config.returnStackSize = 0
    · simp [hcore, hstacks]
    · have hsum :
          dictionaryStart + c.dataStackSize.toNat + c.returnStackSize.toNat < hostRange := by
        by_contra hrange
        simp only [config] at hcore hstacks
        exact h ⟨by omega, by omega, by omega, by omega⟩
      have hrange :
          ¬hostRange ≤ dictionaryStart + (c.config.dataStackSize + c.config.returnStackSize) := by
        rw [← Nat.add_assoc]
        exact Nat.not_le.mpr hsum
      simp only [hcore, hstacks, hrange, if_false, placeBy_of_lt hsum]
      refine ⟨rfl, ?_⟩
      split <;> nofun

/-- The boundaries of a layout are in order, and the stacks between them have the sizes asked
for. -/
structure Places (c : HostConfig) (layout : Layout) : Prop where
  /-- The dictionary is not empty. -/
  start_lt : dictionaryStart < layout.dataBase
  /-- The data stack is below the return stack. -/
  dataBase_lt : layout.dataBase < layout.returnBase
  /-- The return stack is not empty. -/
  returnBase_lt : layout.returnBase < layout.returnLimit
  /-- The return stack ends where memory does. -/
  returnLimit_eq : layout.returnLimit = c.coreSize.toNat
  /-- The data stack has the size asked for. -/
  dataStack_eq : layout.returnBase - layout.dataBase = c.dataStackSize.toNat
  /-- So has the return stack. -/
  returnStack_eq : layout.returnLimit - layout.returnBase = c.returnStackSize.toNat

theorem places_of_layout {layout : Layout} (h : c.config.layout = .ok layout) :
    c.Places layout := by
  obtain ⟨-, hdata, hreturn, hfits, rfl⟩ := Config.layout_eq_ok_iff.mp h
  simp only [config] at hdata hreturn hfits ⊢
  constructor <;> dsimp only <;> omega

end HostConfig

/-- The registers of a new machine hold the boundaries of a layout. -/
structure Registers.Mark (regs : Registers) (layout : Layout) : Prop where
  /-- The data stack is empty. -/
  sp : regs.sp.toNat = layout.dataBase
  /-- So is the return stack. -/
  rp : regs.rp.toNat = layout.returnBase
  /-- The base of the data stack. -/
  dataBase : regs.dataBase.toNat = layout.dataBase
  /-- The end of the data stack. -/
  dataLimit : regs.dataLimit.toNat = layout.returnBase
  /-- The base of the return stack. -/
  returnBase : regs.returnBase.toNat = layout.returnBase
  /-- The end of the return stack. -/
  returnLimit : regs.returnLimit.toNat = layout.returnLimit

theorem Registers.mark_initial {config : Config} {layout : Layout}
    (h : config.layout = .ok layout) :
    (Registers.initial layout).Mark layout := by
  obtain ⟨hdata, hreturn, hlimit⟩ := Config.toNat_ofNat_layout h
  exact ⟨hdata, hreturn, hdata, hreturn, hreturn, hlimit⟩

/-- **Layouts are exact, for all sizes that can be added.** Let the sizes be any words. The host
gives up for want of an exact result only on sizes that overflow, and these are the ones that are
refused for it. On all others the checked computation gives the layout, and so does the computation
modulo `2 ^ 64`. A layout is given exactly if the memory is not too large, the stacks are not empty
and the memory is larger than the reserved cells and the stacks together; then the regions are in
order, the stacks have the sizes asked for, and the registers of a machine hold the boundaries
without loss. -/
theorem HostConfig.layout_exact (c : HostConfig) :
    (c.layoutBy checkedAdd checkedSub = none ↔ c.Overflows) ∧
    (c.config.layout = .error .sizeOverflow ↔ c.Overflows) ∧
    (¬c.Overflows →
      c.layoutBy checkedAdd checkedSub = some c.config.layout ∧
        c.layoutBy (fun a b => some (a + b)) (fun a b => some (a - b)) = some c.config.layout) ∧
    ((∃ layout, c.config.layout = .ok layout) ↔
      c.coreSize.toNat ≤ 65535 ∧ 1 ≤ c.dataStackSize.toNat ∧ 1 ≤ c.returnStackSize.toNat ∧
        256 + c.dataStackSize.toNat + c.returnStackSize.toNat < c.coreSize.toNat) ∧
    (∀ layout, c.config.layout = .ok layout →
      c.Places layout ∧ (Registers.initial layout).Mark layout) := by
  have hagree (h : ¬c.Overflows) := layoutBy_of_not_overflows h
  refine ⟨⟨fun hnone => ?_, fun h => (layoutBy_of_overflows h).1⟩,
    ⟨fun herror => ?_, fun h => (layoutBy_of_overflows h).2⟩, fun h => ⟨(hagree h).1, ?_⟩, ⟨?_, ?_⟩,
    fun layout hlayout => ⟨places_of_layout hlayout, Registers.mark_initial hlayout⟩⟩
  · by_contra h
    rw [(hagree h).1] at hnone
    cases hnone
  · by_contra h
    exact (hagree h).2 herror
  · exact layoutBy_of_checked (fun _ _ _ hsum => (Option.ite_none_right_eq_some.mp hsum).2)
      (fun _ _ _ hdifference => (Option.ite_none_right_eq_some.mp hdifference).2) (hagree h).1
  · rintro ⟨layout, hlayout⟩
    obtain ⟨hmax, hdata, hreturn, hfits, -⟩ := Config.layout_eq_ok_iff.mp hlayout
    exact ⟨hmax, hdata, hreturn, by rwa [Nat.add_assoc]⟩
  · rintro ⟨hmax, hdata, hreturn, hfits⟩
    exact ⟨_, Config.layout_eq_ok_iff.mpr ⟨hmax, hdata, hreturn, by rwa [← Nat.add_assoc], rfl⟩⟩

/-- Stacks that no memory has room for, whose cells and the reserved ones come to `254` modulo `2 ^
64`. The checked computation gives up on them. The other one lets them through, and both stacks then
begin beyond the end of memory. -/
theorem HostConfig.wrapped_layout_out_of_order :
    ∃ c : HostConfig, c.coreSize = 32768 ∧ 32768 ≤ c.dataStackSize ∧ c.Overflows ∧
      c.config.layout = .error .sizeOverflow ∧ c.layoutBy checkedAdd checkedSub = none ∧
      ∃ layout, c.layoutBy (fun a b => some (a + b)) (fun a b => some (a - b)) = some (.ok layout) ∧
        layout.returnLimit < layout.dataBase ∧ layout.returnLimit < layout.returnBase :=
  ⟨⟨32768, 9223372036854775807, 9223372036854775807⟩,
    rfl, by decide, by unfold Overflows; decide, rfl,
    rfl, ⟨32770, 9223372036854808577, 32768⟩, rfl, by decide, by decide⟩

end CellForth
