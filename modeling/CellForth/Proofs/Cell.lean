import CellForth.Cell

/-!
# Cells as natural numbers

Addresses and counts are cells, and arithmetic on them is modulo `2 ^ 16`. The lemmas here say
when it is plain arithmetic: as long as a sum stays below `65536` and a difference above zero.
They are stated for the natural number `toNat`, in which all bounds of the machine are written.

A cell also holds two bytes, or some flags and a number; the last lemmas take these apart.
-/

namespace CellForth

namespace Cell

theorem toNat_ofNat {n : Nat} (h : n < 65536) : (UInt16.ofNat n).toNat = n := by
  rw [UInt16.toNat_ofNat']
  exact Nat.mod_eq_of_lt h

theorem toNat_add {a b : Cell} (h : a.toNat + b.toNat < 65536) :
    (a + b).toNat = a.toNat + b.toNat := by
  rw [UInt16.toNat_add]
  exact Nat.mod_eq_of_lt h

theorem toNat_add_ofNat {c : Cell} {n : Nat} (h : c.toNat + n < 65536) :
    (c + UInt16.ofNat n).toNat = c.toNat + n := by
  have hn : (UInt16.ofNat n).toNat = n := toNat_ofNat (by omega)
  rw [toNat_add (by omega), hn]

theorem toNat_sub {a b : Cell} (h : b.toNat ≤ a.toNat) : (a - b).toNat = a.toNat - b.toNat :=
  UInt16.toNat_sub_of_le a b (UInt16.le_iff_toNat_le.mpr h)

theorem toNat_sub_ofNat {c : Cell} {n : Nat} (h : n ≤ c.toNat) :
    (c - UInt16.ofNat n).toNat = c.toNat - n := by
  have hlt := c.toNat_lt
  have hn : (UInt16.ofNat n).toNat = n := toNat_ofNat (by omega)
  rw [toNat_sub (by omega), hn]

theorem eq_of_toNat_eq {a b : Cell} (h : a.toNat = b.toNat) : a = b :=
  UInt16.toNat_inj.mp h

theorem toNat_ne_zero_iff {c : Cell} : c.toNat ≠ 0 ↔ c ≠ 0 :=
  not_congr (UInt16.toNat_inj (b := 0))

/-! ### Bytes and bits -/

@[simp] theorem lowByte_ofBytes (low high : UInt8) : lowByte (ofBytes low high) = low := by
  unfold lowByte ofBytes
  apply UInt8.eq_of_toBitVec_eq
  simp

@[simp] theorem highByte_ofBytes (low high : UInt8) : highByte (ofBytes low high) = high := by
  unfold highByte ofBytes
  apply UInt8.eq_of_toBitVec_eq
  ext i hi
  simp
  grind

/-- The two bytes of a cell make up the cell. -/
@[simp] theorem ofBytes_lowByte_highByte (c : Cell) : ofBytes (lowByte c) (highByte c) = c := by
  unfold ofBytes lowByte highByte
  apply UInt16.eq_of_toBitVec_eq
  ext i hi
  simp [-UInt16.toUInt16_toUInt8]
  grind

theorem or_and_distrib (a b c : Cell) : (a ||| b) &&& c = (a &&& c) ||| (b &&& c) := by
  apply UInt16.eq_of_toBitVec_eq
  simp [BitVec.and_or_distrib_right]

end Cell

end CellForth
