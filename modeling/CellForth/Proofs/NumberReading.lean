import CellForth.Numeral.Reader
import CellForth.Proofs.Cell
import Mathlib.Data.Nat.Digits.Defs

/-!
# The numbers that are read

What a number is can be said without a reader: an optional sign, and then one or more digits of the
radix. `Numeral.Digit` relates bytes to the digits they stand for, `Numeral.Spells` rows of bytes to
the numbers they are in positional notation, and `Numeral.Denotes` adds the sign. Any number of
leading zeros is allowed, and a row of digits may be as long as it likes.

The reader goes through the digits once, from the left, and gives up as soon as the value so far
does not fit a cell. A value that has left the range does not come back to it, since every further
digit multiplies it by the radix; so giving up early rejects nothing that a look at the whole number
would have accepted (`Numeral.magnitudeFrom_eq_some_iff`). The main result, `Numeral.read?_exact`,
adds that the value by which the reader notices is still small.
-/

namespace CellForth.Numeral

variable {base acc m n d : Nat} {c : UInt8} {bytes token : List UInt8} {ds : List Nat}

/-! ### Digits -/

/-- The byte stands for the digit: decimal digits, and letters of either case from ten on. -/
inductive Digit : UInt8 → Nat → Prop
  /-- One of `0` to `9`. -/
  | decimal {d : Nat} (h : d < 10) : Digit (UInt8.ofNat (48 + d)) d
  /-- One of `a` to `z`. -/
  | lower {d : Nat} (h : d < 26) : Digit (UInt8.ofNat (97 + d)) (10 + d)
  /-- One of `A` to `Z`. -/
  | upper {d : Nat} (h : d < 26) : Digit (UInt8.ofNat (65 + d)) (10 + d)

/-- The three rows of bytes that stand for digits, as numbers. -/
theorem digit_iff : Digit c d ↔
    (c.toNat = 48 + d ∧ d < 10) ∨ (10 ≤ d ∧ d < 36 ∧ (c.toNat = 87 + d ∨ c.toNat = 55 + d)) := by
  have hbyte {n : Nat} (h : n < 256) : (UInt8.ofNat n).toNat = n := by
    rw [UInt8.toNat_ofNat']
    exact Nat.mod_eq_of_lt h
  have hself {n : Nat} (h : c.toNat = n) : c = UInt8.ofNat n := by
    rw [← h, UInt8.ofNat_toNat]
  constructor
  · rintro (h | h | h) <;> rw [hbyte (by omega)] <;> omega
  · rintro (⟨hc, hd⟩ | ⟨hle, hlt, hc⟩)
    · rw [hself hc]
      exact .decimal hd
    · obtain ⟨k, rfl⟩ := Nat.exists_eq_add_of_le hle
      rcases hc with hc | hc
      · rw [hself (hc.trans (by omega : _ = 97 + k))]
        exact .lower (by omega)
      · rw [hself (hc.trans (by omega : _ = 65 + k))]
        exact .upper (by omega)

/-- The value that the reader gives a byte is the digit it stands for. -/
theorem digitValue?_eq_some_iff : digitValue? c = some d ↔ Digit c d := by
  rw [digit_iff]
  simp only [digitValue?, UInt8.le_iff_toNat_le, UInt8.reduceToNat]
  split
  · rw [Option.some.injEq]
    omega
  · split
    · rw [Option.some.injEq]
      omega
    · split
      · rw [Option.some.injEq]
        omega
      · simp only [reduceCtorEq, false_iff]
        omega

/-- A sign is no digit. -/
theorem Digit.ne_sign (h : Digit c d) : c ≠ Ascii.plus ∧ c ≠ Ascii.minus := by
  have hcases := digit_iff.mp h
  constructor <;> rintro rfl <;>
    simp only [Ascii.plus, Ascii.minus, UInt8.reduceToNat] at hcases <;> omega

/-! ### Rows of digits -/

/-- The number that a row of digits is in positional notation, the most significant one first. -/
def value (base : Nat) (ds : List Nat) : Nat :=
  Nat.ofDigits base ds.reverse

theorem value_cons : value base (d :: ds) = d * base ^ ds.length + value base ds := by
  rw [value, Nat.ofDigits_reverse_cons, value]
  ring

/-- The bytes stand for the given digits, each of which there is in the radix. -/
structure Row (base : Nat) (bytes : List UInt8) (ds : List Nat) : Prop where
  /-- Byte by byte. -/
  digits : List.Forall₂ Digit bytes ds
  /-- No digit is too high. -/
  below : ∀ d ∈ ds, d < base

theorem Row.nil : Row base [] [] := ⟨.nil, nofun⟩

theorem row_cons_iff :
    Row base (c :: bytes) (d :: ds) ↔ Digit c d ∧ d < base ∧ Row base bytes ds := by
  constructor
  · rintro ⟨hdigits, hbelow⟩
    rw [List.forall₂_cons] at hdigits
    rw [List.forall_mem_cons] at hbelow
    exact ⟨hdigits.1, hbelow.1, hdigits.2, hbelow.2⟩
  · rintro ⟨hc, hd, hrow⟩
    exact ⟨.cons hc hrow.digits, List.forall_mem_cons.mpr ⟨hd, hrow.below⟩⟩

/-- The bytes are a number in positional notation. -/
def Spells (base : Nat) (bytes : List UInt8) (n : Nat) : Prop :=
  ∃ ds, ds ≠ [] ∧ Row base bytes ds ∧ n = value base ds

/-- Behind the value `acc`, the next digit makes a new value. -/
theorem value_behind_cons (base acc d : Nat) (ds : List Nat) :
    acc * base ^ (d :: ds).length + value base (d :: ds) =
      (acc * base + d) * base ^ ds.length + value base ds := by
  rw [value_cons, List.length_cons]
  ring

/-- **Giving up early rejects nothing.** Behind the value `acc`, the reader accepts a row of digits
exactly if all of the number fits a cell. -/
theorem magnitudeFrom_eq_some_iff (hbase : 0 < base) (hacc : acc ≤ 65535) :
    magnitudeFrom base acc bytes = some n ↔
      ∃ ds, Row base bytes ds ∧ n = acc * base ^ ds.length + value base ds ∧ n ≤ 65535 := by
  induction bytes generalizing acc with
  | nil =>
    rw [magnitudeFrom, Option.some.injEq]
    constructor
    · rintro rfl
      exact ⟨[], .nil, by simp [value], hacc⟩
    · rintro ⟨ds, hrow, rfl, -⟩
      cases hrow.digits
      simp [value]
  | cons c bytes ih =>
    rw [magnitudeFrom]
    constructor
    · intro h
      split at h
      · cases h
      · rename_i d hd
        split at h
        · rename_i hfits
          obtain ⟨ds, hrow, rfl, hn⟩ := (ih hfits.2).mp h
          exact ⟨d :: ds, row_cons_iff.mpr ⟨digitValue?_eq_some_iff.mp hd, hfits.1, hrow⟩,
            (value_behind_cons base acc d ds).symm, hn⟩
        · cases h
    · rintro ⟨ds, hrow, rfl, hn⟩
      cases ds with
      | nil => cases hrow.digits
      | cons d ds =>
        obtain ⟨hc, hd, hrow⟩ := row_cons_iff.mp hrow
        have hvalue := value_behind_cons base acc d ds
        -- The value so far is at most that of the whole number, which fits.
        have hle : acc * base + d ≤ (acc * base + d) * base ^ ds.length :=
          Nat.le_mul_of_pos_right _ (Nat.pow_pos hbase)
        have hfits : acc * base + d ≤ 65535 := by omega
        rw [digitValue?_eq_some_iff.mpr hc]
        dsimp only
        rw [if_pos ⟨hd, hfits⟩]
        exact (ih hfits).mpr ⟨ds, hrow, hvalue, hn⟩

theorem magnitude?_eq_some_iff (hbase : 0 < base) :
    magnitude? base bytes = some n ↔ Spells base bytes n ∧ n ≤ 65535 := by
  cases bytes with
  | nil =>
    simp only [magnitude?, reduceCtorEq, false_iff]
    rintro ⟨⟨ds, hne, hrow, -⟩, -⟩
    cases hrow.digits
    exact hne rfl
  | cons c bytes =>
    rw [magnitude?, magnitudeFrom_eq_some_iff hbase (Nat.zero_le _)]
    constructor
    · rintro ⟨ds, hrow, rfl, hn⟩
      rw [Nat.zero_mul, Nat.zero_add] at hn ⊢
      refine ⟨⟨ds, ?_, hrow, rfl⟩, hn⟩
      rintro rfl
      cases hrow.digits
    · rintro ⟨⟨ds, -, hrow, rfl⟩, hn⟩
      exact ⟨ds, hrow, by rw [Nat.zero_mul, Nat.zero_add], hn⟩

/-! ### Numbers with a sign -/

/-- The token is an optional sign and then a number in positional notation. Is the sign a minus, and
which number is it? -/
inductive Denotes (base : Nat) : List UInt8 → Bool → Nat → Prop
  /-- There is no sign. -/
  | unsigned {digits : List UInt8} {n : Nat} (h : Spells base digits n) :
      Denotes base digits false n
  /-- There is a plus. -/
  | plus {digits : List UInt8} {n : Nat} (h : Spells base digits n) :
    Denotes base (Ascii.plus :: digits) false n
  /-- There is a minus. -/
  | minus {digits : List UInt8} {n : Nat} (h : Spells base digits n) :
    Denotes base (Ascii.minus :: digits) true n

theorem Spells.sign_eq (h : Spells base bytes n) : sign bytes = (false, bytes) := by
  obtain ⟨ds, hne, hrow, -⟩ := h
  cases bytes with
  | nil => rfl
  | cons c bytes =>
    cases ds with
    | nil => exact absurd rfl hne
    | cons d ds =>
      obtain ⟨hplus, hminus⟩ := (row_cons_iff.mp hrow).1.ne_sign
      rw [sign, if_neg hplus, if_neg hminus]

/-- Taking off the sign finds the one that is there. -/
theorem denotes_iff {negative : Bool} :
    Denotes base token negative n ↔ (sign token).1 = negative ∧ Spells base (sign token).2 n := by
  constructor
  · rintro (h | h | h)
    · rw [h.sign_eq]
      exact ⟨rfl, h⟩
    · exact ⟨rfl, h⟩
    · exact ⟨rfl, h⟩
  · rintro ⟨rfl, h⟩
    cases token with
    | nil => exact .unsigned h
    | cons c rest =>
      rw [sign] at h ⊢
      split at h
      · rename_i hplus
        subst hplus
        exact .plus h
      · split at h
        · rename_i hminus
          subst hminus
          exact .minus h
        · rename_i hplus hminus
          rw [if_neg hplus, if_neg hminus]
          exact .unsigned h

/-- The largest magnitude that a number with or without a minus may have. -/
def bound (negative : Bool) : Nat :=
  if negative then 32768 else 65535

theorem bound_le (negative : Bool) : bound negative ≤ 65535 := by
  cases negative <;> decide

/-- The cell of a magnitude with or without a minus. -/
def cellOf (negative : Bool) (n : Nat) : Cell :=
  if negative then -(UInt16.ofNat n) else UInt16.ofNat n

theorem toNat_cellOf {negative : Bool} (h : n ≤ bound negative) :
    (cellOf negative n).toNat = if negative then (65536 - n) % 65536 else n := by
  have hn : (UInt16.ofNat n).toNat = n := Cell.toNat_ofNat (by have := bound_le negative; omega)
  cases negative with
  | false => exact hn
  | true =>
    show (-(UInt16.ofNat n)).toNat = (65536 - n) % 65536
    rw [UInt16.toNat_neg, hn]

/-- The reader accepts exactly the numbers within their bounds. -/
theorem read?_eq_some_iff {base v : Cell} :
    read? token base = some v ↔ (2 ≤ base.toNat ∧ base.toNat ≤ 36) ∧
      ∃ negative n, Denotes base.toNat token negative n ∧ n ≤ bound negative ∧
        v = cellOf negative n := by
  unfold read?
  by_cases hradix : 2 ≤ base.toNat ∧ base.toNat ≤ 36
  · have hpos : 0 < base.toNat := by omega
    rw [if_pos hradix]
    simp only [denotes_iff, and_iff_right hradix]
    -- From here on only the sign and the digits that the token is split into matter.
    generalize sign token = taken
    obtain ⟨negative, digits⟩ := taken
    constructor
    · intro h
      cases hn : magnitude? base.toNat digits with
      | none => simp [hn] at h
      | some n =>
        obtain ⟨hspells, hle⟩ := (magnitude?_eq_some_iff hpos).mp hn
        have hcell : n ≤ bound negative ∧ v = cellOf negative n := by
          cases negative with
          | false => simpa [hn, bound, cellOf, hle, eq_comm] using h
          | true => simpa [hn, bound, cellOf, eq_comm] using h
        exact ⟨negative, n, ⟨rfl, hspells⟩, hcell⟩
    · rintro ⟨_, n, ⟨rfl, hspells⟩, hbound, rfl⟩
      have hn := (magnitude?_eq_some_iff hpos).mpr
        ⟨hspells, Nat.le_trans hbound (bound_le negative)⟩
      simp only [hn]
      cases negative with
      | false => rfl
      | true => exact if_pos hbound
  · rw [if_neg hradix]
    simp only [reduceCtorEq, hradix, false_and]

/-! ### The value so far -/

/-- A row of digits is read on from the value of its beginning. -/
theorem magnitudeFrom_append (base acc : Nat) (front back : List UInt8) :
    magnitudeFrom base acc (front ++ back) =
      (magnitudeFrom base acc front).bind fun acc => magnitudeFrom base acc back := by
  induction front generalizing acc with
  | nil => rfl
  | cons c front ih =>
    rw [List.cons_append, magnitudeFrom, magnitudeFrom]
    cases digitValue? c with
    | none => rfl
    | some d =>
      dsimp only
      split
      · exact ih _
      · rfl

/-- **Numbers are read exactly by their grammar.** A token is read if and only if the radix is one
from `2` to `36` and the token is an optional sign with one or more digits of that radix behind it,
whose value is within its bounds; and then it is read as that value, modulo `65536` with a minus in
front. While the digits `front` have been read, up to the value `acc`, the next value is at most
`65535 * 36 + 35`; if it does not fit a cell, at which the reader gives up, then neither does the
number as a whole. -/
theorem read?_exact (token : List UInt8) (base : Cell) :
    (∀ v : Cell, read? token base = some v ↔
      (2 ≤ base.toNat ∧ base.toNat ≤ 36) ∧ ∃ negative n, Denotes base.toNat token negative n ∧
        n ≤ (if negative then 32768 else 65535) ∧
        v.toNat = if negative then (65536 - n) % 65536 else n) ∧
    ∀ (front back : List UInt8) (c : UInt8) (acc d : Nat), 2 ≤ base.toNat ∧ base.toNat ≤ 36 →
      (sign token).2 = front ++ c :: back → magnitudeFrom base.toNat 0 front = some acc →
      Digit c d → d < base.toNat →
        acc * base.toNat + d ≤ 65535 * 36 + 35 ∧
          (65535 < acc * base.toNat + d → ∀ negative n, Denotes base.toNat token negative n →
            65535 < n) := by
  constructor
  · intro v
    rw [read?_eq_some_iff]
    refine and_congr_right fun _ => exists_congr fun negative => exists_congr fun n =>
      and_congr_right fun _ => and_congr_right fun hbound => ?_
    rw [← toNat_cellOf hbound, UInt16.toNat_inj]
  · intro front back c acc d hradix hdigits hacc hc hd
    have hpos : 0 < base.toNat := by omega
    obtain ⟨-, -, -, hfits⟩ := (magnitudeFrom_eq_some_iff hpos (Nat.zero_le _)).mp hacc
    refine ⟨?_, fun hlarge negative n hdenotes => ?_⟩
    · have hmul : acc * base.toNat ≤ 65535 * 36 := Nat.mul_le_mul hfits hradix.2
      omega
    · -- The reader gives up here, and it would not if the number did fit.
      by_contra hsmall
      have hread := (magnitude?_eq_some_iff hpos).mpr
        ⟨(denotes_iff.mp hdenotes).2, Nat.le_of_not_lt hsmall⟩
      have hgone : magnitude? base.toNat (front ++ c :: back) = none := by
        have hfrom : magnitudeFrom base.toNat 0 (front ++ c :: back) = none := by
          rw [magnitudeFrom_append, hacc, Option.bind_some, magnitudeFrom,
            digitValue?_eq_some_iff.mpr hc]
          exact if_neg (by omega)
        cases front <;> exact hfrom
      rw [hdigits, hgone] at hread
      cases hread

/-- The largest negative number in radix `36`, in letters of either case and with leading zeros: the
value at which its last digit is read, and the number one further down, which is none. -/
theorem read?_exact_minus_pa8 :
    read? [45, 48, 48, 112, 65, 56] 36 = some 32768 ∧
      (∃ n, Denotes 36 [45, 48, 48, 112, 65, 56] true n ∧ n ≤ 32768) ∧
      910 * 36 + 8 ≤ 65535 * 36 + 35 ∧ read? [45, 112, 65, 57] 36 = none := by
  have hread : read? [45, 48, 48, 112, 65, 56] 36 = some 32768 := by decide
  obtain ⟨hiff, hvalues⟩ := read?_exact [45, 48, 48, 112, 65, 56] 36
  obtain ⟨-, negative, n, hdenotes, hn, -⟩ := (hiff 32768).mp hread
  have hnegative : negative = true := (denotes_iff.mp hdenotes).1.symm
  subst hnegative
  have hstep := hvalues [48, 48, 112, 65] [] 56 910 8 (by decide) rfl (by decide)
    (digitValue?_eq_some_iff.mp (by decide)) (by decide)
  exact ⟨hread, ⟨n, hdenotes, hn⟩, hstep.1, by decide⟩

end CellForth.Numeral
