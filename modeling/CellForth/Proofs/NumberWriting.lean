import CellForth.Numeral.Printer
import CellForth.Proofs.NumberReading
import Mathlib.Data.List.Forall2
import Mathlib.Data.Nat.Digits.Lemmas

/-!
# Numbers written and read

A number is written without leading zeros and in upper case, and there is only one way to write it
so: `Numeral.Canonical` says what such a row of digits is, and `Numeral.canonical_iff` that the
writer makes the only one of its value. The writer takes the digits off from the right and the
reader takes them in from the left; what they have in common is the value of a row of digits, so
neither has to know of the other.

Reading back what was written is then a matter of bounds, and writing what was read gives the
spelling `Numeral.normalize token` of the token: its letters in upper case, without a plus, without
zeros in front that do not count, and without a minus in front of zero. Both directions are in
`Numeral.format_exact`.
-/

namespace CellForth.Numeral

variable {base n d : Nat} {c : UInt8} {bytes token : List UInt8} {ds : List Nat}

/-! ### Digits in upper case -/

/-- Is the byte a letter in lower case? -/
def isLower (c : UInt8) : Bool :=
  97 ≤ c && c ≤ 122

theorem isLower_iff : isLower c = true ↔ 97 ≤ c.toNat ∧ c.toNat ≤ 122 := by
  simp only [isLower, Bool.and_eq_true, decide_eq_true_iff, UInt8.le_iff_toNat_le,
    UInt8.reduceToNat]

theorem toNat_digitByte (h : d < 36) : (digitByte d).toNat = if d < 10 then 48 + d else 55 + d := by
  unfold digitByte
  split
  · rw [UInt8.toNat_ofNat', Nat.mod_eq_of_lt (by omega)]
  · rw [UInt8.toNat_ofNat', Nat.mod_eq_of_lt (by omega)]

theorem digit_unique {d' : Nat} (h : Digit c d) (h' : Digit c d') : d = d' :=
  Option.some.inj ((digitValue?_eq_some_iff.mpr h).symm.trans (digitValue?_eq_some_iff.mpr h'))

/-- Of the bytes for a digit, the writer uses the one that is not in lower case. -/
theorem eq_digitByte_iff (h : d < 36) : c = digitByte d ↔ Digit c d ∧ isLower c = false := by
  rw [← UInt8.toNat_inj, toNat_digitByte h, digit_iff, Bool.eq_false_iff, ne_eq, isLower_iff]
  split <;> omega

theorem digit_digitByte (h : d < 36) : Digit (digitByte d) d :=
  ((eq_digitByte_iff h).mp rfl).1

theorem isLower_digitByte (h : d < 36) : isLower (digitByte d) = false :=
  ((eq_digitByte_iff h).mp rfl).2

theorem row_map_digitByte (hbase : base ≤ 36) (hbelow : ∀ d ∈ ds, d < base) :
    Row base (ds.map digitByte) ds := by
  refine ⟨?_, hbelow⟩
  rw [List.forall₂_map_left_iff, List.forall₂_same]
  intro d hd
  exact digit_digitByte (Nat.lt_of_lt_of_le (hbelow d hd) hbase)

theorem Row.eq_map_digitByte (hbase : base ≤ 36) (h : Row base bytes ds)
    (hupper : ∀ c ∈ bytes, isLower c = false) : bytes = ds.map digitByte := by
  induction bytes generalizing ds with
  | nil =>
    cases h.digits
    rfl
  | cons c bytes ih =>
    cases ds with
    | nil => cases h.digits
    | cons d ds =>
      obtain ⟨hc, hd, hrow⟩ := row_cons_iff.mp h
      rw [List.forall_mem_cons] at hupper
      rw [List.map_cons, ← ih hrow hupper.2,
        (eq_digitByte_iff (Nat.lt_of_lt_of_le hd hbase)).mpr ⟨hc, hupper.1⟩]

/-! ### Rows without leading zeros -/

/-- The digits of a number, the most significant one first, where zero has one digit. -/
def digitsOf (base n : Nat) : List Nat :=
  if n = 0 then [0] else (Nat.digits base n).reverse

/-- The writer puts down the digits of the number. -/
theorem digitsOnto_eq (hbase : 2 ≤ base) (n : Nat) (rest : List UInt8) :
    digitsOnto base n rest = (digitsOf base n).map digitByte ++ rest := by
  fun_induction digitsOnto base n rest with
  | case1 n rest h ih =>
    have hdiv : n / base ≠ 0 := (Nat.div_pos h.2 (by omega)).ne'
    rw [ih, digitsOf, digitsOf, if_neg hdiv, if_neg (by omega),
      Nat.digits_eq_cons_digits_div hbase (by omega : n ≠ 0)]
    simp
  | case2 n rest h =>
    have hlt : n < base := by omega
    unfold digitsOf
    split
    · rename_i hzero
      rw [hzero]
      rfl
    · rename_i hzero
      rw [Nat.digits_of_lt base n hzero hlt]
      rfl

theorem value_digitsOf (base n : Nat) : value base (digitsOf base n) = n := by
  unfold digitsOf
  split
  · rename_i hzero
    rw [hzero]
    simp [value]
  · rw [value, List.reverse_reverse, Nat.ofDigits_digits]

theorem lt_of_mem_digitsOf (hbase : 2 ≤ base) (hd : d ∈ digitsOf base n) : d < base := by
  unfold digitsOf at hd
  split at hd
  · rw [List.mem_singleton] at hd
    omega
  · exact Nat.digits_lt_base hbase (List.mem_reverse.mp hd)

theorem digitsOf_ne_nil : digitsOf base n ≠ [] := by
  unfold digitsOf
  split
  · exact List.cons_ne_nil _ _
  · rename_i hzero
    rwa [ne_eq, List.reverse_eq_nil_iff, Nat.digits_eq_nil_iff_eq_zero]

/-- A zero stands in front of the digits only alone. -/
theorem tail_eq_nil_of_digitsOf {rest : List Nat} (h : digitsOf base n = 0 :: rest) :
    rest = [] := by
  unfold digitsOf at h
  split at h
  · exact (List.cons.inj h).2.symm
  · rename_i hzero
    have hdigits : Nat.digits base n = rest.reverse ++ [0] := by
      rw [← List.reverse_reverse (Nat.digits base n), h, List.reverse_cons]
    have hlast := Nat.getLast_digit_ne_zero base hzero
    simp [hdigits] at hlast

/-- Digits without a zero in front, unless that is all there is, are those of their value. -/
theorem eq_digitsOf (hbase : 2 ≤ base) (hne : ds ≠ []) (hbelow : ∀ d ∈ ds, d < base)
    (hlead : ∀ rest, ds = 0 :: rest → rest = []) : ds = digitsOf base (value base ds) := by
  cases ds with
  | nil => exact absurd rfl hne
  | cons d rest =>
    by_cases hd : d = 0
    · subst hd
      rw [hlead rest rfl]
      simp [value, digitsOf]
    · have hdigits : Nat.digits base (value base (d :: rest)) = (d :: rest).reverse := by
        refine Nat.digits_ofDigits base hbase _ (fun e he => hbelow e (List.mem_reverse.mp he))
          fun hne => ?_
        simpa using hd
      have hvalue : value base (d :: rest) ≠ 0 := by
        intro hzero
        rw [hzero, Nat.digits_zero] at hdigits
        simp at hdigits
      rw [digitsOf, if_neg hvalue, hdigits, List.reverse_reverse]

/-- The bytes are a number in positional notation, in upper case and without leading zeros. -/
structure Canonical (base n : Nat) (bytes : List UInt8) : Prop where
  /-- They are the number. -/
  spells : Spells base bytes n
  /-- Digits are not in lower case. -/
  upper : ∀ c ∈ bytes, isLower c = false
  /-- A zero stands in front only alone. -/
  lead : ∀ rest, bytes = digitByte 0 :: rest → rest = []

theorem canonical_digitsOf (hlow : 2 ≤ base) (hhigh : base ≤ 36) (n : Nat) :
    Canonical base n ((digitsOf base n).map digitByte) := by
  have hbelow : ∀ d ∈ digitsOf base n, d < base := fun _ => lt_of_mem_digitsOf hlow
  refine ⟨⟨digitsOf base n, digitsOf_ne_nil, row_map_digitByte hhigh hbelow,
    (value_digitsOf base n).symm⟩, ?_, ?_⟩
  · intro c hc
    obtain ⟨d, hd, rfl⟩ := List.mem_map.mp hc
    exact isLower_digitByte (Nat.lt_of_lt_of_le (hbelow d hd) hhigh)
  · intro rest hrest
    obtain ⟨d, ds, hds, hd, rfl⟩ := List.map_eq_cons_iff.mp hrest
    have hd36 : d < 36 := Nat.lt_of_lt_of_le (hbelow d (hds ▸ List.mem_cons_self)) hhigh
    have hzero : d = 0 := digit_unique (digit_digitByte hd36) (hd ▸ digit_digitByte (by omega))
    subst hzero
    rw [tail_eq_nil_of_digitsOf hds, List.map_nil]

/-- **There is one way to write a number.** -/
theorem canonical_iff (hlow : 2 ≤ base) (hhigh : base ≤ 36) :
    Canonical base n bytes ↔ bytes = digitsOnto base n [] := by
  rw [digitsOnto_eq hlow, List.append_nil]
  constructor
  · rintro ⟨⟨ds, hne, hrow, rfl⟩, hupper, hlead⟩
    have hbytes := hrow.eq_map_digitByte hhigh hupper
    subst hbytes
    rw [← eq_digitsOf hlow hne hrow.below]
    rintro rest rfl
    exact List.map_eq_nil_iff.mp (hlead _ rfl)
  · rintro rfl
    exact canonical_digitsOf hlow hhigh n

/-! ### Reading what was written -/

theorem denotes_format (hlow : 2 ≤ base) (hhigh : base ≤ 36) (n : Nat) (negative : Bool) :
    Denotes base (format n negative base) negative n := by
  have hspells : Spells base (digitsOnto base n []) n := ((canonical_iff hlow hhigh).mpr rfl).spells
  cases negative with
  | false => exact .unsigned hspells
  | true => exact .minus hspells

theorem Denotes.unique {negative negative' : Bool} {n' : Nat} (h : Denotes base token negative n)
    (h' : Denotes base token negative' n') : negative = negative' ∧ n = n' := by
  obtain ⟨hsign, ds, -, hrow, rfl⟩ := denotes_iff.mp h
  obtain ⟨hsign', ds', -, hrow', rfl⟩ := denotes_iff.mp h'
  have hdigit : Relator.RightUnique Digit := fun _ _ _ => digit_unique
  have hds : ds = ds' := hdigit.forall₂ hrow.digits hrow'.digits
  exact ⟨hsign.symm.trans hsign', congrArg (value base) hds⟩

/-- What was written is read back exactly if it is within its bounds. -/
theorem read?_format_eq_some_iff {base v : Cell} (hlow : 2 ≤ base.toNat) (hhigh : base.toNat ≤ 36)
    {negative : Bool} : read? (format n negative base.toNat) base = some v ↔
      n ≤ bound negative ∧ v = cellOf negative n := by
  rw [read?_eq_some_iff]
  constructor
  · rintro ⟨-, negative', n', hdenotes, hbound, rfl⟩
    obtain ⟨rfl, rfl⟩ := hdenotes.unique (denotes_format hlow hhigh n negative)
    exact ⟨hbound, rfl⟩
  · rintro ⟨hbound, rfl⟩
    exact ⟨⟨hlow, hhigh⟩, negative, n, denotes_format hlow hhigh n negative, hbound, rfl⟩

/-- A cell is a magnitude within its bounds, with a minus if its signed reading is negative. -/
theorem signed_bound (v : Cell) :
    (Cell.signed v).natAbs ≤ bound (decide (Cell.signed v < 0)) ∧
      v = cellOf (decide (Cell.signed v < 0)) (Cell.signed v).natAbs := by
  have hv : v.toNat < 65536 := v.toNat_lt
  have hbound : (Cell.signed v).natAbs ≤ bound (decide (Cell.signed v < 0)) := by
    unfold Cell.signed bound
    split <;> split <;> simp only [decide_eq_true_iff] at * <;> omega
  refine ⟨hbound, UInt16.toNat_inj.mp ?_⟩
  rw [toNat_cellOf hbound]
  unfold Cell.signed
  split <;> split <;> simp only [decide_eq_true_iff] at * <;> omega

/-- The signed reading of a magnitude with a minus. -/
theorem signed_cellOf (h : n ≤ bound true) : Cell.signed (cellOf true n) = -(n : Int) := by
  have hn : n ≤ 32768 := h
  unfold Cell.signed
  rw [toNat_cellOf h, if_pos rfl]
  split <;> omega

/-! ### Writing what was read -/

/-- The letter in upper case. -/
def upperCase (c : UInt8) : UInt8 :=
  if isLower c then c - 32 else c

/-- The digits without the zeros in front, of which the last one stays if it is all there is. -/
def trim : List UInt8 → List UInt8
  | [] => []
  | [c] => [c]
  | c :: c' :: rest => if c = digitByte 0 then trim (c' :: rest) else c :: c' :: rest

/-- The token in upper case, without a plus, without zeros in front that do not count, and without a
minus in front of zero. -/
def normalize (token : List UInt8) : List UInt8 :=
  let digits := trim ((sign token).2.map upperCase)
  if (sign token).1 ∧ digits ≠ [digitByte 0] then Ascii.minus :: digits else digits

theorem Digit.upperCase_eq (h : Digit c d) : upperCase c = digitByte d := by
  have hd : d < 36 := by
    have := digit_iff.mp h
    omega
  rw [eq_digitByte_iff hd, digit_iff, Bool.eq_false_iff, ne_eq, isLower_iff]
  rw [digit_iff] at h
  unfold upperCase
  split
  · rename_i hlower
    rw [isLower_iff] at hlower
    rw [UInt8.toNat_sub_of_le _ _
      (UInt8.le_iff_toNat_le.mpr (by simp only [UInt8.reduceToNat]; omega))]
    simp only [UInt8.reduceToNat]
    omega
  · rename_i hlower
    rw [isLower_iff] at hlower
    omega

theorem Row.map_upperCase (h : Row base bytes ds) : bytes.map upperCase = ds.map digitByte := by
  have heq : List.Forall₂ Eq (bytes.map upperCase) (ds.map digitByte) := by
    rw [List.forall₂_map_left_iff, List.forall₂_map_right_iff]
    exact h.digits.imp fun _ _ hc => hc.upperCase_eq
  rwa [List.forall₂_eq_eq_eq] at heq

theorem Spells.map_upperCase (hbase : base ≤ 36) (h : Spells base bytes n) :
    Spells base (bytes.map upperCase) n ∧ ∀ c ∈ bytes.map upperCase, isLower c = false := by
  obtain ⟨ds, hne, hrow, rfl⟩ := h
  rw [hrow.map_upperCase]
  refine ⟨⟨ds, hne, row_map_digitByte hbase hrow.below, rfl⟩, fun c hc => ?_⟩
  obtain ⟨d, hd, rfl⟩ := List.mem_map.mp hc
  exact isLower_digitByte (Nat.lt_of_lt_of_le (hrow.below d hd) hbase)

/-- A zero in front does not count. -/
theorem Spells.of_zero_cons (h : Spells base (digitByte 0 :: c :: bytes) n) :
    Spells base (c :: bytes) n := by
  obtain ⟨ds, -, hrow, rfl⟩ := h
  match ds, hrow with
  | d :: d' :: ds, hrow =>
    obtain ⟨hd, -, hrow⟩ := row_cons_iff.mp hrow
    have hzero : d = 0 := digit_unique hd (digit_digitByte (by omega))
    refine ⟨d' :: ds, List.cons_ne_nil _ _, hrow, ?_⟩
    rw [value_cons, hzero, Nat.zero_mul, Nat.zero_add]
  | [d], hrow => cases (row_cons_iff.mp hrow).2.2.digits
  | [], hrow => cases hrow.digits

/-- Without the zeros in front, a number in upper case is written as it should be. -/
theorem canonical_trim (h : Spells base bytes n) (hupper : ∀ c ∈ bytes, isLower c = false) :
    Canonical base n (trim bytes) := by
  fun_induction trim bytes with
  | case1 => exact ⟨h, hupper, nofun⟩
  | case2 c => exact ⟨h, hupper, fun _ hrest => (List.cons.inj hrest).2.symm⟩
  | case3 c rest ih =>
    exact ih h.of_zero_cons fun b hb => hupper b (List.mem_cons_of_mem _ hb)
  | case4 c c' rest hzero => exact ⟨h, hupper, fun _ hrest => absurd (List.cons.inj hrest).1 hzero⟩

theorem trim_upperCase (hlow : 2 ≤ base) (hhigh : base ≤ 36) (h : Spells base bytes n) :
    trim (bytes.map upperCase) = digitsOnto base n [] := by
  obtain ⟨hspells, hupper⟩ := h.map_upperCase hhigh
  exact (canonical_iff hlow hhigh).mp (canonical_trim hspells hupper)

theorem digitsOnto_eq_zero_iff (hlow : 2 ≤ base) (hhigh : base ≤ 36) :
    digitsOnto base n [] = [digitByte 0] ↔ n = 0 := by
  constructor
  · intro h
    have hzero : Spells base [digitByte 0] 0 :=
      ⟨[0], List.cons_ne_nil _ _, row_cons_iff.mpr ⟨digit_digitByte (by omega), by omega, .nil⟩,
        by simp [value]⟩
    exact ((Denotes.unsigned ((canonical_iff hlow hhigh).mpr h.symm).spells).unique
      (.unsigned hzero)).2
  · rintro rfl
    rw [digitsOnto_eq hlow]
    rfl

theorem sign_eq_true_iff : (sign token).1 = true ↔ token.head? = some Ascii.minus := by
  cases token with
  | nil => simp [sign]
  | cons c rest =>
    rw [sign, List.head?_cons, Option.some.injEq]
    split
    · rename_i hplus
      rw [hplus]
      exact iff_of_false Bool.false_ne_true (by decide)
    · split <;> simp [*]

/-- What a number is written as in its reading, signed or not, is the normal form of the token. -/
theorem write_cellOf {negative : Bool} (hlow : 2 ≤ base) (hhigh : base ≤ 36)
    (h : Denotes base token negative n) (hbound : n ≤ bound negative) :
    (if negative then formatSigned (cellOf negative n) base
      else formatUnsigned (cellOf negative n) base) =
      normalize token := by
  obtain ⟨rfl, hspells⟩ := denotes_iff.mp h
  have htrim := trim_upperCase hlow hhigh hspells
  unfold normalize
  rw [htrim]
  generalize (sign token).1 = negative at *
  cases negative with
  | false =>
    rw [formatUnsigned, toNat_cellOf hbound]
    rfl
  | true =>
    rw [if_pos rfl, formatSigned, signed_cellOf hbound, format, Int.natAbs_neg, Int.natAbs_natCast]
    refine if_congr ?_ rfl rfl
    rw [ne_eq, digitsOnto_eq_zero_iff hlow hhigh, decide_eq_true_iff, and_iff_right rfl]
    omega

/-- **Numbers are written in one way, and reading and writing undo each other.** In a radix from `2`
to `36`, a number is written as a minus if it should have one and then as the only row of digits
that is its value in upper case and without leading zeros. What was written is read back exactly if
it is within its bounds, as its value modulo `65536`; so every cell is read back from its signed
reading. And the cell that a token was read as is written, signed if there is a minus in front, as
the normal form of the token. -/
theorem format_exact (base : Cell) (hlow : 2 ≤ base.toNat) (hhigh : base.toNat ≤ 36) :
    (∀ (n : Nat) (negative : Bool), ∃ digits,
      (∀ bytes, Canonical base.toNat n bytes ↔ bytes = digits) ∧
      format n negative base.toNat = if negative then Ascii.minus :: digits else digits) ∧
    (∀ (n : Nat) (negative : Bool) (v : Cell), read? (format n negative base.toNat) base = some v ↔
      n ≤ (if negative then 32768 else 65535) ∧
        v.toNat = if negative then (65536 - n) % 65536 else n) ∧
    (∀ v : Cell, read? (formatSigned v base.toNat) base = some v) ∧
    ∀ (token : List UInt8) (v : Cell), read? token base = some v →
      (if token.head? = some Ascii.minus then formatSigned v base.toNat
        else formatUnsigned v base.toNat) = normalize token := by
  refine ⟨fun n negative => ?_, fun n negative v => ?_, fun v => ?_, fun token v hread => ?_⟩
  · exact ⟨digitsOnto base.toNat n [], fun _ => canonical_iff hlow hhigh, rfl⟩
  · rw [read?_format_eq_some_iff hlow hhigh]
    refine and_congr_right fun hbound => ?_
    rw [← toNat_cellOf hbound, UInt16.toNat_inj]
  · exact (read?_format_eq_some_iff hlow hhigh).mpr (signed_bound v)
  · obtain ⟨-, negative, n, hdenotes, hbound, rfl⟩ := read?_eq_some_iff.mp hread
    rw [← write_cellOf hlow hhigh hdenotes hbound]
    rw [← (denotes_iff.mp hdenotes).1]
    exact if_congr sign_eq_true_iff.symm rfl rfl

/-- The number with the largest magnitude of those with a minus, read in radix `36` from lower case
letters behind a zero: it is written in upper case and without the zero, and the number below it,
once written, is not read. -/
theorem format_exact_minus_pa8 :
    read? [45, 48, 112, 97, 56] 36 = some 32768 ∧ formatSigned 32768 36 = [45, 80, 65, 56] ∧
      ¬ ∃ v, read? (format 32769 true 36) 36 = some v := by
  have hread : read? [45, 48, 112, 97, 56] 36 = some 32768 := by decide
  have hnormal : normalize [45, 48, 112, 97, 56] = [45, 80, 65, 56] := by decide
  obtain ⟨-, hback, -, htoken⟩ := format_exact 36 (by decide) (by decide)
  refine ⟨hread, (htoken _ _ hread).trans hnormal, ?_⟩
  rintro ⟨v, hv⟩
  exact absurd ((hback 32769 true v).mp hv).1 (by decide)

end CellForth.Numeral
