import Meguro.Text.CString
import Mathlib.Data.Nat.Prime.Basic

/-!
# Numbers with a unit letter

`number_from_string` and `size_from_string` read a decimal and one letter with
`sscanf` and multiply. The two smaller units are multiplied as 32-bit unsigned
numbers, only the largest as 64-bit ones, and without a letter the variable
`unit` keeps what its memory held. The result is the exact product as long as
the 32-bit product does not wrap, and a number without a letter is itself as
long as that memory holds no unit letter.
-/

namespace Meguro

open Decimal

/-- The text behind one sign. -/
def afterSign : List UInt8 → List UInt8
  | 45 :: rest => rest
  | 43 :: rest => rest
  | rest => rest

/-- `sscanf` with the format `%d%c`, given what the two variables held: a text
without a number leaves both, a text that ends after it leaves the second. -/
def sscanfIntChar (str : CString) (number : UInt32) (unit : UInt8) : UInt32 × UInt8 :=
  let digits := afterSign (str.bytes.dropWhile isSpace)
  if digits.takeWhile isDigit = [] then (number, unit)
  else ((atoi str.bytes).toUInt32, (digits.dropWhile isDigit).headD unit)

/-- The letter of the largest unit and the base of the multipliers. -/
structure UnitTable where
  giga : UInt8
  base : UInt32
  giga_ne : giga ≠ 107 ∧ giga ≠ 109
  giga_lower : 97 ≤ giga.toNat ∧ giga.toNat ≤ 122
  base_even : 2 ∣ base.toNat
  base_pos : 0 < base.toNat
  base_le : base.toNat ≤ 1024

/-- The branches on the lower-case letter. -/
def UnitTable.scale (table : UnitTable) (number : UInt32) (lowerUnit : UInt8) : UInt64 :=
  if lowerUnit = 107 then (number * table.base).toUInt64
  else if lowerUnit = 109 then (number * table.base * table.base).toUInt64
  else if lowerUnit = table.giga then
    number.toUInt64 * table.base.toUInt64 * table.base.toUInt64 * table.base.toUInt64
  else number.toUInt64

/-- The body the two functions share, on a text and on what the memory of
`number` and `unit` held. -/
def UnitTable.fromString (table : UnitTable) (str : CString) (number : UInt32) (unit : UInt8) :
    UInt64 :=
  let scanned := sscanfIntChar str number unit
  table.scale scanned.1 (tolower scanned.2)

/-- The letters `k`, `m`, `b` with powers of 1000. -/
def numberUnits : UnitTable where
  giga := 98
  base := 1000
  giga_ne := by decide
  giga_lower := by decide
  base_even := by decide
  base_pos := by decide
  base_le := by decide

/-- The letters `k`, `m`, `g` with powers of 1024. -/
def sizeUnits : UnitTable where
  giga := 103
  base := 1024
  giga_ne := by decide
  giga_lower := by decide
  base_even := by decide
  base_pos := by decide
  base_le := by decide

/-- `number_from_string`. -/
def numberFromString : CString → UInt32 → UInt8 → UInt64 := numberUnits.fromString

/-- `size_from_string`. -/
def sizeFromString : CString → UInt32 → UInt8 → UInt64 := sizeUnits.fromString

/-! ## The texts the options are given -/

/-- The three units, by the power of the base they stand for. -/
inductive UnitName
  | kilo
  | mega
  | giga
  deriving DecidableEq

/-- A unit letter in lower or upper case. -/
structure UnitLetter where
  name : UnitName
  upper : Bool
  deriving DecidableEq

namespace UnitTable

variable (table : UnitTable)

/-- The lower-case letter of a unit. -/
def lowerLetter : UnitName → UInt8
  | .kilo => 107
  | .mega => 109
  | .giga => table.giga

/-- The letter as written. -/
def letter (unit : UnitLetter) : UInt8 :=
  if unit.upper then table.lowerLetter unit.name - 32 else table.lowerLetter unit.name

/-- What a unit multiplies by. -/
def multiplier : UnitName → Nat
  | .kilo => table.base.toNat
  | .mega => table.base.toNat ^ 2
  | .giga => table.base.toNat ^ 3

theorem lowerLetter_bounds (name : UnitName) :
    97 ≤ (table.lowerLetter name).toNat ∧ (table.lowerLetter name).toNat ≤ 122 := by
  cases name with
  | kilo => exact (by decide : 97 ≤ (107 : UInt8).toNat ∧ (107 : UInt8).toNat ≤ 122)
  | mega => exact (by decide : 97 ≤ (109 : UInt8).toNat ∧ (109 : UInt8).toNat ≤ 122)
  | giga => exact table.giga_lower

theorem toNat_letter (unit : UnitLetter) : (table.letter unit).toNat =
    (table.lowerLetter unit.name).toNat - if unit.upper then 32 else 0 := by
  have hbounds := table.lowerLetter_bounds unit.name
  rw [letter]
  split
  · apply UInt8.toNat_sub_of_le
    rw [UInt8.le_iff_toNat_le]
    exact Nat.le_trans (by decide) hbounds.1
  · rfl

/-- Either case is read as the lower-case letter. -/
theorem tolower_letter (unit : UnitLetter) :
    tolower (table.letter unit) = table.lowerLetter unit.name := by
  have hbounds := table.lowerLetter_bounds unit.name
  have hletter := table.toNat_letter unit
  rw [tolower]
  simp only [UInt8.le_iff_toNat_le, UInt8.reduceToNat]
  cases hupper : unit.upper with
  | true =>
    rw [hupper, if_pos rfl] at hletter
    rw [if_pos (by omega), letter, if_pos hupper, UInt8.sub_add_cancel]
  | false =>
    rw [hupper, if_neg Bool.false_ne_true] at hletter
    rw [if_neg (by omega), letter, if_neg (by simp [hupper])]

/-- A unit letter is neither a digit nor NUL. -/
theorem letter_spec (unit : UnitLetter) :
    isDigit (table.letter unit) = false ∧ table.letter unit ≠ 0 := by
  have hbounds := table.lowerLetter_bounds unit.name
  have hletter := table.toNat_letter unit
  have hlarge : 65 ≤ (table.letter unit).toNat := by split at hletter <;> omega
  constructor
  · rw [Bool.eq_false_iff, ne_eq, isDigit_iff]
    omega
  · intro h
    rw [h] at hlarge
    exact absurd hlarge (by decide)

/-- The bytes of a number with or without a unit letter. -/
def optionBytes (n : Nat) (unit : Option UnitLetter) : List UInt8 :=
  decimal n ++ (unit.map table.letter).toList

/-- The text of a number with or without a unit letter. -/
def optionText (n : Nat) (unit : Option UnitLetter) : CString :=
  ⟨table.optionBytes n unit, by
    rw [optionBytes, List.mem_append, not_or]
    refine ⟨notMem_decimal (by decide), ?_⟩
    cases unit with
    | none => exact List.not_mem_nil
    | some unit => simpa [eq_comm] using (table.letter_spec unit).2⟩

/-- The number is read as it was written, and the letter if there is one. -/
theorem sscanfIntChar_optionText {n : Nat} (h : n < 2 ^ 31) (unit : Option UnitLetter)
    (number₀ : UInt32) (unit₀ : UInt8) : sscanfIntChar (table.optionText n unit) number₀ unit₀ =
      (UInt32.ofNat n, (unit.map table.letter).getD unit₀) := by
  have hrest : ∀ b ∈ ((unit.map table.letter).toList).head?, isDigit b = false := by
    cases unit with
    | none => intro b hb; cases hb
    | some unit => intro b hb; cases hb; exact (table.letter_spec unit).1
  obtain ⟨d, ds, hd, hspace, hminus, hplus⟩ := decimal_eq_cons n
  have hdigits : afterSign ((table.optionBytes n unit).dropWhile isSpace) =
      table.optionBytes n unit := by
    rw [optionBytes, hd, List.cons_append, List.dropWhile_cons_of_neg (by simp [hspace])]
    unfold afterSign
    split
    · rename_i rest he
      exact absurd (List.cons.inj he).1 hminus
    · rename_i rest he
      exact absurd (List.cons.inj he).1 hplus
    · rfl
  have htake : (table.optionBytes n unit).takeWhile isDigit = decimal n :=
    takeWhile_decimal_append hrest
  have hatoi : (atoi (table.optionBytes n unit)).toUInt32 = UInt32.ofNat n :=
    atoi_decimal_append h hrest
  have hunit : (table.optionBytes n unit).dropWhile isDigit = (unit.map table.letter).toList :=
    dropWhile_decimal_append hrest
  simp only [sscanfIntChar, optionText, hdigits, htake, if_neg (decimal_ne_nil n), hatoi, hunit]
  cases unit <;> rfl

/-! ## When the product is exact -/

/-- The result is the number times its unit; without a letter, the number. -/
def Exact (n : Nat) (unit : Option UnitLetter) (number₀ : UInt32) (unit₀ : UInt8) : Prop :=
  (table.fromString (table.optionText n unit) number₀ unit₀).toNat =
    n * (unit.map (table.multiplier ·.name)).getD 1

/-- Only the largest unit may pass 32 bits; without a letter, the memory of `unit`
holds none, or the number is 0. -/
def Fits (n : Nat) (unit : Option UnitLetter) (unit₀ : UInt8) : Prop :=
  match unit with
  | some letter => letter.name = .giga ∨ n * table.multiplier letter.name < 2 ^ 32
  | none => n = 0 ∨ ∀ name, tolower unit₀ ≠ table.lowerLetter name

/-- Only 0 is itself again after a multiplication by an even number modulo 2^32. -/
theorem mul_mod_eq_self_iff {n base : Nat} (hn : n < 2 ^ 32) (heven : 2 ∣ base)
    (hpos : 0 < base) : n * base % 2 ^ 32 = n ↔ n = 0 := by
  refine ⟨fun h => ?_, fun h => by rw [h, Nat.zero_mul, Nat.zero_mod]⟩
  have hsub : (n * base) % 2 ^ 32 = (n * 1) % 2 ^ 32 := by
    rw [h, Nat.mul_one, Nat.mod_eq_of_lt hn]
  have hdvd : 2 ^ 32 ∣ n * (base - 1) := by
    rw [Nat.mul_sub]
    exact (Nat.modEq_iff_dvd' (Nat.mul_le_mul_left n hpos)).mp hsub.symm
  have hcoprime : Nat.Coprime (2 ^ 32) (base - 1) := by
    apply Nat.Coprime.pow_left
    rw [Nat.coprime_two_left, Nat.odd_iff]
    omega
  exact Nat.eq_zero_of_dvd_of_lt (hcoprime.dvd_of_dvd_mul_right hdvd) hn

theorem toNat_scale_kilo (number : UInt32) :
    (table.scale number 107).toNat = number.toNat * table.multiplier .kilo % 2 ^ 32 := by
  rw [scale, if_pos rfl, UInt32.toNat_toUInt64, UInt32.toNat_mul, multiplier]

theorem toNat_scale_mega (number : UInt32) :
    (table.scale number 109).toNat = number.toNat * table.multiplier .mega % 2 ^ 32 := by
  rw [scale, if_neg (by decide), if_pos rfl, UInt32.toNat_toUInt64, UInt32.toNat_mul,
    UInt32.toNat_mul, Nat.mod_mul_mod, multiplier, pow_two, Nat.mul_assoc]

theorem toNat_scale_giga {number : UInt32} (h : number.toNat < 2 ^ 31) :
    (table.scale number table.giga).toNat = number.toNat * table.multiplier .giga := by
  have hcube : table.base.toNat ^ 3 ≤ 1024 ^ 3 := Nat.pow_le_pow_left table.base_le 3
  have hbound : number.toNat * table.base.toNat ^ 3 < 2 ^ 64 := by
    calc number.toNat * table.base.toNat ^ 3 ≤ number.toNat * 1024 ^ 3 :=
          Nat.mul_le_mul_left _ hcube
      _ < 2 ^ 64 := by omega
  rw [scale, if_neg table.giga_ne.1, if_neg table.giga_ne.2, if_pos rfl, multiplier]
  simp only [UInt64.toNat_mul, UInt32.toNat_toUInt64, Nat.mod_mul_mod]
  rw [Nat.mul_assoc, Nat.mul_assoc, ← pow_two, ← pow_succ']
  exact Nat.mod_eq_of_lt hbound

theorem scale_of_ne {lowerUnit : UInt8} (h : ∀ name, lowerUnit ≠ table.lowerLetter name)
    (number : UInt32) : table.scale number lowerUnit = number.toUInt64 := by
  have hkilo : lowerUnit ≠ 107 := h .kilo
  have hmega : lowerUnit ≠ 109 := h .mega
  have hgiga : lowerUnit ≠ table.giga := h .giga
  rw [scale, if_neg hkilo, if_neg hmega, if_neg hgiga]

theorem multiplier_even_pos (name : UnitName) :
    2 ∣ table.multiplier name ∧ 0 < table.multiplier name := by
  have heven := table.base_even
  have hpos := table.base_pos
  cases name with
  | kilo => exact ⟨heven, hpos⟩
  | mega => exact ⟨dvd_pow heven (by decide), Nat.pow_pos hpos⟩
  | giga => exact ⟨dvd_pow heven (by decide), Nat.pow_pos hpos⟩

/-- What a letter makes of a number: the product, modulo 2^32 but for the largest unit. -/
theorem toNat_scale {number : UInt32} (h : number.toNat < 2 ^ 31) (name : UnitName) :
    (table.scale number (table.lowerLetter name)).toNat =
      if name = .giga then number.toNat * table.multiplier name
      else number.toNat * table.multiplier name % 2 ^ 32 := by
  cases name with
  | kilo => exact table.toNat_scale_kilo number
  | mega => exact table.toNat_scale_mega number
  | giga => exact table.toNat_scale_giga h

/-- A scanned number is exact exactly when the product fits. -/
theorem exact_iff_fits {n : Nat} (h : n < 2 ^ 31) (unit : Option UnitLetter) (number₀ : UInt32)
    (unit₀ : UInt8) : table.Exact n unit number₀ unit₀ ↔ table.Fits n unit unit₀ := by
  have hn : (UInt32.ofNat n).toNat = n := by
    rw [UInt32.toNat_ofNat']
    omega
  rw [Exact, fromString, table.sscanfIntChar_optionText h]
  cases unit with
  | some unit =>
    simp only [Option.map_some, Option.getD_some, tolower_letter, Fits]
    rw [table.toNat_scale (by omega), hn]
    split
    · rename_i hgiga
      exact iff_of_true rfl (Or.inl hgiga)
    · rename_i hgiga
      rw [Nat.mod_eq_iff_lt (by decide), or_iff_right hgiga]
  | none =>
    simp only [Option.map_none, Option.getD_none, Nat.mul_one, Fits]
    by_cases hletter : ∃ name, tolower unit₀ = table.lowerLetter name
    · obtain ⟨name, hname⟩ := hletter
      have hnot : ¬ ∀ name, tolower unit₀ ≠ table.lowerLetter name := fun h => h name hname
      obtain ⟨heven, hpos⟩ := table.multiplier_even_pos name
      rw [or_iff_left hnot, hname, table.toNat_scale (by omega), hn]
      split
      · constructor
        · intro he
          by_contra hne
          have hone := Nat.eq_of_mul_eq_mul_left (Nat.pos_of_ne_zero hne)
            (he.trans (Nat.mul_one n).symm)
          omega
        · rintro rfl
          exact Nat.zero_mul _
      · exact mul_mod_eq_self_iff (by omega) heven hpos
    · have hother : ∀ name, tolower unit₀ ≠ table.lowerLetter name := not_exists.mp hletter
      rw [table.scale_of_ne hother, UInt32.toNat_toUInt64, hn]
      exact iff_of_true rfl (Or.inr hother)

end UnitTable

/-- `number_from_string` and `size_from_string` are exact exactly when the
product fits, or nothing that looks like a unit was left in memory. -/
theorem options_exact_iff_fits (n : Nat) (h : n < 2 ^ 31) (unit : Option UnitLetter)
    (number₀ : UInt32) (unit₀ : UInt8) :
    ((numberFromString (numberUnits.optionText n unit) number₀ unit₀).toNat =
        n * (unit.map (numberUnits.multiplier ·.name)).getD 1 ↔ numberUnits.Fits n unit unit₀) ∧
      ((sizeFromString (sizeUnits.optionText n unit) number₀ unit₀).toNat =
        n * (unit.map (sizeUnits.multiplier ·.name)).getD 1 ↔ sizeUnits.Fits n unit unit₀) :=
  ⟨numberUnits.exact_iff_fits h unit number₀ unit₀, sizeUnits.exact_iff_fits h unit number₀ unit₀⟩

/-- `64M`, the default of the mapper's memory. -/
theorem options_exact_64M :
    ((numberFromString (numberUnits.optionText 64 (some ⟨.mega, true⟩)) 0 0).toNat =
        64 * ((some ⟨.mega, true⟩ : Option UnitLetter).map (numberUnits.multiplier ·.name)).getD 1 ↔
          numberUnits.Fits 64 (some ⟨.mega, true⟩) 0) ∧
      ((sizeFromString (sizeUnits.optionText 64 (some ⟨.mega, true⟩)) 0 0).toNat =
        64 * ((some ⟨.mega, true⟩ : Option UnitLetter).map (sizeUnits.multiplier ·.name)).getD 1 ↔
          sizeUnits.Fits 64 (some ⟨.mega, true⟩) 0) :=
  options_exact_iff_fits 64 (by decide) (some ⟨.mega, true⟩) 0 0

/-- `4096M` is read as no memory at all. -/
theorem not_options_exact_4096M :
    ¬ ∀ (n : Nat) (unit : Option UnitLetter) (number₀ : UInt32) (unit₀ : UInt8), n < 2 ^ 31 →
      (numberFromString (numberUnits.optionText n unit) number₀ unit₀).toNat =
          n * (unit.map (numberUnits.multiplier ·.name)).getD 1 ∧
        (sizeFromString (sizeUnits.optionText n unit) number₀ unit₀).toNat =
          n * (unit.map (sizeUnits.multiplier ·.name)).getD 1 := by
  intro h
  have hsize := (h 4096 (some ⟨.mega, true⟩) 0 0 (by decide)).2
  have hread : sizeFromString (sizeUnits.optionText 4096 (some ⟨.mega, true⟩)) 0 0 = 0 := by decide
  rw [hread] at hsize
  exact absurd hsize (by decide)

end Meguro
