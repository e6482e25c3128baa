import Meguro.Core.Decimal
import Meguro.Core.Search
import Mathlib.Data.List.TakeWhile

/-!
# C strings and the conversions the program uses

A C string is a list of bytes without NUL; its length is what `strlen` returns.
`strstr`, `strrchr`, `strcasecmp`, `strtol`, `atoi` and the `%d` conversion
follow the documented behaviour of the C library: `strtol` skips white space, takes one sign and
saturates at the ends of a 64-bit `long`, and `atoi` keeps its low 32 bits.
Lengths are natural numbers: the script engine's strings stop at 2^28 - 1
characters, so no length the program computes reaches the end of an `int`.
-/

namespace Meguro

open Decimal Search

/-- A NUL-terminated string: its bytes before the terminator. -/
structure CString where
  bytes : List UInt8
  nulFree : 0 ∉ bytes
  deriving DecidableEq

namespace CString

@[ext] theorem ext {s t : CString} (h : s.bytes = t.bytes) : s = t := by
  cases s
  cases t
  cases h
  rfl

theorem bytes_injective : Function.Injective bytes := fun _ _ => ext

/-- The C string of a literal. -/
def ofLiteral (s : String) : CString :=
  ⟨(s.toList.map fun c => UInt8.ofNat c.toNat).filter (· ≠ 0), by simp⟩

/-- The part of a string in front of a byte position, as left by writing NUL there. -/
def truncate (s : CString) (n : Nat) : CString :=
  ⟨s.bytes.take n, fun h => s.nulFree (List.mem_of_mem_take h)⟩

end CString

/-- The bytes of a literal. -/
abbrev literal (s : String) : List UInt8 := (CString.ofLiteral s).bytes

/-- `tolower`. -/
def tolower (c : UInt8) : UInt8 := if 65 ≤ c ∧ c ≤ 90 then c + 32 else c

/-- The part of a string that begins at the last occurrence of a character. -/
def strrchr (c : UInt8) : List UInt8 → Option (List UInt8)
  | [] => none
  | b :: bs => (strrchr c bs).or (if b = c then some (b :: bs) else none)

/-- `strcasecmp` finds no difference. -/
def SameIgnoringCase (s t : List UInt8) : Prop := s.map tolower = t.map tolower

instance (s t : List UInt8) : Decidable (SameIgnoringCase s t) :=
  inferInstanceAs (Decidable (s.map tolower = t.map tolower))

/-- The white space `strtol` skips. -/
def isSpace (b : UInt8) : Bool := b == 32 || (9 ≤ b && b ≤ 13)

/-- `strtol` to base ten: a sign is 45 (minus) or 43 (plus), reading stops at the
first byte that is no digit, and no digits at all give 0. -/
def strtol (text : List UInt8) : Int :=
  match text.dropWhile isSpace with
  | 45 :: digits => max (-(value (digits.takeWhile isDigit) : Int)) (-2 ^ 63)
  | 43 :: digits => min (value (digits.takeWhile isDigit) : Int) (2 ^ 63 - 1)
  | digits => min (value (digits.takeWhile isDigit) : Int) (2 ^ 63 - 1)

/-- `atoi` is `strtol` truncated to an `int`. -/
def atoi (text : List UInt8) : Int32 := Int32.ofInt (strtol text)

/-- What `%d` prints for an `int`. -/
def printInt (i : Int32) : List UInt8 :=
  if i.toInt < 0 then 45 :: decimal i.toInt.natAbs else decimal i.toInt.natAbs

/-- What `snprintf` leaves in a buffer of this size: one byte is kept for NUL. -/
def snprintf (size : Nat) (text : List UInt8) : List UInt8 := text.take (size - 1)

theorem strrchr_append {c : UInt8} {ext : List UInt8} (h : c ∉ ext) (stem : List UInt8) :
    strrchr c (stem ++ c :: ext) = some (c :: ext) := by
  have hnone : strrchr c ext = none := by
    induction ext with
    | nil => rfl
    | cons b bs ih =>
      rw [List.mem_cons, not_or] at h
      rw [strrchr, ih h.2, if_neg (Ne.symm h.1)]
      rfl
  induction stem with
  | nil => simp [strrchr, hnone]
  | cons b bs ih => rw [List.cons_append, strrchr, ih, Option.some_or]

theorem toNat_pos_of_ne_zero {c : UInt32} (h : c ≠ 0) : 0 < c.toNat :=
  UInt32.lt_iff_toNat_lt.mp (UInt32.pos_iff_ne_zero.mpr h)

/-- The conversion of an unsigned count below 2^31 keeps its value. -/
theorem toInt_toInt32_of_lt {c : UInt32} (h : c.toNat < 2 ^ 31) : c.toInt32.toInt = c.toNat := by
  change c.toBitVec.toInt = _
  rw [BitVec.toInt_eq_toNat_of_lt]
  · rfl
  · change 2 * c.toNat < 2 ^ 32
    omega

theorem printInt_of_lt {c : UInt32} (h : c.toNat < 2 ^ 31) :
    printInt c.toInt32 = decimal c.toNat := by
  rw [printInt, toInt_toInt32_of_lt h, if_neg (by omega), Int.natAbs_natCast]

/-- From 2^31 on the conversion turns a count into a negative number. -/
theorem toInt_toInt32_of_ge {c : UInt32} (h : 2 ^ 31 ≤ c.toNat) :
    c.toInt32.toInt = c.toNat - 2 ^ 32 := by
  change c.toBitVec.toInt = _
  rw [BitVec.toInt_eq_toNat_cond, if_neg]
  · rfl
  · change ¬ 2 * c.toNat < 2 ^ 32
    omega

/-- From 2^31 on a count prints as a minus sign and its distance to 2^32. -/
theorem printInt_of_ge {c : UInt32} (h : 2 ^ 31 ≤ c.toNat) :
    printInt c.toInt32 = 45 :: decimal (2 ^ 32 - c.toNat) := by
  have hlt : c.toNat < 2 ^ 32 := c.toNat_lt
  have habs : ((c.toNat : Int) - 2 ^ 32).natAbs = 2 ^ 32 - c.toNat := by omega
  rw [printInt, toInt_toInt32_of_ge h, if_pos (by omega), habs]

theorem isSpace_of_isDigit {b : UInt8} (h : isDigit b = true) : isSpace b = false := by
  obtain ⟨hlo, hhi⟩ := isDigit_iff.mp h
  have hne : b ≠ 32 := by rintro rfl; simp at hlo
  simp only [isSpace, Bool.or_eq_false_iff, beq_eq_false_iff_ne, ne_eq, hne, not_false_eq_true,
    true_and, Bool.and_eq_false_iff, decide_eq_false_iff_not, UInt8.not_le]
  right
  rw [UInt8.lt_iff_toNat_lt]
  exact Nat.lt_of_lt_of_le (by decide) hlo

/-- A printed number begins with a digit, so with no white space and no sign. -/
theorem decimal_eq_cons (n : Nat) : ∃ d ds, decimal n = d :: ds ∧ isSpace d = false ∧
    d ≠ 45 ∧ d ≠ 43 := by
  obtain ⟨d, ds, hd⟩ := List.exists_cons_of_ne_nil (decimal_ne_nil n)
  have hdigit : isDigit d = true := isDigit_of_mem_decimal (n := n) (by simp [hd])
  refine ⟨d, ds, hd, isSpace_of_isDigit hdigit, ?_, ?_⟩
  · rintro rfl
    exact absurd hdigit (by decide)
  · rintro rfl
    exact absurd hdigit (by decide)

theorem takeWhile_decimal_append {n : Nat} {rest : List UInt8}
    (hrest : ∀ b ∈ rest.head?, isDigit b = false) :
    (decimal n ++ rest).takeWhile isDigit = decimal n := by
  rw [List.takeWhile_append_of_pos fun b => isDigit_of_mem_decimal]
  cases rest with
  | nil => simp
  | cons b rest => rw [List.takeWhile_cons_of_neg (by simp [hrest b rfl]), List.append_nil]

theorem dropWhile_decimal_append {n : Nat} {rest : List UInt8}
    (hrest : ∀ b ∈ rest.head?, isDigit b = false) :
    (decimal n ++ rest).dropWhile isDigit = rest := by
  rw [List.dropWhile_append_of_pos fun b => isDigit_of_mem_decimal]
  cases rest with
  | nil => rfl
  | cons b rest => rw [List.dropWhile_cons_of_neg (by simp [hrest b rfl])]

/-- `strtol` reads a printed number in front of other text as long as it fits a `long`. -/
theorem strtol_decimal_append {n : Nat} (h : n < 2 ^ 63) {rest : List UInt8}
    (hrest : ∀ b ∈ rest.head?, isDigit b = false) : strtol (decimal n ++ rest) = n := by
  have htake := takeWhile_decimal_append (n := n) hrest
  obtain ⟨d, ds, hd, hspace, hminus, hplus⟩ := decimal_eq_cons n
  have hdrop : (decimal n ++ rest).dropWhile isSpace = d :: (ds ++ rest) := by
    rw [hd, List.cons_append, List.dropWhile_cons_of_neg (by simp [hspace])]
  have hvalue : (value ((d :: (ds ++ rest)).takeWhile isDigit) : Int) = n := by
    rw [← List.cons_append, ← hd, htake, value_decimal]
  rw [strtol, hdrop]
  split
  · rename_i digits he
    exact absurd (List.cons.inj he).1 hminus
  · rename_i digits he
    exact absurd (List.cons.inj he).1 hplus
  · rw [hvalue]
    omega

/-- `atoi`, converted to an unsigned count, inverts printing below 2^31. -/
theorem atoi_decimal_append {n : Nat} (h : n < 2 ^ 31) {rest : List UInt8}
    (hrest : ∀ b ∈ rest.head?, isDigit b = false) :
    (atoi (decimal n ++ rest)).toUInt32 = UInt32.ofNat n := by
  rw [atoi, strtol_decimal_append (by omega) hrest]
  rfl

theorem atoi_decimal {n : Nat} (h : n < 2 ^ 31) : (atoi (decimal n)).toUInt32 = UInt32.ofNat n := by
  rw [← List.append_nil (decimal n)]
  exact atoi_decimal_append h (by simp)

theorem dropWhile_append_cons {p : UInt8 → Bool} {b : UInt8} (h : p b = false)
    (text rest : List UInt8) :
    (text ++ b :: rest).dropWhile p = text.dropWhile p ++ b :: rest := by
  rw [List.dropWhile_append, List.dropWhile_cons_of_neg (by simp [h])]
  split
  · rename_i hempty
    rw [List.isEmpty_iff.mp hempty, List.nil_append]
  · rfl

theorem takeWhile_append_cons {p : UInt8 → Bool} {b : UInt8} (h : p b = false)
    (text rest : List UInt8) : (text ++ b :: rest).takeWhile p = text.takeWhile p := by
  rw [List.takeWhile_append, List.takeWhile_cons_of_neg (by simp [h]), List.append_nil]
  split
  · rename_i hall
    exact ((List.takeWhile_prefix p).eq_of_length hall).symm
  · rfl

/-- `strtol` does not read past a byte that is neither white space nor sign nor digit. -/
theorem strtol_append_cons {b : UInt8} (hspace : isSpace b = false) (hdigit : isDigit b = false)
    (hminus : b ≠ 45) (hplus : b ≠ 43) (text rest : List UInt8) :
    strtol (text ++ b :: rest) = strtol text := by
  rw [strtol, strtol, dropWhile_append_cons hspace]
  cases text.dropWhile isSpace with
  | nil =>
    split
    · rename_i he
      exact absurd (List.cons.inj he).1 hminus
    · rename_i he
      exact absurd (List.cons.inj he).1 hplus
    · rw [takeWhile_append_cons hdigit]
  | cons d ds =>
    rw [List.cons_append]
    split
    · rename_i he
      obtain ⟨rfl, rfl⟩ := List.cons.inj he
      simp only [takeWhile_append_cons hdigit]
    · rename_i he
      obtain ⟨rfl, rfl⟩ := List.cons.inj he
      simp only [takeWhile_append_cons hdigit]
    · rename_i hneg hpos
      split
      · rename_i he
        exact absurd (congrArg (· ++ b :: rest) he) (hneg _)
      · rename_i he
        exact absurd (congrArg (· ++ b :: rest) he) (hpos _)
      · rw [← List.cons_append, takeWhile_append_cons hdigit]

/-- `strtol` reads a minus sign and a printed number as its negative. -/
theorem strtol_minus_decimal {n : Nat} (h : n ≤ 2 ^ 63) : strtol (45 :: decimal n) = -n := by
  have htake : (decimal n).takeWhile isDigit = decimal n :=
    List.takeWhile_eq_self_iff.mpr fun b => isDigit_of_mem_decimal
  have hdrop : (45 :: decimal n).dropWhile isSpace = 45 :: decimal n := rfl
  rw [strtol, hdrop]
  change max (-(value ((decimal n).takeWhile isDigit) : Int)) (-2 ^ 63) = -n
  rw [htake, value_decimal]
  omega

/-- `atoi`, converted to an unsigned count, reads a negative number as its
distance below 2^32. -/
theorem atoi_minus_decimal {n : Nat} (hpos : 0 < n) (h : n ≤ 2 ^ 31) :
    (atoi (45 :: decimal n)).toUInt32 = UInt32.ofNat (2 ^ 32 - n) := by
  rw [atoi, strtol_minus_decimal (by omega), ← UInt32.toNat_inj]
  calc
    (Int32.ofInt (-n)).toUInt32.toNat = (BitVec.ofInt 32 (-(n : Int))).toNat := rfl
    _ = ((-(n : Int)) % 2 ^ 32).toNat := BitVec.toNat_ofInt _
    _ = 2 ^ 32 - n := by omega
    _ = (UInt32.ofNat (2 ^ 32 - n)).toNat := by
      rw [UInt32.toNat_ofNat', Nat.mod_eq_of_lt (by omega)]

end Meguro
