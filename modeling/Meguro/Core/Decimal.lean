import Mathlib.Data.Nat.Digits.Lemmas
import Mathlib.Data.Nat.Log

/-!
# Decimal text

The decimal digits of a natural number as ASCII bytes, most significant first,
and the value of a list of digit bytes. Reading the value undoes printing, and
the number of digits is one more than the integer logarithm to base ten.
-/

namespace Decimal

/-- The ASCII byte of a digit. -/
def digitByte (d : Nat) : UInt8 := UInt8.ofNat (48 + d)

/-- The bytes `0` to `9`. -/
def isDigit (b : UInt8) : Bool := 48 ≤ b && b ≤ 57

/-- The decimal text of a natural number. -/
def decimal (n : Nat) : List UInt8 :=
  if n = 0 then [48] else (Nat.digits 10 n).reverse.map digitByte

/-- The number written by a list of digit bytes. -/
def value (bs : List UInt8) : Nat := bs.foldl (fun acc b => acc * 10 + (b.toNat - 48)) 0

theorem toNat_digitByte {d : Nat} (h : d < 10) : (digitByte d).toNat = 48 + d := by
  rw [digitByte, UInt8.toNat_ofNat']
  omega

theorem isDigit_iff {b : UInt8} : isDigit b = true ↔ 48 ≤ b.toNat ∧ b.toNat ≤ 57 := by
  simp [isDigit, UInt8.le_iff_toNat_le]

/-- Everything printed is a digit. -/
theorem isDigit_of_mem_decimal {n : Nat} {b : UInt8} (h : b ∈ decimal n) : isDigit b = true := by
  by_cases hn : n = 0
  · obtain rfl : b = 48 := by simpa [decimal, hn] using h
    rfl
  · obtain ⟨d, hd, rfl⟩ : ∃ d ∈ Nat.digits 10 n, digitByte d = b := by simpa [decimal, hn] using h
    have hlt := Nat.digits_lt_base (by decide) hd
    rw [isDigit_iff, toNat_digitByte hlt]
    omega

theorem notMem_decimal {n : Nat} {b : UInt8} (h : isDigit b = false) : b ∉ decimal n := by
  intro hb
  rw [isDigit_of_mem_decimal hb] at h
  exact Bool.noConfusion h

theorem decimal_ne_nil (n : Nat) : decimal n ≠ [] := by
  by_cases hn : n = 0 <;> simp [decimal, hn, Nat.digits_ne_nil_iff_ne_zero]

/-- One digit more than the integer logarithm. -/
theorem length_decimal {n : Nat} (h : n ≠ 0) : (decimal n).length = Nat.log 10 n + 1 := by
  simp [decimal, h, Nat.length_digits 10 n (by decide) h]

/-- Dividing by ten drops the last digit. -/
theorem dropLast_decimal {n : Nat} (h : 10 ≤ n) : (decimal n).dropLast = decimal (n / 10) := by
  have hdigits : Nat.digits 10 n = n % 10 :: Nat.digits 10 (n / 10) :=
    Nat.digits_def' (by decide) (by omega)
  rw [decimal, if_neg (by omega), decimal, if_neg (by omega), hdigits, List.reverse_cons,
    List.map_append, List.map_singleton, List.dropLast_concat]

private theorem foldr_digitByte (ds : List Nat) (h : ∀ d ∈ ds, d < 10) :
    ds.foldr (fun d acc => acc * 10 + ((digitByte d).toNat - 48)) 0 = Nat.ofDigits 10 ds := by
  induction ds with
  | nil => rfl
  | cons d ds ih =>
    have hd := toNat_digitByte (h d (by simp))
    rw [List.foldr_cons, ih fun e he => h e (List.mem_cons_of_mem _ he), Nat.ofDigits_cons, hd]
    omega

/-- Reading the printed digits gives the number back. -/
theorem value_decimal (n : Nat) : value (decimal n) = n := by
  by_cases hn : n = 0
  · subst n
    rfl
  · rw [decimal, if_neg hn, value, List.foldl_map, List.foldl_reverse]
    rw [foldr_digitByte _ fun d hd => Nat.digits_lt_base (by decide) hd, Nat.ofDigits_digits]

theorem decimal_injective : Function.Injective decimal := by
  intro n m h
  rw [← value_decimal n, h, value_decimal]

end Decimal
