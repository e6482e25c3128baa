import Meguro.ShadowKey.Codec

/-!
# The buffer of a shadow key

The buffer has room for the digits of the count as an unsigned number, and `%d`
prints it as a signed one. The two agree below 2^31. From there on the text is a
minus sign and the distance of the count to 2^32, and a distance of ten digits
loses its last one, so that up to eleven counts share a record key.
-/

namespace Meguro

open Decimal

/-! ## The length of the buffer -/

theorem suffixLen_le (count : UInt32) : suffixLen count ≤ 10 := by
  have hlt : count.toNat < 2 ^ 32 := count.toNat_lt
  unfold suffixLen
  split
  · exact Nat.log_lt_of_lt_pow' (by decide) (Nat.lt_of_lt_of_le hlt (by decide))
  · exact (by decide : 1 ≤ 10)

/-- `shadow_key_len`: the length of the key is kept in an `int`, the sum is
formed in `size_t` and kept in an `int` again. -/
def shadowKeyLen (key : CString) (count : UInt32) : Int32 :=
  let rootLen : Int32 := .ofNat key.bytes.length
  let suffixLen : Int32 := .ofNat (suffixLen count)
  (rootLen.toInt64.toUInt64 + UInt64.ofNat suffixSeparator.length + suffixLen.toInt64.toUInt64 +
    1).toUInt32.toInt32

/-- For a key that leaves an `int` room for the suffix, this is the length itself. -/
theorem toInt_shadowKeyLen {key : CString} (h : key.bytes.length + 13 < 2 ^ 31)
    (count : UInt32) : (shadowKeyLen key count).toInt =
      (key.bytes.length + suffixSeparator.length + suffixLen count + 1 : Nat) := by
  have hsuffix := suffixLen_le count
  have hmax : Int32.maxValue.toInt = 2 ^ 31 - 1 := rfl
  have hsep : suffixSeparator.length = 2 := rfl
  unfold shadowKeyLen
  dsimp only
  rw [Int32.toInt64_ofNat' (by omega), Int32.toInt64_ofNat' (by omega), Int64.toUInt64_ofNat',
    Int64.toUInt64_ofNat']
  change (UInt64.ofNat _ + UInt64.ofNat _ + UInt64.ofNat _ + UInt64.ofNat 1).toUInt32.toInt32.toInt
    = _
  rw [← UInt64.ofNat_add, ← UInt64.ofNat_add, ← UInt64.ofNat_add, UInt64.toUInt32_ofNat',
    UInt32.toInt32_ofNat', Int32.toInt_ofNat_of_lt (by omega)]

/-- In the buffer `generate_shadow_key` allocates, such a key becomes the bytes of its
shadow key. -/
theorem snprintf_shadowKeyLen {key : CString} (h : key.bytes.length + 13 < 2 ^ 31)
    {count : UInt32} (hne : count ≠ 0) :
    snprintf (shadowKeyLen key count).toInt.toNat
        (key.bytes ++ suffixSeparator ++ printInt count.toInt32) =
      (generateShadowKey key count).bytes := by
  rw [toInt_shadowKeyLen h, Int.toNat_natCast]
  change _ = shadowKeyBytes key count
  rw [shadowKeyBytes, if_neg hne]

/-- A shadow key is the key, the separator and the digits of the count, and the
room made for the digits is what the conversion prints. -/
structure FitsBuffer (key : CString) (count : UInt32) : Prop where
  text : (generateShadowKey key count).bytes =
    key.bytes ++ suffixSeparator ++ decimal count.toNat
  room : suffixLen count = (printInt count.toInt32).length

/-! ## Counts that print with a sign -/

/-- What the buffer keeps of the distance of a count to 2^32. -/
def keptDistance (count : UInt32) : Nat :=
  let distance := 2 ^ 32 - count.toNat
  if distance < 10 ^ 9 then distance else distance / 10

theorem keptDistance_bounds {count : UInt32} (h : 2 ^ 31 ≤ count.toNat) :
    0 < keptDistance count ∧ keptDistance count ≤ 2 ^ 31 := by
  have hlt : count.toNat < 2 ^ 32 := count.toNat_lt
  unfold keptDistance
  dsimp only
  split <;> omega

section Signed

variable {key : CString} {count : UInt32}

/-- A count from 2^31 on has ten digits. -/
theorem suffixLen_of_ge (h : 2 ^ 31 ≤ count.toNat) : suffixLen count = 10 := by
  have hlt : count.toNat < 2 ^ 32 := count.toNat_lt
  have hlog : Nat.log 10 count.toNat = 9 := by
    rw [Nat.log_eq_iff (by omega)]
    omega
  rw [suffixLen_eq (by rintro rfl; simp at h), length_decimal (by omega), hlog]

/-- The sign takes the place of one digit. -/
theorem take_printInt_of_ge (h : 2 ^ 31 ≤ count.toNat) :
    (printInt count.toInt32).take 10 = 45 :: decimal (keptDistance count) := by
  have hlt : count.toNat < 2 ^ 32 := count.toNat_lt
  unfold keptDistance
  dsimp only
  rw [printInt_of_ge h, List.take_succ_cons]
  generalize hd : 2 ^ 32 - count.toNat = distance
  have hlen := length_decimal (n := distance) (by omega)
  split
  · rename_i hsmall
    have hlog : Nat.log 10 distance < 9 := Nat.log_lt_of_lt_pow (by omega) hsmall
    rw [List.take_of_length_le (by omega)]
  · have hlog : Nat.log 10 distance = 9 := by
      rw [Nat.log_eq_iff (by omega)]
      omega
    rw [← dropLast_decimal (by omega), List.dropLast_eq_take, hlen, hlog]

/-- From 2^31 on a shadow key ends in a minus sign and what is kept of the distance. -/
theorem bytes_generateShadowKey_of_ge (h : 2 ^ 31 ≤ count.toNat) :
    (generateShadowKey key count).bytes =
      key.bytes ++ suffixSeparator ++ 45 :: decimal (keptDistance count) := by
  rw [bytes_of_ne_zero key (by rintro rfl; simp at h), suffixLen_of_ge h, take_printInt_of_ge h]

/-- The shadow keys of a key are the same exactly for the counts with one kept distance. -/
theorem generateShadowKey_eq_iff_of_ge {count' : UInt32} (h : 2 ^ 31 ≤ count.toNat)
    (h' : 2 ^ 31 ≤ count'.toNat) :
    generateShadowKey key count = generateShadowKey key count' ↔
      keptDistance count = keptDistance count' := by
  rw [← CString.bytes_injective.eq_iff, bytes_generateShadowKey_of_ge h,
    bytes_generateShadowKey_of_ge h', List.append_cancel_left_eq, List.cons_inj_right]
  exact decimal_injective.eq_iff

example : generateShadowKey (.ofLiteral "k") 2147483648 = .ofLiteral "k|m-214748364" := by decide

/-- A minus sign is no digit. -/
theorem not_fitsBuffer_of_ge (h : 2 ^ 31 ≤ count.toNat) : ¬ FitsBuffer key count := by
  intro hfits
  have htext := hfits.text
  rw [bytes_generateShadowKey_of_ge h, List.append_cancel_left_eq] at htext
  have hminus : (45 : UInt8) ∈ decimal count.toNat := htext ▸ List.mem_cons_self
  exact notMem_decimal rfl hminus

end Signed

/-- A shadow key fits its buffer exactly when its count prints without a sign. -/
theorem fitsBuffer_iff (key : CString) {count : UInt32} (hpos : 0 < count) :
    FitsBuffer key count ↔ count.toNat < 2 ^ 31 := by
  have hne : count ≠ 0 := fun he => UInt32.lt_irrefl 0 (he ▸ hpos)
  constructor
  · intro hfits
    by_contra hge
    exact not_fitsBuffer_of_ge (Nat.le_of_not_lt hge) hfits
  · intro hlt
    have hprint := printInt_of_lt hlt
    refine ⟨?_, ?_⟩
    · rw [bytes_of_ne_zero key hne, hprint, suffixLen_eq hne, List.take_length]
    · rw [hprint, suffixLen_eq hne]

/-- The first count that prints with a sign. -/
theorem not_fitsBuffer_twoTo31 :
    ¬ ∀ (key : CString) (count : UInt32), 0 < count → FitsBuffer key count := by
  intro h
  exact not_fitsBuffer_of_ge (by decide) (h (.ofLiteral "k") 2147483648 (by decide))

/-- The first count with ten digits. -/
theorem fitsBuffer_tenDigits :
    FitsBuffer (.ofLiteral "k") 1000000000 ↔ (1000000000 : UInt32).toNat < 2 ^ 31 :=
  fitsBuffer_iff _ (by decide)

end Meguro
