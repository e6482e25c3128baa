import Meguro.Script.Strings
import Mathlib.Algebra.BigOperators.Group.List.Basic
import Mathlib.Data.Nat.Bitwise

/-!
# Deflating strings

Exactly the strings in which every surrogate is one of a pair can be deflated, and
their bytes are the UTF-8 of their text. The first pass counts one byte too many
for every pair, so the second pass always has room.
-/

namespace Meguro

open CodePoint

/-! ## One code point -/

/-- Numbers of disjoint bits are joined by their sum. -/
theorem or_eq_add {a k x : Nat} (hx : x < 2 ^ k) : (a <<< k) ||| x = a * 2 ^ k + x := by
  rw [← Nat.shiftLeft_add_eq_or_of_lt hx, Nat.shiftLeft_eq]

theorem tailByte_eq (n : Nat) : (n &&& 0x3F) ||| 0x80 = 0x80 + n % 64 := by
  have hmask : n &&& 0x3F = n % 64 := Nat.and_two_pow_sub_one_eq_mod n 6
  have hor : (2 <<< 6) ||| (n % 64) = 2 * 2 ^ 6 + n % 64 := or_eq_add (Nat.mod_lt _ (by decide))
  rw [hmask, Nat.lor_comm]
  exact hor

theorem countShifts_of_lt {a : Nat} (fuel : Nat) (h : a < 32) :
    countShifts (fuel + 1) a = if a = 0 then 0 else 1 := by
  have hzero : a >>> 5 = 0 := by
    rw [Nat.shiftRight_eq_div_pow]
    omega
  unfold countShifts
  rw [hzero]
  cases fuel <;> rfl

theorem countShifts_of_le {a : Nat} (fuel : Nat) (h : 32 ≤ a) (hlt : a < 1024) :
    countShifts (fuel + 2) a = 2 := by
  have hnext : a >>> 5 < 32 ∧ a >>> 5 ≠ 0 := by
    rw [Nat.shiftRight_eq_div_pow]
    omega
  unfold countShifts
  rw [if_neg (by omega), countShifts_of_lt fuel hnext.1, if_neg hnext.2]

/-- The number of bytes behind the first one. -/
theorem countShifts_shiftRight {v : Nat} (hv : IsCodePoint v) :
    countShifts 7 (v >>> 11) = if v < 0x800 then 0 else if v < 0x10000 then 1 else 2 := by
  unfold IsCodePoint at hv
  have hshift : v >>> 11 = v / 2048 := Nat.shiftRight_eq_div_pow v 11
  rw [hshift]
  split_ifs with h₁ h₂
  · rw [countShifts_of_lt 6 (by omega), if_pos (by omega)]
  · rw [countShifts_of_lt 6 (by omega), if_neg (by omega)]
  · exact countShifts_of_le 5 (by omega) (by omega)

/-- The engine's bytes of a code point. -/
theorem oneUcs4ToUtf8Char_eq {v : Nat} (hv : IsCodePoint v) : oneUcs4ToUtf8Char v = utf8 v := by
  unfold oneUcs4ToUtf8Char utf8
  dsimp only
  rw [countShifts_shiftRight hv]
  unfold IsCodePoint at hv
  split_ifs
  · rfl
  all_goals
    simp only [fillTail, tailByte_eq, Nat.shiftRight_eq_div_pow, Nat.div_div_eq_div_mul]
    rfl

theorem length_utf8 (v : Nat) : (utf8 v).length =
    if v < 0x80 then 1 else if v < 0x800 then 2 else if v < 0x10000 then 3 else 4 := by
  unfold utf8
  split_ifs <;> rfl

/-! ## The units of a code point -/

theorem utf16_of_lt {v : Nat} (h : v < 0x10000) : utf16 v = [UInt16.ofNat v] := if_pos h

/-- A pair of surrogates is the units of its number. -/
theorem utf16_fromSurrogates {c c2 : UInt16} (hc : 0xD800 ≤ c ∧ c ≤ 0xDBFF)
    (hc2 : 0xDC00 ≤ c2 ∧ c2 ≤ 0xDFFF) :
    IsScalar (fromSurrogates c c2) ∧ 0x10000 ≤ fromSurrogates c c2 ∧
      utf16 (fromSurrogates c c2) = [c, c2] := by
  simp only [UInt16.le_iff_toNat_le, UInt16.reduceToNat] at hc hc2
  have hnumber : fromSurrogates c c2 = (c.toNat - 0xD800) * 1024 + (c2.toNat - 0xDC00) + 0x10000 := by
    unfold fromSurrogates
    rw [Nat.shiftLeft_eq]
  refine ⟨?_, by omega, ?_⟩
  · unfold IsScalar IsCodePoint IsSurrogate
    omega
  · have hhigh : 0xD800 + (fromSurrogates c c2 - 0x10000) / 1024 = c.toNat := by omega
    have hlow : 0xDC00 + (fromSurrogates c c2 - 0x10000) % 1024 = c2.toNat := by omega
    unfold utf16
    rw [if_neg (by omega), hhigh, hlow, UInt16.ofNat_toNat, UInt16.ofNat_toNat]

/-- A code point beyond the units is a pair of surrogates. -/
theorem exists_surrogates {v : Nat} (hv : IsCodePoint v) (h : 0x10000 ≤ v) :
    ∃ c c2 : UInt16, (0xD800 ≤ c ∧ c ≤ 0xDBFF) ∧ (0xDC00 ≤ c2 ∧ c2 ≤ 0xDFFF) ∧
      fromSurrogates c c2 = v ∧ utf16 v = [c, c2] := by
  unfold IsCodePoint at hv
  refine ⟨UInt16.ofNat (0xD800 + (v - 0x10000) / 1024), UInt16.ofNat (0xDC00 + (v - 0x10000) % 1024),
    ?_, ?_, ?_, if_neg (by omega)⟩
  · simp only [UInt16.le_iff_toNat_le, UInt16.reduceToNat, UInt16.toNat_ofNat']
    omega
  · simp only [UInt16.le_iff_toNat_le, UInt16.reduceToNat, UInt16.toNat_ofNat']
    omega
  · unfold fromSurrogates
    rw [Nat.shiftLeft_eq]
    simp only [UInt16.toNat_ofNat']
    omega

/-- A string begins with the units of a character, or with a surrogate that is not
the first of a pair. -/
theorem units_cases (c : UInt16) (chars : List UInt16) :
    (∃ v rest, IsScalar v ∧ c :: chars = utf16 v ++ rest) ∨
      (0xD800 ≤ c ∧ c ≤ 0xDFFF) ∧ ∀ c2 rest, c ≤ 0xDBFF → chars = c2 :: rest →
        ¬ (0xDC00 ≤ c2 ∧ c2 ≤ 0xDFFF) := by
  by_cases hsurrogate : 0xD800 ≤ c ∧ c ≤ 0xDFFF
  · by_cases hpair : ∃ c2 rest, c ≤ 0xDBFF ∧ chars = c2 :: rest ∧ 0xDC00 ≤ c2 ∧ c2 ≤ 0xDFFF
    · obtain ⟨c2, rest, hfirst, rfl, hsecond⟩ := hpair
      obtain ⟨hscalar, -, hunits⟩ := utf16_fromSurrogates ⟨hsurrogate.1, hfirst⟩ hsecond
      exact .inl ⟨_, rest, hscalar, by rw [hunits]; rfl⟩
    · exact .inr ⟨hsurrogate, fun c2 rest hfirst hchars hsecond =>
        hpair ⟨c2, rest, hfirst, hchars, hsecond⟩⟩
  · refine .inl ⟨c.toNat, chars, ?_, ?_⟩
    · have hlt : c.toNat < 65536 := c.toNat_lt
      simp only [UInt16.le_iff_toNat_le, UInt16.reduceToNat] at hsurrogate
      unfold IsScalar IsCodePoint IsSurrogate
      omega
    · rw [utf16_of_lt c.toNat_lt, UInt16.ofNat_toNat]
      rfl

/-! ## The passes -/

/-- What the first pass counts for a character. -/
def measured (v : Nat) : Nat := (utf8 v).length + if 0x10000 ≤ v then 1 else 0

theorem measured_of_lt {v : Nat} (h₁ : 0x80 ≤ v) (h₂ : v < 0x10000) :
    measured v = 1 + extraLength v := by
  have hcode : IsCodePoint v := Nat.lt_trans h₂ (by decide)
  unfold measured extraLength
  rw [countShifts_shiftRight hcode, length_utf8]
  split_ifs <;> omega

theorem measured_of_le {v : Nat} (hcode : IsCodePoint v) (h : 0x10000 ≤ v) :
    measured v = 2 + extraLength v := by
  unfold measured extraLength
  rw [countShifts_shiftRight hcode, length_utf8]
  split_ifs <;> omega

/-- The conditions the passes test, for the units of a pair. -/
theorem pair_tests {c c2 : UInt16} (hc : 0xD800 ≤ c ∧ c ≤ 0xDBFF)
    (hc2 : 0xDC00 ≤ c2 ∧ c2 ≤ 0xDFFF) : ¬ c < 0x80 ∧ c ≤ 0xDFFF ∧ ¬ 0xDC00 ≤ c ∧
      ¬ (c < 0xD800 ∨ c > 0xDBFF) ∧ ¬ (c2 < 0xDC00 ∨ c2 > 0xDFFF) := by
  simp only [UInt16.lt_iff_toNat_lt, UInt16.le_iff_toNat_le, UInt16.reduceToNat, gt_iff_lt]
    at hc hc2 ⊢
  omega

/-- The conditions the passes test, for the unit of a character. -/
theorem unit_tests {v : Nat} (hv : IsScalar v) (h : v < 0x10000) :
    (UInt16.ofNat v).toNat = v ∧ (UInt16.ofNat v < 0x80 ↔ v < 0x80) ∧
      ¬ (0xD800 ≤ UInt16.ofNat v ∧ UInt16.ofNat v ≤ 0xDFFF) ∧
      ¬ (0xDC00 ≤ UInt16.ofNat v ∧ UInt16.ofNat v ≤ 0xDFFF) ∧
      (UInt16.ofNat v < 0xD800 ∨ UInt16.ofNat v > 0xDBFF) := by
  have hnat : (UInt16.ofNat v).toNat = v := by
    rw [UInt16.toNat_ofNat', Nat.mod_eq_of_lt h]
  unfold IsScalar IsSurrogate at hv
  simp only [UInt16.lt_iff_toNat_lt, UInt16.le_iff_toNat_le, UInt16.reduceToNat, gt_iff_lt]
  rw [hnat]
  have hscalar := hv.2
  refine ⟨rfl, Iff.rfl, ?_, ?_, ?_⟩ <;> omega

/-- The first pass moves past the units of a character. -/
theorem getDeflatedStringLength_utf16 {v : Nat} (hv : IsScalar v) (rest : List UInt16) :
    getDeflatedStringLength (utf16 v ++ rest) =
      (getDeflatedStringLength rest).map (measured v + ·) := by
  by_cases hlarge : 0x10000 ≤ v
  · obtain ⟨c, c2, hc, hc2, hnumber, hunits⟩ := exists_surrogates hv.1 hlarge
    obtain ⟨h₁, h₂, h₃, -, h₅⟩ := pair_tests hc hc2
    rw [hunits, measured_of_le hv.1 hlarge]
    simp only [List.cons_append, List.nil_append, getDeflatedStringLength]
    rw [if_neg h₁, if_pos ⟨hc.1, h₂⟩, if_neg h₃, if_neg h₅, hnumber]
  · have hlt := Nat.lt_of_not_le hlarge
    obtain ⟨hnat, h₁, h₂, -, -⟩ := unit_tests hv hlt
    rw [utf16_of_lt hlt, List.singleton_append]
    conv_lhs => unfold getDeflatedStringLength
    by_cases hascii : v < 0x80
    · have hone : measured v = 1 := by
        unfold measured
        rw [length_utf8, if_pos hascii, if_neg hlarge]
      rw [if_pos (h₁.mpr hascii), hone]
    · rw [if_neg fun h => hascii (h₁.mp h), if_neg h₂, hnat,
        measured_of_lt (Nat.le_of_not_lt hascii) hlt]

/-- The second pass writes the bytes of a character, if there is room for them. -/
theorem deflateStringToBuffer_utf16 {v : Nat} (hv : IsScalar v) (rest : List UInt16)
    {room : Nat} (hroom : (utf8 v).length ≤ room) :
    deflateStringToBuffer room (utf16 v ++ rest) =
      (deflateStringToBuffer (room - (utf8 v).length) rest).map (utf8 v ++ ·) := by
  have hfits : ¬ (utf8 v).length > room := Nat.not_lt_of_le hroom
  by_cases hlarge : 0x10000 ≤ v
  · obtain ⟨c, c2, hc, hc2, hnumber, hunits⟩ := exists_surrogates hv.1 hlarge
    obtain ⟨-, -, h₃, h₄, h₅⟩ := pair_tests hc hc2
    rw [hunits]
    simp only [List.cons_append, List.nil_append, deflateStringToBuffer]
    rw [if_neg fun h => h₃ h.1, if_neg h₄, if_neg h₅, hnumber, oneUcs4ToUtf8Char_eq hv.1,
      if_neg hfits]
  · have hlt := Nat.lt_of_not_le hlarge
    obtain ⟨hnat, -, -, h₃, h₄⟩ := unit_tests hv hlt
    rw [utf16_of_lt hlt, List.singleton_append]
    conv_lhs => unfold deflateStringToBuffer
    rw [if_neg h₃, if_pos h₄, hnat, oneUcs4ToUtf8Char_eq hv.1, if_neg hfits]

/-- The first pass stops at a surrogate that is not the first of a pair. -/
theorem getDeflatedStringLength_bad {c : UInt16} {chars : List UInt16}
    (hsurrogate : 0xD800 ≤ c ∧ c ≤ 0xDFFF)
    (hopen : ∀ c2 rest, c ≤ 0xDBFF → chars = c2 :: rest → ¬ (0xDC00 ≤ c2 ∧ c2 ≤ 0xDFFF)) :
    getDeflatedStringLength (c :: chars) = none := by
  have hlarge : ¬ c < 0x80 := by
    simp only [UInt16.lt_iff_toNat_lt, UInt16.le_iff_toNat_le, UInt16.reduceToNat]
      at hsurrogate ⊢
    omega
  unfold getDeflatedStringLength
  rw [if_neg hlarge, if_pos hsurrogate]
  cases chars with
  | nil => rfl
  | cons c2 rest =>
    dsimp only
    by_cases hsecond : c ≥ 0xDC00
    · rw [if_pos hsecond]
    · have hfirst : c ≤ 0xDBFF := by
        simp only [UInt16.le_iff_toNat_le, UInt16.reduceToNat, ge_iff_le] at hsecond ⊢
        omega
      have hbad := hopen c2 rest hfirst rfl
      rw [if_neg hsecond, if_pos]
      simp only [UInt16.lt_iff_toNat_lt, UInt16.le_iff_toNat_le, UInt16.reduceToNat, gt_iff_lt]
        at hbad ⊢
      omega

/-! ## Strings -/

/-- The first pass succeeds on texts only, and counts a byte more for every pair. -/
theorem exists_text_of_measured {chars : List UInt16} {nbytes : Nat}
    (h : getDeflatedStringLength chars = some nbytes) :
    ∃ vs : List Nat, (∀ v ∈ vs, IsScalar v) ∧ chars = vs.flatMap utf16 ∧
      nbytes = (vs.map measured).sum := by
  induction hlen : chars.length using Nat.strongRecOn generalizing chars nbytes with
  | ind n ih =>
    cases chars with
    | nil =>
      cases h
      exact ⟨[], by simp, rfl, rfl⟩
    | cons c chars =>
      rcases units_cases c chars with ⟨v, rest, hv, hunits⟩ | ⟨hsurrogate, hopen⟩
      · have hshorter : rest.length < n := by
          have hlength := congrArg List.length hunits
          rw [List.length_append, hlen] at hlength
          have hpos : 0 < (utf16 v).length := by
            unfold utf16
            split_ifs <;> simp
          omega
        rw [hunits, getDeflatedStringLength_utf16 hv] at h
        obtain ⟨more, hmore, rfl⟩ := Option.map_eq_some_iff.mp h
        obtain ⟨vs, hvs, rfl, rfl⟩ := ih rest.length hshorter hmore rfl
        exact ⟨v :: vs, List.forall_mem_cons.mpr ⟨hv, hvs⟩, hunits, by simp⟩
      · rw [getDeflatedStringLength_bad hsurrogate hopen] at h
        cases h

theorem getDeflatedStringLength_text {vs : List Nat} (hvs : ∀ v ∈ vs, IsScalar v) :
    getDeflatedStringLength (vs.flatMap utf16) = some (vs.map measured).sum := by
  induction vs with
  | nil => rfl
  | cons v vs ih =>
    obtain ⟨hv, hrest⟩ := List.forall_mem_cons.mp hvs
    rw [List.flatMap_cons, getDeflatedStringLength_utf16 hv, ih hrest]
    simp

theorem deflateStringToBuffer_text {vs : List Nat} (hvs : ∀ v ∈ vs, IsScalar v) {room : Nat}
    (hroom : (vs.flatMap utf8).length ≤ room) :
    deflateStringToBuffer room (vs.flatMap utf16) = .ok (vs.flatMap utf8) := by
  induction vs generalizing room with
  | nil => rfl
  | cons v vs ih =>
    obtain ⟨hv, hrest⟩ := List.forall_mem_cons.mp hvs
    rw [List.flatMap_cons, List.length_append] at hroom
    rw [List.flatMap_cons, deflateStringToBuffer_utf16 hv _ (by omega), ih hrest (by omega)]
    rfl

theorem length_le_sum_measured (vs : List Nat) :
    (vs.flatMap utf8).length ≤ (vs.map measured).sum := by
  induction vs with
  | nil => exact Nat.le_refl 0
  | cons v vs ih =>
    rw [List.flatMap_cons, List.length_append, List.map_cons, List.sum_cons]
    exact Nat.add_le_add (Nat.le_add_right ..) ih

/-- The deflated bytes of a text, by its code points. -/
theorem deflateString_text {vs : List Nat} (hvs : ∀ v ∈ vs, IsScalar v) :
    deflateString (vs.flatMap utf16) = some (vs.flatMap utf8) := by
  unfold deflateString
  rw [getDeflatedStringLength_text hvs]
  dsimp only
  rw [deflateStringToBuffer_text hvs (length_le_sum_measured vs)]
  rfl

theorem deflateString_utf16Encode (cs : List Char) :
    deflateString (utf16Encode cs) = some (utf8Encode cs) := by
  rw [← flatMap_utf16_toNat, ← flatMap_utf8_toNat]
  exact deflateString_text fun v => isScalar_of_mem_map

/-- What is deflated is a text. -/
theorem exists_text_of_deflateString {chars : List UInt16} {bytes : List UInt8}
    (h : deflateString chars = some bytes) :
    ∃ cs : List Char, chars = utf16Encode cs ∧ bytes = utf8Encode cs := by
  obtain ⟨nbytes, hmeasured⟩ : ∃ nbytes, getDeflatedStringLength chars = some nbytes := by
    unfold deflateString at h
    cases hlength : getDeflatedStringLength chars with
    | none => rw [hlength] at h; cases h
    | some nbytes => exact ⟨nbytes, rfl⟩
  obtain ⟨vs, hvs, rfl, -⟩ := exists_text_of_measured hmeasured
  rw [deflateString_text hvs] at h
  obtain ⟨cs, rfl⟩ := exists_chars hvs
  exact ⟨cs, flatMap_utf16_toNat cs, (Option.some.inj h).symm.trans (flatMap_utf8_toNat cs)⟩

/-- A string can be deflated exactly if it is the UTF-16 of a text, and gives the
UTF-8 of this text. -/
theorem deflateString_iff (chars : List UInt16) (bytes : List UInt8) :
    deflateString chars = some bytes ↔
      ∃ cs : List Char, chars = utf16Encode cs ∧ bytes = utf8Encode cs := by
  constructor
  · exact exists_text_of_deflateString
  · rintro ⟨cs, rfl, rfl⟩
    exact deflateString_utf16Encode cs

/-- The first pass accepts the same strings, and counts one byte more for every
character beyond the first plane. -/
theorem getDeflatedStringLength_iff (chars : List UInt16) (nbytes : Nat) :
    getDeflatedStringLength chars = some nbytes ↔
      ∃ cs : List Char, chars = utf16Encode cs ∧
        nbytes = (utf8Encode cs).length + cs.countP fun c => 0x10000 ≤ c.toNat := by
  have hsum : ∀ cs : List Char, ((cs.map Char.toNat).map measured).sum =
      (utf8Encode cs).length + cs.countP fun c => 0x10000 ≤ c.toNat := by
    intro cs
    rw [← flatMap_utf8_toNat]
    induction cs with
    | nil => rfl
    | cons c cs ih =>
      rw [List.map_cons, List.map_cons, List.sum_cons, ih, List.flatMap_cons,
        List.length_append, List.countP_cons]
      unfold measured
      simp only [decide_eq_true_eq]
      omega
  constructor
  · intro h
    obtain ⟨vs, hvs, rfl, rfl⟩ := exists_text_of_measured h
    obtain ⟨cs, rfl⟩ := exists_chars hvs
    exact ⟨cs, flatMap_utf16_toNat cs, hsum cs⟩
  · rintro ⟨cs, rfl, rfl⟩
    rw [← flatMap_utf16_toNat, getDeflatedStringLength_text fun v => isScalar_of_mem_map, hsum]

end Meguro
