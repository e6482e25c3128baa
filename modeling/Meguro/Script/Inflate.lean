import Meguro.Core.Bits
import Meguro.Script.Deflate

/-!
# Inflating strings

The engine takes the bytes of code points, each in its shortest form. It lets the
bytes of surrogates pass, which are not UTF-8, and replaces the two noncharacters
at the end of the first plane. So inflating bytes and deflating the units gives the
bytes back exactly when they are UTF-8 without these two.
-/

namespace Meguro

open CodePoint

/-! ## Bytes -/

/-- The test for a byte that stands alone. -/
theorem alone_test (b : UInt8) : b.toNat &&& 0x80 = 0 ↔ b.toNat < 0x80 :=
  Bits.forall_byte (P := fun b => b.toNat &&& 0x80 = 0 ↔ b.toNat < 0x80) (by decide +kernel) b

/-- The length of a sequence, by the range of its first byte. -/
theorem sequenceLength_iff (b : UInt8) : 0x80 ≤ b.toNat → 1 ≤ sequenceLength b ∧
    (sequenceLength b = 2 ↔ 0xC0 ≤ b.toNat ∧ b.toNat < 0xE0) ∧
    (sequenceLength b = 3 ↔ 0xE0 ≤ b.toNat ∧ b.toNat < 0xF0) ∧
    (sequenceLength b = 4 ↔ 0xF0 ≤ b.toNat ∧ b.toNat < 0xF8) :=
  Bits.forall_byte (P := fun b => 0x80 ≤ b.toNat → 1 ≤ sequenceLength b ∧
    (sequenceLength b = 2 ↔ 0xC0 ≤ b.toNat ∧ b.toNat < 0xE0) ∧
    (sequenceLength b = 3 ↔ 0xE0 ≤ b.toNat ∧ b.toNat < 0xF0) ∧
    (sequenceLength b = 4 ↔ 0xF0 ≤ b.toNat ∧ b.toNat < 0xF8)) (by decide +kernel) b

/-- A byte behind the first one. -/
def IsTail (b : UInt8) : Prop := 0x80 ≤ b.toNat ∧ b.toNat < 0xC0

instance (b : UInt8) : Decidable (IsTail b) := inferInstanceAs (Decidable (_ ∧ _))

theorem tail_test (b : UInt8) : (b &&& 0xC0 != 0x80) = false ↔ IsTail b :=
  Bits.forall_byte (P := fun b => (b &&& 0xC0 != 0x80) = false ↔ IsTail b) (by decide +kernel) b

theorem any_tail_test (bytes : List UInt8) :
    bytes.any (fun byte => byte &&& 0xC0 != 0x80) = false ↔ ∀ b ∈ bytes, IsTail b := by
  rw [List.any_eq_false]
  simp only [← tail_test, Bool.not_eq_true]

/-! ## One sequence -/

/-- Two noncharacters have a stand-in. -/
def standIn (v : Nat) : Nat := if v = 0xFFFE ∨ v = 0xFFFF then 0xFFFD else v

theorem shift_or (n : Nat) (b : UInt8) : (n <<< 6) ||| (b.toNat &&& 0x3F) =
    n * 64 + b.toNat % 64 := by
  have hmask : b.toNat &&& 0x3F = b.toNat % 64 := Nat.and_two_pow_sub_one_eq_mod _ 6
  rw [hmask]
  exact or_eq_add (Nat.mod_lt _ (by decide))

/-- The number of a sequence of two bytes. -/
theorem utf8ToOneUcs4Char_two (a b : UInt8) : utf8ToOneUcs4Char a [b] =
    let v := a.toNat % 32 * 64 + b.toNat % 64
    if v < 0x80 then overlongUtf8 else standIn v := by
  have hmask : a.toNat &&& ((1 <<< 5) - 1) = a.toNat % 32 := Nat.and_two_pow_sub_one_eq_mod _ 5
  unfold utf8ToOneUcs4Char standIn
  simp only [List.foldl_cons, List.foldl_nil, List.length_cons, List.length_nil, shift_or]
  rw [hmask]
  rfl

theorem utf8ToOneUcs4Char_three (a b c : UInt8) : utf8ToOneUcs4Char a [b, c] =
    let v := (a.toNat % 16 * 64 + b.toNat % 64) * 64 + c.toNat % 64
    if v < 0x800 then overlongUtf8 else standIn v := by
  have hmask : a.toNat &&& ((1 <<< 4) - 1) = a.toNat % 16 := Nat.and_two_pow_sub_one_eq_mod _ 4
  unfold utf8ToOneUcs4Char standIn
  simp only [List.foldl_cons, List.foldl_nil, List.length_cons, List.length_nil, shift_or]
  rw [hmask]
  rfl

theorem utf8ToOneUcs4Char_four (a b c d : UInt8) : utf8ToOneUcs4Char a [b, c, d] =
    let v := ((a.toNat % 8 * 64 + b.toNat % 64) * 64 + c.toNat % 64) * 64 + d.toNat % 64
    if v < 0x10000 then overlongUtf8 else standIn v := by
  have hmask : a.toNat &&& ((1 <<< 3) - 1) = a.toNat % 8 := Nat.and_two_pow_sub_one_eq_mod _ 3
  unfold utf8ToOneUcs4Char standIn
  simp only [List.foldl_cons, List.foldl_nil, List.length_cons, List.length_nil, shift_or]
  rw [hmask]
  rfl

/-- The first byte of a sequence with so many bytes behind it. -/
def IsFirst (first : UInt8) (behind : Nat) : Prop :=
  (behind = 1 ∧ 0xC0 ≤ first.toNat ∧ first.toNat < 0xE0) ∨
    (behind = 2 ∧ 0xE0 ≤ first.toNat ∧ first.toNat < 0xF0) ∨
    (behind = 3 ∧ 0xF0 ≤ first.toNat ∧ first.toNat < 0xF8)

/-- A byte is the byte of its number. -/
theorem ofNat_eq {n : Nat} {b : UInt8} (h : n = b.toNat) : UInt8.ofNat n = b := by
  rw [h, UInt8.ofNat_toNat]

/-- The number of a well-formed sequence: it is overlong, or the sequence is the
bytes of a number. -/
theorem sequence_cases {first : UInt8} {rest : List UInt8} (hfirst : IsFirst first rest.length)
    (htail : ∀ b ∈ rest, IsTail b) : utf8ToOneUcs4Char first rest = overlongUtf8 ∨
      ∃ v, 0x80 ≤ v ∧ utf8 v = first :: rest ∧ utf8ToOneUcs4Char first rest = standIn v := by
  unfold IsTail at htail
  rcases hfirst with ⟨hlen, hlow, hhigh⟩ | ⟨hlen, hlow, hhigh⟩ | ⟨hlen, hlow, hhigh⟩
  · obtain ⟨b, rfl⟩ := List.length_eq_one_iff.mp hlen
    have hb := htail b (by simp)
    rw [utf8ToOneUcs4Char_two]
    generalize hv : first.toNat % 32 * 64 + b.toNat % 64 = v
    by_cases hover : v < 0x80
    · exact .inl (if_pos hover)
    · refine .inr ⟨v, Nat.le_of_not_lt hover, ?_, if_neg hover⟩
      unfold utf8
      rw [if_neg hover, if_pos (by omega)]
      rw [ofNat_eq (b := first) (by omega), ofNat_eq (b := b) (by omega)]
  · obtain ⟨b, c, rfl⟩ := List.length_eq_two.mp hlen
    have hb := htail b (by simp)
    have hc := htail c (by simp)
    rw [utf8ToOneUcs4Char_three]
    generalize hv : (first.toNat % 16 * 64 + b.toNat % 64) * 64 + c.toNat % 64 = v
    by_cases hover : v < 0x800
    · exact .inl (if_pos hover)
    · refine .inr ⟨v, by omega, ?_, if_neg hover⟩
      unfold utf8
      rw [if_neg (by omega), if_neg hover, if_pos (by omega), ofNat_eq (b := first) (by omega),
        ofNat_eq (b := b) (by omega), ofNat_eq (b := c) (by omega)]
  · obtain ⟨b, c, d, rfl⟩ := List.length_eq_three.mp hlen
    have hb := htail b (by simp)
    have hc := htail c (by simp)
    have hd := htail d (by simp)
    rw [utf8ToOneUcs4Char_four]
    generalize hv : ((first.toNat % 8 * 64 + b.toNat % 64) * 64 + c.toNat % 64) * 64 +
      d.toNat % 64 = v
    by_cases hover : v < 0x10000
    · exact .inl (if_pos hover)
    · refine .inr ⟨v, by omega, ?_, if_neg hover⟩
      unfold utf8
      rw [if_neg (by omega), if_neg (by omega), if_neg hover, ofNat_eq (b := first) (by omega),
        ofNat_eq (b := b) (by omega), ofNat_eq (b := c) (by omega), ofNat_eq (b := d) (by omega)]

theorem isTail_ofNat (n : Nat) : IsTail (UInt8.ofNat (0x80 + n % 64)) := by
  unfold IsTail
  rw [UInt8.toNat_ofNat']
  omega

/-- The bytes of a code point form a sequence, which has its number. -/
theorem exists_sequence {v : Nat} (hv : IsCodePoint v) (h : 0x80 ≤ v) :
    ∃ first rest, utf8 v = first :: rest ∧ IsFirst first rest.length ∧
      (∀ b ∈ rest, IsTail b) ∧ utf8ToOneUcs4Char first rest = standIn v := by
  unfold IsCodePoint at hv
  by_cases htwo : v < 0x800
  · have hbytes : utf8 v = [UInt8.ofNat (0xC0 + v / 64), UInt8.ofNat (0x80 + v % 64)] := by
      unfold utf8
      rw [if_neg (by omega), if_pos htwo]
    refine ⟨_, _, hbytes, .inl ⟨rfl, ?_⟩, ?_, ?_⟩
    · rw [UInt8.toNat_ofNat']
      omega
    · simp only [List.forall_mem_cons, isTail_ofNat, true_and, List.not_mem_nil, false_imp_iff,
        implies_true]
    · rw [utf8ToOneUcs4Char_two]
      simp only [UInt8.toNat_ofNat']
      rw [if_neg (by omega)]
      exact congrArg standIn (by omega)
  by_cases hthree : v < 0x10000
  · have hbytes : utf8 v = [UInt8.ofNat (0xE0 + v / 4096), UInt8.ofNat (0x80 + v / 64 % 64),
        UInt8.ofNat (0x80 + v % 64)] := by
      unfold utf8
      rw [if_neg (by omega), if_neg htwo, if_pos hthree]
    refine ⟨_, _, hbytes, .inr (.inl ⟨rfl, ?_⟩), ?_, ?_⟩
    · rw [UInt8.toNat_ofNat']
      omega
    · simp only [List.forall_mem_cons, isTail_ofNat, true_and, List.not_mem_nil, false_imp_iff,
        implies_true]
    · rw [utf8ToOneUcs4Char_three]
      simp only [UInt8.toNat_ofNat']
      rw [if_neg (by omega)]
      exact congrArg standIn (by omega)
  · have hbytes : utf8 v = [UInt8.ofNat (0xF0 + v / 262144), UInt8.ofNat (0x80 + v / 4096 % 64),
        UInt8.ofNat (0x80 + v / 64 % 64), UInt8.ofNat (0x80 + v % 64)] := by
      unfold utf8
      rw [if_neg (by omega), if_neg htwo, if_neg hthree]
    refine ⟨_, _, hbytes, .inr (.inr ⟨rfl, ?_⟩), ?_, ?_⟩
    · rw [UInt8.toNat_ofNat']
      omega
    · simp only [List.forall_mem_cons, isTail_ofNat, true_and, List.not_mem_nil, false_imp_iff,
        implies_true]
    · rw [utf8ToOneUcs4Char_four]
      simp only [UInt8.toNat_ofNat']
      rw [if_neg (by omega)]
      exact congrArg standIn (by omega)

/-! ## The loop -/

/-- What the engine makes of a code point. -/
def inflated (v : Nat) : List UInt16 := utf16 (standIn v)

/-- The units of a number beyond the first plane, as the loop writes them. -/
theorem utf16_of_ge {v : Nat} (h : 0x10000 ≤ v) :
    utf16 v = [UInt16.ofNat (((v - 0x10000) >>> 10) + 0xD800),
      UInt16.ofNat (((v - 0x10000) &&& 0x3FF) + 0xDC00)] := by
  have hmask : (v - 0x10000) &&& 0x3FF = (v - 0x10000) % 1024 :=
    Nat.and_two_pow_sub_one_eq_mod _ 10
  unfold utf16
  rw [if_neg (by omega), hmask, Nat.shiftRight_eq_div_pow, Nat.add_comm 0xD800,
    Nat.add_comm 0xDC00]

/-- A byte below 0x80 is inflated to itself. -/
theorem inflateStringToBuffer_alone {b : UInt8} (hb : b.toNat < 0x80) (rest : List UInt8)
    {room : Nat} (hroom : 1 ≤ room) (offset : Nat) :
    inflateStringToBuffer room offset (b :: rest) =
      (inflateStringToBuffer (room - 1) (offset + 1) rest).map (UInt16.ofNat b.toNat :: ·) := by
  conv_lhs => unfold inflateStringToBuffer
  rw [if_pos ((alone_test b).mpr hb), if_neg (by omega)]

/-- The loop takes a sequence whose number is a code point, if there is room for its units. -/
theorem inflateStringToBuffer_sequence {first : UInt8} {tail : List UInt8}
    (hfirst : IsFirst first tail.length) (htail : ∀ b ∈ tail, IsTail b) {v : Nat}
    (hv : IsCodePoint v) (hnumber : utf8ToOneUcs4Char first tail = v) (rest : List UInt8)
    {room : Nat} (hroom : (utf16 v).length ≤ room) (offset : Nat) :
    inflateStringToBuffer room offset (first :: (tail ++ rest)) =
      (inflateStringToBuffer (room - (utf16 v).length) (offset + (tail.length + 1)) rest).map
        (utf16 v ++ ·) := by
  unfold IsCodePoint at hv
  have hhigh : 0x80 ≤ first.toNat := by
    rcases hfirst with ⟨-, h, -⟩ | ⟨-, h, -⟩ | ⟨-, h, -⟩ <;> omega
  obtain ⟨-, htwo, hthree, hfour⟩ := sequenceLength_iff first hhigh
  have hlength : sequenceLength first = tail.length + 1 := by
    rcases hfirst with ⟨hlen, h⟩ | ⟨hlen, h⟩ | ⟨hlen, h⟩ <;> rw [hlen]
    · exact htwo.mpr h
    · exact hthree.mpr h
    · exact hfour.mpr h
  have hbehind : 1 ≤ tail.length ∧ tail.length ≤ 3 := by
    rcases hfirst with ⟨hlen, -⟩ | ⟨hlen, -⟩ | ⟨hlen, -⟩ <;> omega
  conv_lhs => unfold inflateStringToBuffer
  rw [if_neg fun h => absurd ((alone_test first).mp h) (Nat.not_lt_of_le hhigh)]
  dsimp only
  rw [hlength, Nat.add_sub_cancel, List.take_left, List.drop_left, hnumber,
    if_neg (by rw [List.length_append]; omega), if_neg (by omega),
    if_neg (by rw [(any_tail_test tail).mpr htail]; decide)]
  by_cases hlarge : v ≥ 0x10000
  · have hunits := utf16_of_ge hlarge
    rw [hunits] at hroom ⊢
    simp only [List.length_cons, List.length_nil] at hroom
    rw [if_pos hlarge, if_neg (by omega)]
    rfl
  · have hunits : utf16 v = [UInt16.ofNat v] := utf16_of_lt (Nat.lt_of_not_le hlarge)
    rw [hunits] at hroom ⊢
    simp only [List.length_cons, List.length_nil] at hroom
    rw [if_neg hlarge, if_neg (by omega)]
    rfl

theorem isCodePoint_standIn {v : Nat} : IsCodePoint (standIn v) ↔ IsCodePoint v := by
  unfold standIn IsCodePoint
  split_ifs <;> omega

/-- The loop takes the bytes of a code point, if there is room for its units. -/
theorem inflateStringToBuffer_utf8 {v : Nat} (hv : IsCodePoint v) (rest : List UInt8)
    {room : Nat} (hroom : (inflated v).length ≤ room) (offset : Nat) :
    inflateStringToBuffer room offset (utf8 v ++ rest) =
      (inflateStringToBuffer (room - (inflated v).length) (offset + (utf8 v).length) rest).map
        (inflated v ++ ·) := by
  by_cases halone : v < 0x80
  · have hbyte : (UInt8.ofNat v).toNat = v := by
      rw [UInt8.toNat_ofNat']
      omega
    have hbytes : utf8 v = [UInt8.ofNat v] := if_pos halone
    have hunits : inflated v = [UInt16.ofNat v] := by
      have hstand : standIn v = v := if_neg (by omega)
      unfold inflated
      rw [hstand, utf16_of_lt (by omega)]
    rw [hunits] at hroom ⊢
    rw [hbytes, List.singleton_append,
      inflateStringToBuffer_alone (by omega) rest hroom offset, hbyte]
    rfl
  · obtain ⟨first, tail, hbytes, hfirst, htail, hnumber⟩ :=
      exists_sequence hv (Nat.le_of_not_lt halone)
    rw [hbytes]
    exact inflateStringToBuffer_sequence hfirst htail (isCodePoint_standIn.mpr hv) hnumber rest
      hroom offset

/-- A sequence that passes the tests of the loop is the bytes of a code point. -/
theorem exists_codePoint {first : UInt8} {rest : List UInt8} (hhigh : ¬ first.toNat &&& 0x80 = 0)
    (hlen : ¬ sequenceLength first > rest.length + 1)
    (hlength : ¬ (sequenceLength first = 1 ∨ sequenceLength first > 4))
    (htail : ¬ (rest.take (sequenceLength first - 1)).any (fun byte => byte &&& 0xC0 != 0x80) = true)
    (hnumber : utf8ToOneUcs4Char first (rest.take (sequenceLength first - 1)) < 0x110000) :
    ∃ v, IsCodePoint v ∧ utf8 v = first :: rest.take (sequenceLength first - 1) ∧
      utf8ToOneUcs4Char first (rest.take (sequenceLength first - 1)) = standIn v := by
  have hbyte : 0x80 ≤ first.toNat := Nat.le_of_not_lt fun h => hhigh ((alone_test first).mpr h)
  obtain ⟨hone, htwo, hthree, hfour⟩ := sequenceLength_iff first hbyte
  have htaken : (rest.take (sequenceLength first - 1)).length = sequenceLength first - 1 := by
    rw [List.length_take]
    omega
  have hfirst : IsFirst first (rest.take (sequenceLength first - 1)).length := by
    rw [htaken]
    unfold IsFirst
    omega
  have htails := (any_tail_test _).mp (Bool.not_eq_true _ ▸ htail)
  rcases sequence_cases hfirst htails with hover | ⟨v, -, hbytes, hstand⟩
  · rw [hover] at hnumber
    exact absurd hnumber (by decide)
  · exact ⟨v, isCodePoint_standIn.mp (hstand ▸ hnumber), hbytes, hstand⟩

theorem eq_ok_of_map {ε α β : Type} {f : α → β} {x : Except ε α} {b : β}
    (h : x.map f = .ok b) : ∃ a, x = .ok a ∧ f a = b := by
  cases x with
  | error e => cases h
  | ok a =>
    cases h
    exact ⟨a, rfl, rfl⟩

/-- A code point in front of others. -/
theorem exists_cons {v : Nat} (hv : IsCodePoint v) {bytes : List UInt8} {chars : List UInt16}
    (h : ∃ vs : List Nat, (∀ v ∈ vs, IsCodePoint v) ∧ bytes = vs.flatMap utf8 ∧
      chars = vs.flatMap inflated) :
    ∃ vs : List Nat, (∀ v ∈ vs, IsCodePoint v) ∧ utf8 v ++ bytes = vs.flatMap utf8 ∧
      inflated v ++ chars = vs.flatMap inflated := by
  obtain ⟨vs, hvs, rfl, rfl⟩ := h
  exact ⟨v :: vs, List.forall_mem_cons.mpr ⟨hv, hvs⟩, rfl, rfl⟩

/-- The loop takes the bytes of code points only. -/
theorem exists_codePoints {room offset : Nat} {bytes : List UInt8} {chars : List UInt16}
    (h : inflateStringToBuffer room offset bytes = .ok chars) :
    ∃ vs : List Nat, (∀ v ∈ vs, IsCodePoint v) ∧ bytes = vs.flatMap utf8 ∧
      chars = vs.flatMap inflated := by
  fun_induction inflateStringToBuffer room offset bytes generalizing chars with
  | case1 =>
    cases h
    exact ⟨[], by simp, rfl, rfl⟩
  | case3 room offset first rest halone hroom ih =>
    obtain ⟨more, hmore, rfl⟩ := eq_ok_of_map h
    have hlt : first.toNat < 0x80 := (alone_test first).mp halone
    have hbytes : utf8 first.toNat = [first] := by
      unfold utf8
      rw [if_pos hlt, UInt8.ofNat_toNat]
    have hunits : inflated first.toNat = [UInt16.ofNat first.toNat] := by
      have hstand : standIn first.toNat = first.toNat := if_neg (by omega)
      unfold inflated
      rw [hstand, utf16_of_lt (by omega)]
    have hcons := exists_cons (v := first.toNat) (Nat.lt_trans hlt (by decide)) (ih hmore)
    rwa [hbytes, hunits] at hcons
  | case8 room offset first rest hhigh n hlen hlength htail v hlarge w hnumber =>
    rename_i ih
    obtain ⟨more, hmore, rfl⟩ := eq_ok_of_map h
    have hcode : v < 0x110000 := by omega
    obtain ⟨p, hp, hbytes, hstand⟩ := exists_codePoint hhigh hlen hlength htail hcode
    have hunits : inflated p = utf16 v := congrArg utf16 hstand.symm
    have hcons := exists_cons hp (ih hmore)
    rwa [hbytes, hunits, utf16_of_ge hlarge, List.cons_append, List.take_append_drop] at hcons
  | case10 room offset first rest hhigh n hlen hlength htail v hlarge hroom =>
    rename_i ih
    obtain ⟨more, hmore, rfl⟩ := eq_ok_of_map h
    have hcode : v < 0x110000 := by omega
    obtain ⟨p, hp, hbytes, hstand⟩ := exists_codePoint hhigh hlen hlength htail hcode
    have hunits : inflated p = utf16 v := congrArg utf16 hstand.symm
    have hcons := exists_cons hp (ih hmore)
    rwa [hbytes, hunits, utf16_of_lt (by omega), List.cons_append, List.take_append_drop]
      at hcons
  | _ => cases h

/-- The loop takes the bytes of any code points, if there is room for their units. -/
theorem inflateStringToBuffer_codePoints {vs : List Nat} (hvs : ∀ v ∈ vs, IsCodePoint v)
    {room : Nat} (hroom : (vs.flatMap inflated).length ≤ room) (offset : Nat) :
    inflateStringToBuffer room offset (vs.flatMap utf8) = .ok (vs.flatMap inflated) := by
  induction vs generalizing room offset with
  | nil =>
    unfold inflateStringToBuffer
    rfl
  | cons v vs ih =>
    obtain ⟨hv, hrest⟩ := List.forall_mem_cons.mp hvs
    rw [List.flatMap_cons, List.length_append] at hroom
    rw [List.flatMap_cons, inflateStringToBuffer_utf8 hv _ (by omega), ih hrest (by omega)]
    rfl

/-! ## Strings -/

/-- The units of a code point are no more than its bytes. -/
theorem length_inflated_le (v : Nat) : (inflated v).length ≤ (utf8 v).length := by
  unfold inflated utf16 standIn
  rw [length_utf8]
  split_ifs <;> simp only [List.length_cons, List.length_nil] <;> omega

theorem length_flatMap_inflated_le (vs : List Nat) :
    (vs.flatMap inflated).length ≤ (vs.flatMap utf8).length := by
  induction vs with
  | nil => exact Nat.le_refl 0
  | cons v vs ih =>
    rw [List.flatMap_cons, List.flatMap_cons, List.length_append, List.length_append]
    exact Nat.add_le_add (length_inflated_le v) ih

/-- The bytes of a code point are no more than three for each unit. -/
theorem length_utf8_le (v : Nat) : (utf8 v).length ≤ 3 * (inflated v).length := by
  unfold inflated utf16 standIn
  rw [length_utf8]
  split_ifs <;> simp only [List.length_cons, List.length_nil] <;> omega

theorem length_flatMap_utf8_le (vs : List Nat) :
    (vs.flatMap utf8).length ≤ 3 * (vs.flatMap inflated).length := by
  induction vs with
  | nil => exact Nat.le_refl 0
  | cons v vs ih =>
    have hone := length_utf8_le v
    rw [List.flatMap_cons, List.flatMap_cons, List.length_append, List.length_append]
    omega

/-- What is inflated is the bytes of code points. -/
theorem exists_codePoints_of_inflateString {bytes : List UInt8} {chars : List UInt16}
    (h : inflateString bytes = some chars) :
    ∃ vs : List Nat, (∀ v ∈ vs, IsCodePoint v) ∧ bytes = vs.flatMap utf8 ∧
      chars = vs.flatMap inflated := by
  unfold inflateString at h
  cases hmeasured : inflateStringToBuffer sizeMax 0 bytes with
  | error e =>
    rw [hmeasured] at h
    cases h
  | ok measured =>
    rw [hmeasured] at h
    dsimp only at h
    cases hfilled : inflateStringToBuffer measured.length 0 bytes with
    | error e =>
      rw [hfilled] at h
      cases h
    | ok filled =>
      rw [hfilled] at h
      cases h
      exact exists_codePoints hfilled

/-- The second pass has the room the first one found. -/
theorem inflateString_codePoints {vs : List Nat} (hvs : ∀ v ∈ vs, IsCodePoint v)
    (hsize : (vs.flatMap utf8).length < 2 ^ 64) :
    inflateString (vs.flatMap utf8) = some (vs.flatMap inflated) := by
  have hroom : (vs.flatMap inflated).length ≤ sizeMax :=
    Nat.le_trans (length_flatMap_inflated_le vs) (Nat.le_pred_of_lt hsize)
  unfold inflateString
  rw [inflateStringToBuffer_codePoints hvs hroom 0]
  dsimp only
  rw [inflateStringToBuffer_codePoints hvs (Nat.le_refl _) 0]
  rfl

/-- Bytes can be inflated exactly if they are those of code points. Each gives its
units, but for the two that have a stand-in. -/
theorem inflateString_iff {bytes : List UInt8} (hsize : bytes.length < 2 ^ 64)
    (chars : List UInt16) : inflateString bytes = some chars ↔
      ∃ vs : List Nat, (∀ v ∈ vs, IsCodePoint v) ∧ bytes = vs.flatMap utf8 ∧
        chars = vs.flatMap inflated := by
  constructor
  · exact exists_codePoints_of_inflateString
  · rintro ⟨vs, hvs, rfl, rfl⟩
    exact inflateString_codePoints hvs hsize

/-- Surrogates pass, the last number of the first plane does not. -/
theorem inflateString_surrogates :
    inflateString [0xED, 0xA0, 0x80, 0xEF, 0xBF, 0xBF] = some [0xD800, 0xFFFD] :=
  (inflateString_iff (by decide) _).mpr ⟨[0xD800, 0xFFFF], by decide, by decide, by decide⟩

/-! ## Round trips -/

/-- A text without the characters that have a stand-in. -/
def PlainChars (cs : List Char) : Prop := ∀ c ∈ cs, standIn c.toNat = c.toNat

instance (cs : List Char) : Decidable (PlainChars cs) :=
  List.decidableBAll _ cs

theorem flatMap_inflated_toNat {cs : List Char} (hcs : PlainChars cs) :
    (cs.map Char.toNat).flatMap inflated = utf16Encode cs := by
  rw [List.flatMap_map]
  exact List.flatMap_congr fun c hc => congrArg utf16 (hcs c hc)

/-- A plain text is inflated to its own units. -/
theorem inflateString_utf8Encode {cs : List Char} (hcs : PlainChars cs)
    (hsize : (utf8Encode cs).length < 2 ^ 64) :
    inflateString (utf8Encode cs) = some (utf16Encode cs) := by
  have hvs : ∀ v ∈ cs.map Char.toNat, IsCodePoint v := fun v hv => (isScalar_of_mem_map hv).1
  rw [← flatMap_utf8_toNat] at hsize ⊢
  rw [inflateString_codePoints hvs hsize, flatMap_inflated_toNat hcs]

/-- No unit of an inflated string is the number of a character with a stand-in. -/
theorem standIn_of_mem_inflated {u : UInt16} {v : Nat} (hv : IsCodePoint v) (h : u ∈ inflated v) :
    standIn u.toNat = u.toNat := by
  have hcode : IsCodePoint (standIn v) := isCodePoint_standIn.mpr hv
  have hstand : standIn (standIn v) = standIn v := by
    unfold standIn
    split_ifs <;> omega
  unfold inflated utf16 at h
  generalize standIn v = w at h hcode hstand
  unfold IsCodePoint at hcode
  split_ifs at h with hlt
  · obtain rfl := List.mem_singleton.mp h
    rwa [UInt16.toNat_ofNat', Nat.mod_eq_of_lt hlt]
  · rcases List.mem_pair.mp h with rfl | rfl
    all_goals
      rw [UInt16.toNat_ofNat']
      unfold standIn
      rw [if_neg (by omega)]

/-- A text the engine inflated is plain. -/
theorem plainChars_of_inflated {vs : List Nat} (hvs : ∀ v ∈ vs, IsCodePoint v) {cs : List Char}
    (h : vs.flatMap inflated = utf16Encode cs) : PlainChars cs := by
  intro c hc
  by_cases hlt : c.toNat < 0x10000
  · have hunit : UInt16.ofNat c.toNat ∈ utf16Encode cs :=
      List.mem_flatMap.mpr ⟨c, hc, by rw [utf16_of_lt hlt]; exact List.mem_singleton_self _⟩
    obtain ⟨v, hv, hmem⟩ := List.mem_flatMap.mp (h ▸ hunit)
    have hunit := standIn_of_mem_inflated (hvs v hv) hmem
    rwa [UInt16.toNat_ofNat', Nat.mod_eq_of_lt hlt] at hunit
  · unfold standIn
    rw [if_neg (by omega)]

/-- Bytes that come back are the UTF-8 of a plain text. -/
theorem exists_plain_of_inflateString {bytes : List UInt8} {chars : List UInt16}
    (hinflate : inflateString bytes = some chars) (hdeflate : deflateString chars = some bytes) :
    ∃ cs : List Char, PlainChars cs ∧ bytes = utf8Encode cs := by
  obtain ⟨vs, hvs, -, hchars⟩ := exists_codePoints_of_inflateString hinflate
  obtain ⟨cs, hunits, hbytes⟩ := exists_text_of_deflateString hdeflate
  exact ⟨cs, plainChars_of_inflated hvs (hchars.symm.trans hunits), hbytes⟩

/-- Inflating and deflating gives the bytes back exactly if they are the UTF-8 of a
plain text. -/
theorem deflateString_inflateString_iff {bytes : List UInt8} (hsize : bytes.length < 2 ^ 64) :
    (inflateString bytes).bind deflateString = some bytes ↔
      ∃ cs : List Char, PlainChars cs ∧ bytes = utf8Encode cs := by
  constructor
  · intro h
    obtain ⟨chars, hinflate, hdeflate⟩ := Option.bind_eq_some_iff.mp h
    exact exists_plain_of_inflateString hinflate hdeflate
  · rintro ⟨cs, hcs, rfl⟩
    rw [inflateString_utf8Encode hcs hsize]
    exact deflateString_utf16Encode cs

/-- A character of two bytes comes back. -/
theorem deflateString_inflateString_twoBytes :
    (inflateString [0xC3, 0xA9]).bind deflateString = some [0xC3, 0xA9] :=
  (deflateString_inflateString_iff (by decide)).mpr ⟨['é'], by decide, by decide⟩

/-- Deflating and inflating gives the units back exactly if they are the UTF-16 of a
plain text. -/
theorem inflateString_deflateString_iff {chars : List UInt16}
    (hsize : 3 * chars.length < 2 ^ 64) :
    (deflateString chars).bind inflateString = some chars ↔
      ∃ cs : List Char, PlainChars cs ∧ chars = utf16Encode cs := by
  constructor
  · intro h
    obtain ⟨bytes, hdeflate, hinflate⟩ := Option.bind_eq_some_iff.mp h
    obtain ⟨vs, hvs, -, hchars⟩ := exists_codePoints_of_inflateString hinflate
    obtain ⟨cs, hunits, -⟩ := exists_text_of_deflateString hdeflate
    exact ⟨cs, plainChars_of_inflated hvs (hchars.symm.trans hunits), hunits⟩
  · rintro ⟨cs, hcs, rfl⟩
    rw [deflateString_utf16Encode]
    refine inflateString_utf8Encode hcs (Nat.lt_of_le_of_lt ?_ hsize)
    rw [← flatMap_utf8_toNat, ← flatMap_inflated_toNat hcs]
    exact length_flatMap_utf8_le _

/-- A pair of surrogates comes back. -/
theorem inflateString_deflateString_pair :
    (deflateString [0xD83D, 0xDE00]).bind inflateString = some [0xD83D, 0xDE00] :=
  (inflateString_deflateString_iff (by decide)).mpr ⟨['😀'], by decide, by decide⟩

end Meguro
