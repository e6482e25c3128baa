import Meguro.Base64.Codec

/-!
# What an encoded text spells

A base64 text is digits of six bits in groups of four, where up to two digits of
the last group are padding. It spells the bytes whose bits are those of its digits
up to a slack behind them, of two bits for each padding character. The encoder
writes a text that spells its input with a slack of zeros, and of this text and a
NUL as much as its buffer holds.
-/

namespace Meguro

open Bits

/-- The digits and the padding of a text, the bytes it spells and its slack. -/
structure Spelling (digits : List Nat) (pad : Nat) (text bytes : List UInt8)
    (slack : List Bool) : Prop where
  text_eq : text = digits.map b64char ++ List.replicate pad padding
  lt : ∀ d ∈ digits, d < 2 ^ 6
  dvd : 4 ∣ digits.length + pad
  pad_le : pad ≤ 2
  spell_eq : spell 6 digits = spell 8 (bytes.map UInt8.toNat) ++ slack
  length_slack : slack.length = 2 * pad

/-- A base64 text that spells bytes, with a slack. -/
def Spells (text bytes : List UInt8) (slack : List Bool) : Prop :=
  ∃ digits pad, Spelling digits pad text bytes slack

/-! ## Digits -/

theorem bits_six (n : Nat) : bits 6 n =
    [n.testBit 5, n.testBit 4, n.testBit 3, n.testBit 2, n.testBit 1, n.testBit 0] := rfl

theorem bits_eight (n : Nat) : bits 8 n = [n.testBit 7, n.testBit 6, n.testBit 5, n.testBit 4,
    n.testBit 3, n.testBit 2, n.testBit 1, n.testBit 0] := rfl

/-- The bits of a number beyond its word are off. -/
theorem testBit_of_le {w n i : Nat} (hn : n < 2 ^ w) (hi : w ≤ i) : n.testBit i = false :=
  Nat.testBit_lt_two_pow (hn.trans_le (Nat.pow_le_pow_right (by decide) hi))

/-- The digit a character of `b64str` is chosen by. -/
def digitOf (n : Nat) : Nat := n % 2 ^ 6

theorem digitOf_lt (n : Nat) : digitOf n < 2 ^ 6 := Nat.mod_lt _ (by decide)

theorem b64char_digitOf (n : Nat) : b64char (digitOf n) = b64char n := by
  have hmask (m : Nat) : m &&& 0x3f = m % 2 ^ 6 := Nat.and_two_pow_sub_one_eq_mod m 6
  unfold b64char digitOf
  rw [hmask, hmask, Nat.mod_mod]

/-- The sum in the encoder joins the bits of two digits. -/
theorem shiftLeft_add_shiftRight (a : Nat) {b k m : Nat} (hb : b < 2 ^ (k + m)) :
    (a <<< k) + (b >>> m) = (a <<< k) ||| (b >>> m) := by
  apply Nat.shiftLeft_add_eq_or_of_lt
  rw [Nat.shiftRight_eq_div_pow]
  apply Nat.div_lt_of_lt_mul
  rwa [← Nat.pow_add, Nat.add_comm]

/-! ## Groups -/

namespace Spelling

variable {digits : List Nat} {pad : Nat} {text bytes : List UInt8} {slack : List Bool}

/-- Whole groups in front of a text. -/
theorem prepend (h : Spelling digits pad text bytes slack) (ns : List Nat) {bs : List UInt8}
    (hdvd : 4 ∣ ns.length) (hspell : spell 6 ns = spell 8 (bs.map UInt8.toNat)) :
    Spelling (ns.map digitOf ++ digits) pad (ns.map b64char ++ text) (bs ++ bytes) slack where
  text_eq := by
    rw [List.map_append, List.map_map, h.text_eq, List.append_assoc]
    congr 1
    exact List.map_congr_left fun n _ => (b64char_digitOf n).symm
  lt d hd := by
    rcases List.mem_append.mp hd with hd | hd
    · obtain ⟨n, -, rfl⟩ := List.mem_map.mp hd
      exact digitOf_lt n
    · exact h.lt d hd
  dvd := by
    rw [List.length_append, List.length_map, Nat.add_assoc]
    exact Nat.dvd_add hdvd h.dvd
  pad_le := h.pad_le
  spell_eq := by
    have hdigits : spell 6 (ns.map digitOf) = spell 6 ns := spell_map_mod 6 ns
    rw [spell_append, hdigits, hspell, h.spell_eq, List.map_append, spell_append,
      List.append_assoc]
  length_slack := h.length_slack

/-- A group at the end of a text. -/
theorem last (ns : List Nat) (hdvd : 4 ∣ ns.length + pad) (hpad : pad ≤ 2)
    (hspell : spell 6 ns = spell 8 (bytes.map UInt8.toNat) ++ slack)
    (hslack : slack.length = 2 * pad) :
    Spelling (ns.map digitOf) pad (ns.map b64char ++ List.replicate pad padding) bytes slack where
  text_eq := by
    rw [List.map_map]
    congr 1
    exact List.map_congr_left fun n _ => (b64char_digitOf n).symm
  lt d hd := by
    obtain ⟨n, -, rfl⟩ := List.mem_map.mp hd
    exact digitOf_lt n
  dvd := by rwa [List.length_map]
  pad_le := hpad
  spell_eq := (spell_map_mod 6 ns).trans hspell
  length_slack := hslack

end Spelling

/-! ## The encoder -/

/-- The characters of the whole input. -/
def encoding : List UInt8 → List UInt8
  | [] => []
  | [a] => encodeTurn a []
  | [a, b] => encodeTurn a [b]
  | a :: b :: c :: rest => encodeTurn a (b :: c :: rest) ++ encoding rest

theorem toNat_lt (a : UInt8) : a.toNat < 2 ^ 8 := a.toNat_lt

/-- The four characters of three bytes. -/
theorem spell_threeBytes (a b c : UInt8) :
    spell 6 [a.toNat >>> 2, (a.toNat <<< 4) + (b.toNat >>> 4), (b.toNat <<< 2) + (c.toNat >>> 6),
      c.toNat] = spell 8 ([a, b, c].map UInt8.toNat) := by
  rw [shiftLeft_add_shiftRight _ (k := 4) (toNat_lt b),
    shiftLeft_add_shiftRight _ (k := 2) (toNat_lt c)]
  simp [bits_six, bits_eight, Nat.testBit_shiftRight, Nat.testBit_shiftLeft, Nat.testBit_or,
    testBit_of_le (toNat_lt b), testBit_of_le (toNat_lt c)]

/-- The three characters of two bytes. -/
theorem spell_twoBytes (a b : UInt8) :
    spell 6 [a.toNat >>> 2, (a.toNat <<< 4) + (b.toNat >>> 4), (b.toNat <<< 2) + 0] =
      spell 8 ([a, b].map UInt8.toNat) ++ List.replicate 2 false := by
  rw [shiftLeft_add_shiftRight _ (k := 4) (toNat_lt b)]
  simp [bits_six, bits_eight, Nat.testBit_shiftRight, Nat.testBit_shiftLeft, Nat.testBit_or,
    testBit_of_le (toNat_lt b), List.replicate]

/-- The two characters of one byte. -/
theorem spell_oneByte (a : UInt8) :
    spell 6 [a.toNat >>> 2, (a.toNat <<< 4) + 0] =
      spell 8 ([a].map UInt8.toNat) ++ List.replicate 4 false := by
  simp [bits_six, bits_eight, Nat.testBit_shiftRight, Nat.testBit_shiftLeft, List.replicate]

/-- The characters of an input spell it, with zeros behind it. -/
theorem spells_encoding (input : List UInt8) :
    ∃ n, Spells (encoding input) input (List.replicate n false) := by
  induction input using encoding.induct with
  | case1 => exact ⟨0, [], 0, .last [] ⟨0, rfl⟩ (by decide) rfl rfl⟩
  | case2 a =>
    exact ⟨4, _, 2, .last [_, _] ⟨1, rfl⟩ (by decide) (spell_oneByte a) rfl⟩
  | case3 a b =>
    exact ⟨2, _, 1, .last [_, _, _] ⟨1, rfl⟩ (by decide) (spell_twoBytes a b) rfl⟩
  | case4 a b c rest ih =>
    obtain ⟨n, digits, pad, h⟩ := ih
    exact ⟨n, _, pad, h.prepend [_, _, _, _] ⟨1, rfl⟩ (spell_threeBytes a b c)⟩

theorem length_encodeTurn (a : UInt8) (rest : List UInt8) : (encodeTurn a rest).length = 4 := rfl

/-- Every three bytes begun give four characters. -/
theorem length_encoding (input : List UInt8) :
    (encoding input).length = (input.length + 2) / 3 * 4 := by
  induction input using encoding.induct with
  | case1 => rfl
  | case2 a => simp [encoding, length_encodeTurn]
  | case3 a b => simp [encoding, length_encodeTurn]
  | case4 a b c rest ih =>
    unfold encoding
    rw [List.length_append, length_encodeTurn, ih]
    simp only [List.length_cons]
    omega

theorem encodeLoop_eq (input : List UInt8) (out : OutBuffer UInt8) :
    encodeLoop input out = out.putAll (encoding input) := by
  induction input using encoding.induct generalizing out with
  | case1 => rfl
  | case2 a => rfl
  | case3 a b => rfl
  | case4 a b c rest ih =>
    unfold encodeLoop encoding
    rw [ih, OutBuffer.putAll_append]

/-- The encoder writes the characters of its input and a NUL, as far as its buffer
reaches. -/
theorem base64Encode_eq (input : List UInt8) (outlen : Nat) :
    base64Encode input outlen = (encoding input ++ [0]).take outlen := by
  have hput : (encodeLoop input ⟨[], outlen⟩).put 0 =
      OutBuffer.putAll ⟨[], outlen⟩ (encoding input ++ [0]) := by
    rw [encodeLoop_eq, OutBuffer.putAll_append]
    rfl
  unfold base64Encode
  rw [hput, OutBuffer.written_putAll]

end Meguro
