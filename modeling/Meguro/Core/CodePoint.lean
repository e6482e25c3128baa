import Mathlib.Data.List.Basic

/-!
# Code points in UTF-8 and UTF-16

The sequences of bytes and of 16-bit units that encode one code point. Surrogate
code points have a sequence of three bytes like their neighbours and stand for
themselves as units; the other code points are the characters, and on these the
bytes are those of the standard library's UTF-8.
-/

namespace CodePoint

/-- The bytes of a code point. -/
def utf8 (v : Nat) : List UInt8 :=
  if v < 0x80 then [UInt8.ofNat v]
  else if v < 0x800 then [UInt8.ofNat (0xC0 + v / 64), UInt8.ofNat (0x80 + v % 64)]
  else if v < 0x10000 then
    [UInt8.ofNat (0xE0 + v / 4096), UInt8.ofNat (0x80 + v / 64 % 64), UInt8.ofNat (0x80 + v % 64)]
  else
    [UInt8.ofNat (0xF0 + v / 262144), UInt8.ofNat (0x80 + v / 4096 % 64),
      UInt8.ofNat (0x80 + v / 64 % 64), UInt8.ofNat (0x80 + v % 64)]

/-- The units of a code point. -/
def utf16 (v : Nat) : List UInt16 :=
  if v < 0x10000 then [UInt16.ofNat v]
  else [UInt16.ofNat (0xD800 + (v - 0x10000) / 1024), UInt16.ofNat (0xDC00 + (v - 0x10000) % 1024)]

/-- The code points: the characters and the surrogates. -/
def IsCodePoint (v : Nat) : Prop := v < 0x110000

instance (v : Nat) : Decidable (IsCodePoint v) := inferInstanceAs (Decidable (_ < _))

def IsSurrogate (v : Nat) : Prop := 0xD800 ≤ v ∧ v < 0xE000

instance (v : Nat) : Decidable (IsSurrogate v) := inferInstanceAs (Decidable (_ ∧ _))

/-- A code point that is a character. -/
def IsScalar (v : Nat) : Prop := IsCodePoint v ∧ ¬ IsSurrogate v

/-- The units of a text. -/
def utf16Encode (cs : List Char) : List UInt16 := cs.flatMap fun c => utf16 c.toNat

/-- The bytes of a text. -/
def utf8Encode (cs : List Char) : List UInt8 := cs.flatMap String.utf8EncodeChar

theorem toNat_lt (c : Char) : c.toNat < 0x110000 := by
  have hvalid : c.toNat < 0xD800 ∨ 0xDFFF < c.toNat ∧ c.toNat < 0x110000 := c.valid
  omega

/-- On characters the bytes are those of the standard library. -/
theorem utf8_toNat (c : Char) : utf8 c.toNat = String.utf8EncodeChar c := by
  have hlt : c.val.toNat < 0x110000 := toNat_lt c
  change utf8 c.val.toNat = String.utf8EncodeChar c
  unfold utf8 String.utf8EncodeChar
  dsimp only
  generalize c.val.toNat = v at hlt
  have h₁ : (v / 64 % 0x20 + 0xc0 = 0xC0 + v / 64) ∨ 0x800 ≤ v := by omega
  have h₂ : (v / 4096 % 0x10 + 0xe0 = 0xE0 + v / 4096) ∨ 0x10000 ≤ v := by omega
  have h₃ : v / 262144 % 0x08 + 0xf0 = 0xF0 + v / 262144 := by omega
  simp only [Nat.add_comm 0x80]
  split_ifs <;> first | omega | rfl | skip
  · rw [h₁.resolve_right (by omega)]
  · rw [h₂.resolve_right (by omega)]
  · rw [h₃]

theorem isScalar_toNat (c : Char) : IsScalar c.toNat := by
  have hvalid : c.toNat < 0xD800 ∨ 0xDFFF < c.toNat ∧ c.toNat < 0x110000 := c.valid
  unfold IsScalar IsCodePoint IsSurrogate
  omega

theorem isScalar_of_mem_map {cs : List Char} {v : Nat} (h : v ∈ cs.map Char.toNat) :
    IsScalar v := by
  obtain ⟨c, -, rfl⟩ := List.mem_map.mp h
  exact isScalar_toNat c

/-- Scalars are the numbers of characters. -/
theorem exists_chars {vs : List Nat} (h : ∀ v ∈ vs, IsScalar v) :
    ∃ cs : List Char, cs.map Char.toNat = vs := by
  induction vs with
  | nil => exact ⟨[], rfl⟩
  | cons v vs ih =>
    obtain ⟨hv, hvs⟩ := List.forall_mem_cons.mp h
    obtain ⟨cs, rfl⟩ := ih hvs
    have hvalid : v.isValidChar := by
      unfold IsScalar IsCodePoint IsSurrogate at hv
      unfold Nat.isValidChar
      omega
    refine ⟨Char.ofNat v :: cs, ?_⟩
    rw [List.map_cons]
    congr 1
    unfold Char.ofNat
    rw [dif_pos hvalid]
    rfl

theorem flatMap_utf16_toNat (cs : List Char) : (cs.map Char.toNat).flatMap utf16 = utf16Encode cs :=
  List.flatMap_map ..

theorem flatMap_utf8_toNat (cs : List Char) : (cs.map Char.toNat).flatMap utf8 = utf8Encode cs := by
  rw [List.flatMap_map]
  exact congrArg cs.flatMap (funext utf8_toNat)

end CodePoint
