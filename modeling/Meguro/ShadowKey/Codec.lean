import Meguro.Text.CString

/-!
# Shadow keys

`generate_shadow_key` encodes a key and the number of its earlier emits as one
record key: the key itself for the first emit, then the key, the separator and
the decimal count. `load` decodes a record key at its first separator. Below
2^31 the computed buffer is exactly long enough, so the encoding is the plain
text; it confuses two pairs only when one key already looks like a shadow key of
the other, and decoding inverts it on the keys without a separator.
-/

namespace Meguro

open Decimal Search

/-- `SUFFIX_SEPARATOR`, the bytes of `|m`. -/
def suffixSeparator : List UInt8 := [124, 109]

/-- The separator occurs in the text of a key. -/
def HasSeparator (key : CString) : Prop := suffixSeparator <:+: key.bytes

instance (key : CString) : Decidable (HasSeparator key) :=
  inferInstanceAs (Decidable (suffixSeparator <:+: key.bytes))

/-- `suffix_len`. -/
def suffixLen (count : UInt32) : Nat := if count > 9 then Nat.log 10 count.toNat + 1 else 1

/-- The bytes `generate_shadow_key` returns: a copy of the key for count 0,
otherwise what `snprintf` puts in a buffer whose length is computed from the
decimal logarithm of the count. The length is a natural number here and an `int`
in the source, which is the same for a key shorter than 2^31 - 13 bytes. -/
def shadowKeyBytes (key : CString) (count : UInt32) : List UInt8 :=
  if count = 0 then key.bytes
  else
    let rootLen := key.bytes.length
    let shadowKeyLen := rootLen + suffixSeparator.length + suffixLen count + 1
    snprintf shadowKeyLen (key.bytes ++ suffixSeparator ++ printInt count.toInt32)

theorem nul_notMem_printInt (i : Int32) : 0 ∉ printInt i := by
  have hd : ∀ n, 0 ∉ decimal n := fun n => notMem_decimal rfl
  unfold printInt
  split
  · rw [List.mem_cons, not_or]
    exact ⟨by decide, hd _⟩
  · exact hd _

theorem nul_notMem_shadowKeyBytes (key : CString) (count : UInt32) :
    0 ∉ shadowKeyBytes key count := by
  unfold shadowKeyBytes
  split
  · exact key.nulFree
  · intro h
    rcases List.mem_append.mp (List.mem_of_mem_take h) with h | h
    · rcases List.mem_append.mp h with h | h
      · exact key.nulFree h
      · exact absurd h (by decide)
    · exact nul_notMem_printInt _ h

/-- `ShadowKeyMap::generate_shadow_key`. -/
def generateShadowKey (key : CString) (count : UInt32) : CString :=
  ⟨shadowKeyBytes key count, nul_notMem_shadowKeyBytes key count⟩

/-- The root and the count `load` reads from a record key: cut at the first
separator and `atoi` of the rest, or the whole key and 0. -/
def parseRecordKey (key : CString) : CString × UInt32 :=
  match search suffixSeparator key.bytes with
  | some suffix =>
    (key.truncate (key.bytes.length - suffix.length),
      (atoi (suffix.drop suffixSeparator.length)).toUInt32)
  | none => (key, 0)

/-! ## The encoding below 2^31 -/

/-- The text a shadow key is meant to have. -/
def shadowText (key : List UInt8) (n : Nat) : List UInt8 :=
  if n = 0 then key else key ++ suffixSeparator ++ decimal n

@[simp] theorem shadowText_zero (key : List UInt8) : shadowText key 0 = key := rfl

theorem shadowText_of_pos (key : List UInt8) {n : Nat} (h : 0 < n) :
    shadowText key n = key ++ suffixSeparator ++ decimal n := by
  rw [shadowText, if_neg (Nat.ne_of_gt h)]

@[simp] theorem generateShadowKey_zero (key : CString) : generateShadowKey key 0 = key := rfl

/-- The suffix length computed from the logarithm is the number of digits. -/
theorem suffixLen_eq {count : UInt32} (h : count ≠ 0) :
    suffixLen count = (decimal count.toNat).length := by
  rw [suffixLen, length_decimal (Nat.ne_of_gt (toNat_pos_of_ne_zero h))]
  split
  · rfl
  · rename_i hle
    have hlt : count.toNat < 10 := by
      rw [gt_iff_lt, UInt32.lt_iff_toNat_lt] at hle
      exact Nat.lt_succ_of_le (Nat.le_of_not_lt hle)
    rw [Nat.log_of_lt hlt]

/-- The buffer cuts what is printed for the count, and nothing in front of it. -/
theorem bytes_of_ne_zero (key : CString) {count : UInt32} (h : count ≠ 0) :
    (generateShadowKey key count).bytes =
      key.bytes ++ suffixSeparator ++ (printInt count.toInt32).take (suffixLen count) := by
  change shadowKeyBytes key count = _
  have hsize : key.bytes.length + suffixSeparator.length + suffixLen count + 1 - 1 =
      (key.bytes ++ suffixSeparator).length + suffixLen count := by
    rw [List.length_append, Nat.add_sub_cancel]
  rw [shadowKeyBytes, if_neg h]
  change (key.bytes ++ suffixSeparator ++ printInt count.toInt32).take _ = _
  exact hsize ▸ List.take_length_add_append _

/-- Nothing is cut off a count that prints without a sign. -/
theorem bytes_generateShadowKey {key : CString} {count : UInt32} (h : count.toNat < 2 ^ 31) :
    (generateShadowKey key count).bytes = shadowText key.bytes count.toNat := by
  by_cases hz : count = 0
  · subst count
    rfl
  · rw [bytes_of_ne_zero key hz, printInt_of_lt h, suffixLen_eq hz, List.take_length,
      shadowText_of_pos _ (toNat_pos_of_ne_zero hz)]

theorem generateShadowKey_eq_iff {k k' : CString} {c c' : UInt32} (h : c.toNat < 2 ^ 31)
    (h' : c'.toNat < 2 ^ 31) : generateShadowKey k c = generateShadowKey k' c' ↔
      shadowText k.bytes c.toNat = shadowText k'.bytes c'.toNat := by
  rw [← bytes_generateShadowKey h, ← bytes_generateShadowKey h']
  exact CString.bytes_injective.eq_iff.symm

/-- Two pairs get one text only if they are equal, or one of the keys is itself
a shadow text of the other. -/
theorem shadowText_eq {k k' : List UInt8} {i j : Nat} (h : shadowText k i = shadowText k' j) :
    (k = k' ∧ i = j) ∨ (i = 0 ∧ 0 < j ∧ k = shadowText k' j) ∨
      (j = 0 ∧ 0 < i ∧ k' = shadowText k i) := by
  rcases Nat.eq_zero_or_pos i with rfl | hi <;> rcases Nat.eq_zero_or_pos j with rfl | hj
  · exact Or.inl ⟨h, rfl⟩
  · exact Or.inr (Or.inl ⟨rfl, hj, h⟩)
  · exact Or.inr (Or.inr ⟨rfl, hi, h.symm⟩)
  · rw [shadowText_of_pos k hi, shadowText_of_pos k' hj, List.append_assoc, List.append_assoc] at h
    have hm : ∀ n, (109 : UInt8) ∉ decimal n := fun n => notMem_decimal (by decide)
    obtain ⟨hk, hd⟩ := append_pair_inj (hm i) (hm j) h
    exact Or.inl ⟨hk, decimal_injective hd⟩

theorem length_lt_of_shadowText {k k' : List UInt8} {j : Nat} (hj : 0 < j)
    (h : k' = shadowText k j) : k.length < k'.length := by
  rw [h, shadowText_of_pos k hj]
  simp [suffixSeparator]

/-! ## Decoding -/

/-- The root `load` reads never contains the separator. -/
theorem not_hasSeparator_parseRecordKey (key : CString) :
    ¬ HasSeparator (parseRecordKey key).1 := by
  unfold parseRecordKey
  cases hs : search suffixSeparator key.bytes with
  | none => exact search_eq_none_iff.mp hs
  | some suffix =>
    obtain ⟨before, after, hb, -, hn⟩ := search_eq_some (by decide) hs
    have ht : (key.truncate (key.bytes.length - suffix.length)).bytes = before := by
      simp [CString.truncate, hb]
    change ¬ suffixSeparator <:+: (key.truncate (key.bytes.length - suffix.length)).bytes
    rwa [ht]

/-- A key without the separator is its own root. -/
theorem parseRecordKey_of_not_hasSeparator {key : CString} (h : ¬ HasSeparator key) :
    parseRecordKey key = (key, 0) := by
  rw [parseRecordKey, search_eq_none_iff.mpr h]

/-- A suffix appended to a key without the separator is read back. -/
theorem parseRecordKey_of_suffix {key recordKey : CString} (h : ¬ HasSeparator key)
    {suffix : List UInt8} (hb : recordKey.bytes = key.bytes ++ suffixSeparator ++ suffix) :
    parseRecordKey recordKey = (key, (atoi suffix).toUInt32) := by
  have hcons : recordKey.bytes = key.bytes ++ 124 :: 109 :: suffix := by
    rw [hb, List.append_assoc]
    rfl
  have hs : search suffixSeparator recordKey.bytes = some (124 :: 109 :: suffix) := by
    rw [hcons]
    exact search_pair_append (by decide) h _
  rw [parseRecordKey, hs]
  refine Prod.ext (CString.ext ?_) rfl
  simp [CString.truncate, hcons]

/-- Decoding inverts the encoding of a key without the separator. -/
theorem parseRecordKey_generateShadowKey {key : CString} {count : UInt32}
    (h : ¬ HasSeparator key) (hc : count.toNat < 2 ^ 31) :
    parseRecordKey (generateShadowKey key count) = (key, count) := by
  by_cases hz : count = 0
  · subst count
    exact parseRecordKey_of_not_hasSeparator h
  · have hb : (generateShadowKey key count).bytes =
        key.bytes ++ suffixSeparator ++ decimal count.toNat := by
      rw [bytes_generateShadowKey hc, shadowText_of_pos _ (toNat_pos_of_ne_zero hz)]
    rw [parseRecordKey_of_suffix h hb, atoi_decimal hc, UInt32.ofNat_toNat]

end Meguro
