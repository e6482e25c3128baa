import Meguro.ShadowKey.Buffer

/-!
# When decoding undoes encoding

Below 2^31 the parse of `load` undoes `generate_shadow_key` exactly on the keys
without the separator. Behind such a key the separator that was appended is the
first one, and the number behind it is read back, whole below 2^31 and as far as
the buffer kept it from there on. A key with the separator hides its counts: all
its shadow keys are read as the key itself.
-/

namespace Meguro

open Decimal Search

section Decoding

variable {key : CString} {count : UInt32}

/-- What stands behind another separator is not read. -/
theorem parseRecordKey_append {recordKey : CString} (h : HasSeparator key) {more : List UInt8}
    (hb : recordKey.bytes = key.bytes ++ suffixSeparator ++ more) :
    parseRecordKey recordKey = parseRecordKey key := by
  cases hs : search suffixSeparator key.bytes with
  | none => exact absurd h (search_eq_none_iff.mp hs)
  | some found =>
    obtain ⟨before, after, hbefore, rfl, -⟩ := search_eq_some (by decide) hs
    have hs' : search suffixSeparator recordKey.bytes =
        some (suffixSeparator ++ after ++ (suffixSeparator ++ more)) := by
      rw [hb, List.append_assoc]
      exact search_append (by decide) hs _
    have hread : atoi (after ++ (suffixSeparator ++ more)) = atoi after :=
      congrArg Int32.ofInt
        (strtol_append_cons (by decide) (by decide) (by decide) (by decide) after (109 :: more))
    unfold parseRecordKey
    rw [hs, hs']
    refine Prod.ext (CString.ext ?_) ?_
    · simp [CString.truncate, hb, hbefore]
    · change (atoi (after ++ (suffixSeparator ++ more))).toUInt32 = (atoi after).toUInt32
      rw [hread]

/-- The shadow keys of a key with the separator are all read as the key itself. -/
theorem parseRecordKey_generateShadowKey_of_hasSeparator (h : HasSeparator key)
    (count : UInt32) : parseRecordKey (generateShadowKey key count) = parseRecordKey key := by
  by_cases hz : count = 0
  · rw [hz, generateShadowKey_zero]
  · exact parseRecordKey_append h (bytes_of_ne_zero key hz)

/-- From 2^31 on the count is read back as far as the buffer kept it. -/
theorem parseRecordKey_generateShadowKey_of_ge (h : ¬ HasSeparator key)
    (hc : 2 ^ 31 ≤ count.toNat) : parseRecordKey (generateShadowKey key count) =
      (key, UInt32.ofNat (2 ^ 32 - keptDistance count)) := by
  obtain ⟨hpos, hle⟩ := keptDistance_bounds hc
  rw [parseRecordKey_of_suffix h (bytes_generateShadowKey_of_ge hc), atoi_minus_decimal hpos hle]

/-- A key that is read back has no separator. -/
theorem not_hasSeparator_of_parseRecordKey {recordKey : CString}
    (h : parseRecordKey recordKey = (key, count)) : ¬ HasSeparator key := by
  have hroot := not_hasSeparator_parseRecordKey recordKey
  rwa [h] at hroot

end Decoding

/-- Below 2^31 decoding undoes encoding exactly for the keys without the separator. -/
theorem parseRecordKey_generateShadowKey_iff (key : CString) {count : UInt32}
    (hc : count.toNat < 2 ^ 31) :
    parseRecordKey (generateShadowKey key count) = (key, count) ↔ ¬ HasSeparator key := by
  constructor
  · intro h
    exact not_hasSeparator_of_parseRecordKey h
  · intro h
    exact parseRecordKey_generateShadowKey h hc

/-- A key that ends in the first letter of the separator, at a count of two digits. -/
theorem parseRecordKey_generateShadowKey_bar :
    parseRecordKey (generateShadowKey (.ofLiteral "m7|") 12) = (.ofLiteral "m7|", 12) ↔
      ¬ HasSeparator (.ofLiteral "m7|") :=
  parseRecordKey_generateShadowKey_iff _ (by decide)

/-- Over all counts it does exactly where, in addition, the text was not cut. -/
theorem decodes_iff (key : CString) (count : UInt32) :
    parseRecordKey (generateShadowKey key count) = (key, count) ↔
      ¬ HasSeparator key ∧ (count.toNat < 2 ^ 31 ∨ 2 ^ 32 - count.toNat < 10 ^ 9) := by
  have hlt : count.toNat < 2 ^ 32 := count.toNat_lt
  by_cases hsep : HasSeparator key
  · refine iff_of_false (fun h => ?_) fun h => h.1 hsep
    exact not_hasSeparator_of_parseRecordKey h hsep
  · rcases Nat.lt_or_ge count.toNat (2 ^ 31) with hc | hc
    · exact iff_of_true (parseRecordKey_generateShadowKey hsep hc) ⟨hsep, Or.inl hc⟩
    · obtain ⟨hpos, hle⟩ := keptDistance_bounds hc
      rw [parseRecordKey_generateShadowKey_of_ge hsep hc, Prod.mk.injEq, ← UInt32.toNat_inj,
        UInt32.toNat_ofNat', Nat.mod_eq_of_lt (by omega)]
      unfold keptDistance
      dsimp only
      simp only [hsep, not_false_eq_true, true_and]
      split <;> omega

end Meguro
