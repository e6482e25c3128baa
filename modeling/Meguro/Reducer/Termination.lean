import Meguro.Reducer.SkipMap

/-!
# When the reduce driver ends

The bound of the lookups for a root is the largest count `load` reads for it,
lowered to the cap when one is set. A text that `atoi` reads as -1 becomes the
largest 32-bit count, which the inclusive comparison never exceeds. The driver
ends on every file without such a text, and on every file when a cap is set that
does not itself end in 32 one bits.
-/

namespace Meguro

open Generator LastWrite Search

variable {V : Type*}

/-- Every inner loop ends after one lookup more than its bound, and so the
driver ends, on the map loaded from a file. -/
structure DriverEnds (order : List CString) (records : Records V) (capAmount : UInt64) : Prop where
  loops : ∃ map, load (.records order) = .ok map ∧ ∀ e ∈ map.entries, ∃ found,
    Yields (lookupStep records e.1 (maxKeyCount e.2 capAmount)) 0 found ∧
      found.length = (maxKeyCount e.2 capAmount).toNat + 1
  driver : ∃ map pairs, load (.records order) = .ok map ∧ Enqueues map records capAmount pairs

/-- The cap keeps every bound below the largest 32-bit count. -/
def CapBounds (capAmount : UInt64) : Prop := 0 < capAmount ∧ capAmount.toUInt32 ≠ 0xFFFFFFFF

/-- The text after the first separator of a record key is read as -1. -/
def ReadsMinusOne (recordKey : CString) : Prop :=
  ∃ suffix, search suffixSeparator recordKey.bytes = some suffix ∧
    atoi (suffix.drop suffixSeparator.length) = -1

private theorem le_max (c : UInt32) : c ≤ 0xFFFFFFFF :=
  UInt32.le_iff_toNat_le.mpr (Nat.le_of_lt_succ c.toNat_lt)

theorem min_eq_max_iff (a b : UInt32) :
    min a b = 0xFFFFFFFF ↔ a = 0xFFFFFFFF ∧ b = 0xFFFFFFFF := by
  change (if a ≤ b then a else b) = _ ↔ _
  split
  · rename_i hle
    refine ⟨fun ha => ⟨ha, UInt32.le_antisymm (le_max b) (ha ▸ hle)⟩, fun h => h.1⟩
  · rename_i hlt
    refine ⟨fun hb => absurd (hb ▸ le_max a) hlt, fun h => h.2⟩

/-- The largest bound comes from a count that the cap does not lower. -/
theorem maxKeyCount_eq_max_iff (count : UInt32) (capAmount : UInt64) :
    maxKeyCount count capAmount = 0xFFFFFFFF ↔ count = 0xFFFFFFFF ∧ ¬ CapBounds capAmount := by
  rw [maxKeyCount, CapBounds]
  split
  · rename_i hcap
    rw [min_eq_max_iff, not_and, not_not]
    exact and_congr_right fun _ => ⟨fun h _ => h, fun h => h hcap⟩
  · rename_i hcap
    exact ⟨fun h => ⟨h, fun hcaps => hcap hcaps.1⟩, fun h => h.1⟩

/-- A record key is read with the largest count exactly when its text is -1. -/
theorem parseRecordKey_eq_max_iff (recordKey : CString) :
    (parseRecordKey recordKey).2 = 0xFFFFFFFF ↔ ReadsMinusOne recordKey := by
  rw [parseRecordKey, ReadsMinusOne]
  cases search suffixSeparator recordKey.bytes with
  | none =>
    constructor
    · intro h
      exact absurd (show (0 : UInt32) = 0xFFFFFFFF from h) (by decide)
    · rintro ⟨_, h, -⟩
      cases h
  | some suffix =>
    have hcast : ∀ i : Int32, i.toUInt32 = 0xFFFFFFFF ↔ i = -1 := fun i =>
      ⟨fun h => congrArg UInt32.toInt32 h, fun h => h ▸ rfl⟩
    simp [hcast]

/-- Some loaded count is the largest one exactly when some record key reads so. -/
theorem exists_entry_max_iff {order : List CString} :
    (∃ e ∈ (loadKeys order).entries, e.2 = 0xFFFFFFFF) ↔ ∃ s ∈ order, ReadsMinusOne s := by
  constructor
  · rintro ⟨e, he, hmax⟩
    obtain ⟨-, ⟨s, hs, rfl⟩, -⟩ := entry_of_loadKeys he
    exact ⟨s, hs, (parseRecordKey_eq_max_iff s).mp hmax⟩
  · rintro ⟨s, hs, hread⟩
    obtain ⟨count, he⟩ := exists_entry_of_mem_keys (mem_keys_loadKeys.mpr ⟨s, hs, rfl⟩)
    have hle := (entry_of_loadKeys he).2.2 s hs rfl
    rw [(parseRecordKey_eq_max_iff s).mpr hread] at hle
    exact ⟨_, he, UInt32.le_antisymm (le_max count) hle⟩

/-- A driver that ends meets the largest bound at no entry. -/
theorem DriverEnds.not_max {order : List CString} {records : Records V} {capAmount : UInt64}
    (h : DriverEnds order records capAmount) :
    ∀ e ∈ (loadKeys order).entries, maxKeyCount e.2 capAmount ≠ 0xFFFFFFFF := by
  obtain ⟨map, hload, hloops⟩ := h.loops
  obtain rfl : loadKeys order = map := Except.ok.inj hload
  intro e he
  exact (lookups_end_iff records e.1 _).mp (hloops e he)

/-- The driver ends on a file exactly when the cap bounds its lookups or no
record key of the file is read with the count -1. -/
theorem driverEnds_iff (order : List CString) (records : Records V) (capAmount : UInt64) :
    DriverEnds order records capAmount ↔
      CapBounds capAmount ∨ ∀ s ∈ order, ¬ ReadsMinusOne s := by
  have hbounds : (∀ e ∈ (loadKeys order).entries, maxKeyCount e.2 capAmount ≠ 0xFFFFFFFF) ↔
      CapBounds capAmount ∨ ∀ s ∈ order, ¬ ReadsMinusOne s := by
    rw [← not_iff_not]
    simp only [not_or, not_forall, not_not, ne_eq, maxKeyCount_eq_max_iff, exists_prop]
    rw [← exists_entry_max_iff, and_comm]
    exact ⟨fun ⟨e, he, hmax, hcap⟩ => ⟨⟨e, he, hmax⟩, hcap⟩,
      fun ⟨⟨e, he, hmax⟩, hcap⟩ => ⟨e, he, hmax, hcap⟩⟩
  rw [← hbounds]
  constructor
  · exact DriverEnds.not_max
  · intro h
    exact ⟨⟨_, rfl, fun e he => (lookups_end_iff records e.1 _).mpr (h e he)⟩,
      ⟨_, _, rfl, enqueues_of_bounds records h⟩⟩

/-- A file of one record whose text after the separator is -1. -/
def minusOneFile : List (CString × CString) := [(.ofLiteral "a|m-1", .ofLiteral "1")]

/-- Without a cap the driver looks up the shadow keys of `a` forever. -/
theorem not_driverEnds_minusOneFile :
    ¬ ∀ (order : List CString) (records : Records CString) (capAmount : UInt64),
      Lists order records → DriverEnds order records capAmount := by
  intro h
  have hends := h _ (writes ∅ minusOneFile) 0 (lists_writes (by decide))
  exact hends.not_max (.ofLiteral "a", 0xFFFFFFFF) (by decide) (by decide)

end Meguro
