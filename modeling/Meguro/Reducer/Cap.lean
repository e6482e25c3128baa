import Meguro.Reducer.Direct

/-!
# The cap on the values of a key

The bound of the inner loop is the smaller of the stored count, one less than
the number of emits, and the low 32 bits of the cap, and the loop includes its
bound. A capped key therefore gets one value more than the cap, and a cap of
2^32 or more acts as its remainder. The list has the promised length exactly
when the key was not emitted more often than the cap allows, up to one emit more
where the cap has lost its high bits.
-/

namespace Meguro

open Generator Transition Occurrence LastWrite MapperState

/-- A list holds at most `cap` of the values of a key: the first ones emitted. -/
structure CappedValues {τ : Type*} (ls : List (MapperLabel τ)) (cap : Nat) (key : CString)
    (valueList : List CString) : Prop where
  length : valueList.length = min ((emittedKeys ls).count key) cap
  first : valueList <+: ((emits ls).filter (·.key = key)).map Emit.value

/-- The inner loop ends for this key with a list that the cap bounds, and a
driver that ends enqueues this list for the key and no other. -/
def CapHolds {τ : Type*} (ls : List (MapperLabel τ)) (s : MapperState τ) (capAmount : UInt64)
    (key : CString) : Prop :=
  ∃ valueList, CappedValues ls capAmount.toNat key valueList ∧
    (∃ count, (key, count) ∈ s.shadowKeyMap.entries ∧
      PairOf s.mapOut.records capAmount (key, count) ⟨key, valueList⟩) ∧
    ∀ pairs, Enqueues s.shadowKeyMap s.mapOut.records capAmount pairs →
      pairs.filter (·.key = key) = [⟨key, valueList⟩]

/-- The bound leaves room for `n` values and no more than the cap allows: a cap
below 2^32 is not reached, a larger one keeps enough in its low 32 bits. -/
def CapFits (capAmount : UInt64) (n : Nat) : Prop :=
  (capAmount.toNat < 2 ^ 32 ∧ n ≤ capAmount.toNat) ∨
    (2 ^ 32 ≤ capAmount.toNat ∧ n ≤ capAmount.toNat % 2 ^ 32 + 1)

instance (capAmount : UInt64) (n : Nat) : Decidable (CapFits capAmount n) :=
  inferInstanceAs (Decidable (_ ∧ _ ∨ _ ∧ _))

/-- With a cap the bound is the smaller of the count and the cap's low 32 bits. -/
theorem toNat_maxKeyCount (count : UInt32) {capAmount : UInt64} (hcap : 0 < capAmount) :
    (maxKeyCount count capAmount).toNat = min count.toNat (capAmount.toNat % 2 ^ 32) := by
  rw [maxKeyCount, if_pos hcap]
  change (if count ≤ capAmount.toUInt32 then count else capAmount.toUInt32).toNat = _
  have hlow : capAmount.toUInt32.toNat = capAmount.toNat % 2 ^ 32 := rfl
  split
  · rename_i hle
    rw [UInt32.le_iff_toNat_le] at hle
    omega
  · rename_i hle
    rw [UInt32.le_iff_toNat_le] at hle
    omega

/-! ## The pair of a key -/

section Pairs

variable {V : Type*} {map : ShadowKeyMap} {records : Records V} {capAmount : UInt64}

/-- An entry determines its pair. -/
theorem PairOf.unique {e : CString × UInt32} {pair pair' : KeyValueListPair V}
    (h : PairOf records capAmount e pair) (h' : PairOf records capAmount e pair') :
    pair = pair' := by
  obtain ⟨key, valueList⟩ := pair
  obtain ⟨key', valueList'⟩ := pair'
  obtain ⟨rfl, found, hfound, rfl⟩ := h
  obtain ⟨rfl, found', hfound', rfl⟩ := h'
  rw [hfound.unique hfound']

/-- A driver that ends enqueues the pair of every entry. -/
theorem Enqueues.mem_of_entry {pairs : List (KeyValueListPair V)}
    (h : Enqueues map records capAmount pairs) {e : CString × UInt32} (he : e ∈ map.entries)
    {pair : KeyValueListPair V} (hpair : PairOf records capAmount e pair) : pair ∈ pairs := by
  have hpairs := h.forall₂
  clear h
  generalize map.entries = es at he hpairs
  induction hpairs with
  | nil => cases he
  | cons hhead _ ih =>
    rcases List.mem_cons.mp he with rfl | he
    · exact List.mem_cons.mpr (Or.inl (hpair.unique hhead))
    · exact List.mem_cons_of_mem _ (ih he)

/-- A driver that ends enqueues no other pair for the key of an entry. -/
theorem Enqueues.filter_key {pairs : List (KeyValueListPair V)}
    (h : Enqueues map records capAmount pairs) {e : CString × UInt32} (he : e ∈ map.entries)
    {pair : KeyValueListPair V} (hpair : PairOf records capAmount e pair) :
    pairs.filter (·.key = e.1) = [pair] := by
  have hmem := h.mem_of_entry he hpair
  have hkeys : (pairs.map KeyValueListPair.key).Nodup := h.map_key ▸ map.nodup
  apply List.perm_singleton.mp
  rw [List.perm_ext_iff_of_nodup (hkeys.of_map.filter _) (List.nodup_singleton pair)]
  intro p
  rw [List.mem_filter, List.mem_singleton, decide_eq_true_eq]
  constructor
  · rintro ⟨hp, hkey⟩
    exact List.inj_on_of_nodup_map hkeys hp hmem (hkey.trans hpair.1.symm)
  · rintro rfl
    exact ⟨hmem, hpair.1⟩

/-- Below the largest bound an entry has a pair, with the values up to its bound. -/
theorem pairOf_valuesUpTo (records : Records V) {e : CString × UInt32}
    (h : maxKeyCount e.2 capAmount ≠ 0xFFFFFFFF) : PairOf records capAmount e
      ⟨e.1, valuesUpTo records e.1 (maxKeyCount e.2 capAmount).toNat⟩ :=
  ⟨rfl, _, yields_lookups records e.1 h, (reduceOption_lookups ..).symm⟩

end Pairs

section CompleteRun

variable {τ : Type*} [DecidableEq τ] {ls : List (MapperLabel τ)} {s : MapperState τ}

/-- With a cap, a key that owns its shadow keys gets its first values up to the
inclusive bound. -/
theorem pairOf_capped (hrun : run step start ls = some s) (hdone : s.AllDone) {key : CString}
    (hlt : (emittedKeys ls).count key < 2 ^ 31) (hown : OwnsShadowKeys ls key)
    {capAmount : UInt64} (hcap : 0 < capAmount) {count : UInt32}
    (he : (key, count) ∈ s.shadowKeyMap.entries) :
    PairOf s.mapOut.records capAmount (key, count)
      ⟨key, (((emits ls).filter (·.key = key)).map Emit.value).take
        (min ((emittedKeys ls).count key) (capAmount.toNat % 2 ^ 32 + 1))⟩ := by
  have hcount : count.toNat + 1 = (emittedKeys ls).count key := entry_of_run hrun he hlt
  have hbound := toNat_maxKeyCount count hcap
  have hmax : maxKeyCount count capAmount ≠ 0xFFFFFFFF := by
    intro h
    have hval : (maxKeyCount count capAmount).toNat = 2 ^ 32 - 1 := congrArg UInt32.toNat h
    omega
  have hpair := pairOf_valuesUpTo s.mapOut.records (e := (key, count)) hmax
  dsimp only at hpair
  rw [valuesUpTo_of_ownsShadowKeys hrun hdone hlt hown (by omega)] at hpair
  rwa [show min ((emittedKeys ls).count key) (capAmount.toNat % 2 ^ 32 + 1) =
    (maxKeyCount count capAmount).toNat + 1 by omega]

/-- For a key that was emitted and owns its shadow keys, the cap keeps its
promise exactly when it fits the number of emits. -/
theorem capHolds_iff_capFits (hrun : run step start ls = some s) (hdone : s.AllDone)
    {key : CString} (hpos : 0 < (emittedKeys ls).count key)
    (hlt : (emittedKeys ls).count key < 2 ^ 31) (hown : OwnsShadowKeys ls key)
    {capAmount : UInt64} (hcap : 0 < capAmount) :
    CapHolds ls s capAmount key ↔ CapFits capAmount ((emittedKeys ls).count key) := by
  have hlen := length_emits_of_key hrun key
  have hlow : capAmount.toNat % 2 ^ 32 ≤ capAmount.toNat := Nat.mod_le _ _
  have hcapNat : 0 < capAmount.toNat := UInt64.lt_iff_toNat_lt.mp hcap
  constructor
  · rintro ⟨valueList, hbounds, ⟨count, he, hpair⟩, -⟩
    have hlist := congrArg KeyValueListPair.valueList
      (hpair.unique (pairOf_capped hrun hdone hlt hown hcap he))
    have hlength := congrArg List.length hlist
    rw [hbounds.length, List.length_take, List.length_map, hlen] at hlength
    rw [CapFits]
    omega
  · intro hfits
    have hfind : s.shadowKeyMap.find? key =
        some (UInt32.ofNat ((emittedKeys ls).count key - 1)) := by
      rw [run_shadowKeyMap hrun, find?_incrementAll, if_neg (Nat.ne_of_gt hpos)]
    have he := OrderedMap.find?_eq_some_iff.mp hfind
    have hpair := pairOf_capped hrun hdone hlt hown hcap he
    refine ⟨_, ⟨?_, List.take_prefix ..⟩, ⟨_, he, hpair⟩,
      fun pairs hpairs => hpairs.filter_key he hpair⟩
    rw [List.length_take, List.length_map, hlen]
    rw [CapFits] at hfits
    omega

end CompleteRun

/-- Two threads emit `hello` twice, and a cap of one leaves both values. -/
theorem not_capHolds_overlappingRun :
    ¬ ∀ (ls : List (MapperLabel Bool)) (s : MapperState Bool) (key : CString)
      (capAmount : UInt64), run step start ls = some s → s.AllDone →
        0 < (emittedKeys ls).count key → (emittedKeys ls).count key < 2 ^ 31 →
        OwnsShadowKeys ls key → 0 < capAmount → CapHolds ls s capAmount key := by
  intro h
  obtain ⟨valueList, hbounds, ⟨count, he, hpair⟩, -⟩ := h overlappingRun
    ((run step start overlappingRun).get overlappingRun_isSome) (.ofLiteral "hello") 1
    (Option.some_get _).symm (by decide) (by decide) (by decide)
    ⟨by decide, by decide⟩ (by decide)
  have hlist := hpair.unique (pairOf_capped (Option.some_get overlappingRun_isSome).symm
    (by decide) (by decide) ⟨by decide, by decide⟩ (by decide) he)
  have hlength := congrArg (fun p => p.valueList.length) hlist
  rw [hbounds.length] at hlength
  exact absurd hlength (by decide)

/-- The same two emits under a cap of two. -/
theorem capHolds_overlappingRun :
    CapHolds overlappingRun ((run step start overlappingRun).get overlappingRun_isSome) 2
        (.ofLiteral "hello") ↔
      CapFits 2 ((emittedKeys overlappingRun).count (.ofLiteral "hello")) :=
  capHolds_iff_capFits (Option.some_get _).symm (by decide) (by decide) (by decide)
    ⟨by decide, by decide⟩ (by decide)

end Meguro
