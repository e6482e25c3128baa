import Meguro.Mapper.Emit

/-!
# Which emits keep their own record

Shadow keys keep the emits of one key apart, and the emits of two keys too,
unless a key that is emitted itself reads as a shadow key that another emitted
key is issued. A complete run of emits loses nothing exactly when there is no
such key: the emit of `a|m1` and the second emit of `a` share one record.
-/

namespace Meguro

open Decimal Transition Occurrence LastWrite MapperState

/-- No emitted key is the text of a shadow key that these emits issue to another
key: a key, the separator and a positive number smaller than its emit count. -/
def NoLookalike (keys : List CString) : Prop :=
  ∀ key ∈ keys, ∀ root count, 0 < count → count < keys.count root →
    key.bytes ≠ root.bytes ++ suffixSeparator ++ decimal count

/-- The shadow keys issued to a sequence of emitted keys. -/
def issuedKeys (keys : List CString) : List CString :=
  (ranked keys).map fun p => generateShadowKey p.1 (UInt32.ofNat p.2)

theorem toNat_ofNat_of_lt {n : Nat} (h : n < 2 ^ 31) : (UInt32.ofNat n).toNat = n := by
  rw [UInt32.toNat_ofNat']
  omega

/-- Below 2^31 two counts of two keys share a shadow key exactly as their texts do. -/
theorem generateShadowKey_ofNat_eq_iff {k k' : CString} {i j : Nat} (hi : i < 2 ^ 31)
    (hj : j < 2 ^ 31) :
    generateShadowKey k (UInt32.ofNat i) = generateShadowKey k' (UInt32.ofNat j) ↔
      shadowText k.bytes i = shadowText k'.bytes j := by
  have hi' := toNat_ofNat_of_lt hi
  have hj' := toNat_ofNat_of_lt hj
  rw [generateShadowKey_eq_iff (by omega) (by omega), hi', hj']

/-- The issued shadow keys are distinct exactly when no emitted key looks like one of them. -/
theorem nodup_issuedKeys_iff {keys : List CString} (hcount : ∀ key, keys.count key < 2 ^ 31) :
    (issuedKeys keys).Nodup ↔ NoLookalike keys := by
  rw [issuedKeys, nodup_names_iff fun key j => generateShadowKey key (UInt32.ofNat j)]
  constructor
  · intro h key hkey root count hpos hlt he
    have hroot := hcount root
    have hsame : generateShadowKey key (UInt32.ofNat 0) =
        generateShadowKey root (UInt32.ofNat count) := by
      rw [generateShadowKey_ofNat_eq_iff (by decide) (by omega), shadowText_of_pos _ hpos]
      exact he
    obtain ⟨-, hzero⟩ := h key 0 root count (List.count_pos_iff.mpr hkey) hlt hsame
    omega
  · intro h k i k' j hi hj he
    have hk := hcount k
    have hk' := hcount k'
    rw [generateShadowKey_ofNat_eq_iff (by omega) (by omega)] at he
    rcases shadowText_eq he with ⟨hkk, hij⟩ | ⟨rfl, hpos, htext⟩ | ⟨rfl, hpos, htext⟩
    · exact ⟨CString.ext hkk, hij⟩
    · rw [shadowText_of_pos _ hpos] at htext
      exact False.elim (h k (List.count_pos_iff.mp hi) k' j hpos hj htext)
    · rw [shadowText_of_pos _ hpos] at htext
      exact False.elim (h k' (List.count_pos_iff.mp hj) k i hpos hi htext)

/-- What it means that a complete run of emits loses nothing. -/
structure NoEmitLost {τ : Type*} [DecidableEq τ] (ls : List (MapperLabel τ))
    (s : MapperState τ) : Prop where
  /-- No put lands on a record that is already there. -/
  noOverwrite : ∀ past future thread recordKey value ok t,
    ls = past ++ .put thread recordKey value ok :: future → run step start past = some t →
      recordKey ∉ t.mapOut.records
  /-- There are as many records as emits. -/
  recordCount : s.mapOut.records.keys.card = (emits ls).length
  /-- Every emitted value is stored under the shadow key it was issued. -/
  stored : ∀ e ∈ emits ls, s.mapOut.records.lookup e.shadowKey = some e.value

section CompleteRun

variable {τ : Type*} [DecidableEq τ] {ls : List (MapperLabel τ)} {s : MapperState τ}

/-- The keys that landed are the issued shadow keys, in some order. -/
theorem landedKeys_perm (hrun : run step start ls = some s) (hemits : SuccessfulEmits ls)
    (hdone : s.AllDone) : ((landed ls).map Prod.fst).Perm (issuedKeys (emittedKeys ls)) := by
  have h := (landed_perm hrun hemits hdone).map Prod.fst
  rw [List.map_map] at h
  rw [issuedKeys, ← run_shadowKeys hrun]
  exact h

/-- There are as many records as emits exactly when the issued shadow keys are distinct. -/
theorem recordCount_iff (hrun : run step start ls = some s) (hemits : SuccessfulEmits ls)
    (hdone : s.AllDone) : s.mapOut.records.keys.card = (emits ls).length ↔
      (issuedKeys (emittedKeys ls)).Nodup := by
  have hlen : (landed ls).length = (emits ls).length := by
    simpa using (landed_perm hrun hemits hdone).length_eq
  rw [run_records hrun, ← hlen, card_writes_empty_iff]
  exact (landedKeys_perm hrun hemits hdone).nodup_iff

/-- Distinct shadow keys keep every emitted value. -/
theorem noEmitLost_of_nodup (hrun : run step start ls = some s) (hemits : SuccessfulEmits ls)
    (hdone : s.AllDone) (hn : (issuedKeys (emittedKeys ls)).Nodup) : NoEmitLost ls s := by
  have hland := (landedKeys_perm hrun hemits hdone).nodup_iff.mpr hn
  refine ⟨?_, (recordCount_iff hrun hemits hdone).mpr hn, ?_⟩
  · rintro past future thread recordKey value ok t rfl hpast
    obtain rfl : ok = true := hemits (.put thread recordKey value ok) (by simp)
    rw [run_records hpast, mem_writes_empty]
    have hsplit : landed (past ++ .put thread recordKey value true :: future) =
        landed past ++ (recordKey, value) :: landed future := landed_append ..
    rw [hsplit, List.map_append, List.nodup_append] at hland
    intro hmem
    exact hland.2.2 recordKey hmem recordKey (by simp) rfl
  · intro e he
    rw [run_records hrun, lookup_writes_empty]
    refine lastValue_of_nodup hland ((landed_perm hrun hemits hdone).mem_iff.mpr ?_)
    exact List.mem_map.mpr ⟨e, he, rfl⟩

/-- A complete run of successful emits loses nothing exactly when no emitted key
looks like a shadow key of another. -/
theorem noEmitLost_iff_noLookalike (hrun : run step start ls = some s)
    (hemits : SuccessfulEmits ls) (hdone : s.AllDone)
    (hcount : ∀ key, (emittedKeys ls).count key < 2 ^ 31) :
    NoEmitLost ls s ↔ NoLookalike (emittedKeys ls) := by
  rw [← nodup_issuedKeys_iff hcount]
  exact ⟨fun h => (recordCount_iff hrun hemits hdone).mp h.recordCount,
    noEmitLost_of_nodup hrun hemits hdone⟩

end CompleteRun

/-! ## A run that loses an emit, and one that does not -/

/-- An emit of a thread and its put, with nothing in between. -/
def emitAlone {τ : Type*} (thread : τ) (key value shadowKey : String) : List (MapperLabel τ) :=
  [.emitLocked thread (.ofLiteral key) (.ofLiteral value) (.ofLiteral shadowKey),
    .put thread (.ofLiteral shadowKey) (.ofLiteral value) true]

/-- Two threads emit `a` twice and then `a|m1`. -/
def lookalikeRun : List (MapperLabel Bool) :=
  emitAlone false "a" "1" "a" ++ emitAlone true "a" "2" "a|m1" ++ emitAlone false "a|m1" "3" "a|m1"

theorem lookalikeRun_isSome : (run step start lookalikeRun).isSome = true := by decide

/-- The emit of `a|m1` replaces the record of the second emit of `a`. -/
theorem not_noEmitLost_lookalikeRun :
    ¬ ∀ (ls : List (MapperLabel Bool)) (s : MapperState Bool),
      run step start ls = some s → SuccessfulEmits ls → s.AllDone →
        (∀ key, (emittedKeys ls).count key < 2 ^ 31) → NoEmitLost ls s := by
  intro h
  have hlost := h lookalikeRun ((run step start lookalikeRun).get lookalikeRun_isSome)
    (Option.some_get _).symm (by decide) (by decide)
    (fun key => List.count_le_length.trans_lt (by decide))
  exact absurd hlost.recordCount (by decide)

/-- Two threads emit `hello` and overlap: the second put lands first. -/
def overlappingRun : List (MapperLabel Bool) :=
  [.emitLocked false (.ofLiteral "hello") (.ofLiteral "1") (.ofLiteral "hello"),
    .emitLocked true (.ofLiteral "hello") (.ofLiteral "2") (.ofLiteral "hello|m1"),
    .put true (.ofLiteral "hello|m1") (.ofLiteral "2") true,
    .put false (.ofLiteral "hello") (.ofLiteral "1") true]

theorem overlappingRun_isSome : (run step start overlappingRun).isSome = true := by decide

theorem noEmitLost_overlappingRun :
    NoEmitLost overlappingRun ((run step start overlappingRun).get overlappingRun_isSome) ↔
      NoLookalike (emittedKeys overlappingRun) :=
  noEmitLost_iff_noLookalike (Option.some_get _).symm (by decide) (by decide)
    (fun key => List.count_le_length.trans_lt (by decide))

end Meguro
