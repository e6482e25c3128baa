import Meguro.Mapper.NoLoss
import Meguro.Reducer.Begin

/-!
# What reduce receives from the map phase that filled the map

The driver derives every record key again from the final counts alone. Every
shadow key below a count was issued and its put has landed, so a key that was
emitted `n` times gets `n` values, each from the last put that landed under its
shadow key. Undisturbed by other keys these are the emitted values in the order
of the locked increments, whatever order the puts landed in.
-/

namespace Meguro

open Transition Occurrence LastWrite MapperState

/-- What the pair of a key holds after a complete run of emits. -/
structure Delivered {τ : Type*} (ls : List (MapperLabel τ))
    (pair : KeyValueListPair CString) : Prop where
  /-- One value for each emit of the key. -/
  length : pair.valueList.length = (emittedKeys ls).count pair.key
  /-- Entry `j` is the value of the last put to land under the shadow key with count `j`. -/
  entry : ∀ j < (emittedKeys ls).count pair.key,
    pair.valueList[j]? = lastValue (landed ls) (generateShadowKey pair.key (UInt32.ofNat j))
  /-- Unless another key was issued one of these shadow keys, the values are
  the key's emitted values in the order of its locked increments. -/
  undisturbed :
    (∀ e ∈ emits ls, e.key ≠ pair.key → ∀ j < (emittedKeys ls).count pair.key,
      e.shadowKey ≠ generateShadowKey pair.key (UInt32.ofNat j)) →
    pair.valueList = ((emits ls).filter (·.key = pair.key)).map Emit.value

/-- Only the emits of a key write its shadow keys, and their puts succeed. -/
structure OwnsShadowKeys {τ : Type*} (ls : List (MapperLabel τ)) (key : CString) : Prop where
  /-- A put left under one of them comes from an emit of the key. -/
  own : ∀ l ∈ ls, ∀ j < (emittedKeys ls).count key,
    l.request?.map (·.2.1) = some (generateShadowKey key (UInt32.ofNat j)) →
      l.emit?.map Emit.key = some key
  /-- A put made under one of them lands. -/
  lands : ∀ l ∈ ls, ∀ j < (emittedKeys ls).count key,
    l.attempt?.map (·.2.1) = some (generateShadowKey key (UInt32.ofNat j)) → l.land?.isSome

section Ownership

variable {τ : Type*} {ls : List (MapperLabel τ)}

/-- In a run of successful emits a key owns the shadow keys that no other key is issued. -/
theorem ownsShadowKeys_of_emits (hemits : SuccessfulEmits ls) {key : CString}
    (halone : ∀ e ∈ emits ls, e.key ≠ key → ∀ j < (emittedKeys ls).count key,
      e.shadowKey ≠ generateShadowKey key (UInt32.ofNat j)) : OwnsShadowKeys ls key := by
  refine ⟨fun l hl j hj hk => ?_, fun l hl j hj hk => ?_⟩
  · cases l with
    | emitLocked thread k value shadowKey =>
      have he : ⟨k, value, shadowKey⟩ ∈ emits ls := List.mem_filterMap.mpr ⟨_, hl, rfl⟩
      have hkey : k = key := by
        by_contra hne
        exact halone _ he hne j hj (Option.some.inj hk)
      exact congrArg some hkey
    | setLocked => exact False.elim (hemits _ hl)
    | put => cases hk
  · cases l with
    | emitLocked | setLocked => cases hk
    | put thread recordKey value ok =>
      obtain rfl : ok = true := hemits _ hl
      rfl

/-- What landed under an owned shadow key was emitted for the key. -/
theorem OwnsShadowKeys.emit_of_landed {key : CString} (hown : OwnsShadowKeys ls key)
    (hperm : (attempts ls).Perm (requests ls)) {j : Nat} (hj : j < (emittedKeys ls).count key)
    {w : CString × CString} (hw : w ∈ landed ls)
    (hk : w.1 = generateShadowKey key (UInt32.ofNat j)) :
    ∃ e ∈ emits ls, e.key = key ∧ (e.shadowKey, e.value) = w := by
  obtain ⟨l, hl, hland⟩ := List.mem_filterMap.mp hw
  have hattempt : ∃ thread, l.attempt? = some (thread, w) := by
    cases l with
    | emitLocked | setLocked => cases hland
    | put thread recordKey value ok =>
      cases ok with
      | false => cases hland
      | true => exact ⟨thread, congrArg (fun x => some (thread, x)) (Option.some.inj hland)⟩
  obtain ⟨thread, hattempt⟩ := hattempt
  have hrequest := hperm.mem_iff.mp (List.mem_filterMap.mpr ⟨l, hl, hattempt⟩)
  obtain ⟨m, hm, hmw⟩ := List.mem_filterMap.mp hrequest
  have hemit := hown.own m hm j hj (by rw [hmw, ← hk]; rfl)
  cases m with
  | emitLocked t k value shadowKey =>
    refine ⟨⟨k, value, shadowKey⟩, List.mem_filterMap.mpr ⟨_, hm, rfl⟩, Option.some.inj hemit, ?_⟩
    exact congrArg Prod.snd (Option.some.inj hmw)
  | setLocked | put => cases hemit

/-- The put of an emit under an owned shadow key has landed. -/
theorem OwnsShadowKeys.landed_of_emit {key : CString} (hown : OwnsShadowKeys ls key)
    (hperm : (attempts ls).Perm (requests ls)) {j : Nat} (hj : j < (emittedKeys ls).count key)
    {e : Emit} (he : e ∈ emits ls) (hk : e.shadowKey = generateShadowKey key (UInt32.ofNat j)) :
    (e.shadowKey, e.value) ∈ landed ls := by
  obtain ⟨l, hl, hemit⟩ := List.mem_filterMap.mp he
  have hrequest : ∃ thread, l.request? = some (thread, e.shadowKey, e.value) := by
    cases l with
    | emitLocked thread k value shadowKey =>
      obtain rfl := Option.some.inj hemit
      exact ⟨thread, rfl⟩
    | setLocked | put => cases hemit
  obtain ⟨thread, hrequest⟩ := hrequest
  have hattempt := hperm.mem_iff.mpr (List.mem_filterMap.mpr ⟨l, hl, hrequest⟩)
  obtain ⟨m, hm, hmw⟩ := List.mem_filterMap.mp hattempt
  have hland := hown.lands m hm j hj (by rw [hmw, ← hk]; rfl)
  cases m with
  | emitLocked | setLocked => cases hmw
  | put t recordKey value ok =>
    cases ok with
    | false => cases hland
    | true =>
      refine List.mem_filterMap.mpr ⟨_, hm, ?_⟩
      exact congrArg some (congrArg Prod.snd (Option.some.inj hmw))

end Ownership

section CompleteRun

variable {τ : Type*} [DecidableEq τ] {ls : List (MapperLabel τ)} {s : MapperState τ}

/-- The count of an entry is one less than the number of emits of its key. -/
theorem entry_of_run (hrun : run step start ls = some s) {e : CString × UInt32}
    (he : e ∈ s.shadowKeyMap.entries) (hlt : (emittedKeys ls).count e.1 < 2 ^ 31) :
    e.2.toNat + 1 = (emittedKeys ls).count e.1 := by
  have hfind := OrderedMap.find?_eq_some_iff.mpr he
  rw [run_shadowKeyMap hrun, find?_incrementAll] at hfind
  split at hfind
  · cases hfind
  · rw [← Option.some.inj hfind, toNat_ofNat_of_lt (by omega)]
    omega

theorem entry_lt_of_run (hrun : run step start ls = some s)
    (hcount : ∀ key, (emittedKeys ls).count key < 2 ^ 31) :
    ∀ e ∈ s.shadowKeyMap.entries, e.2.toNat < 2 ^ 31 := by
  intro e he
  have hlt := hcount e.1
  have hentry := entry_of_run hrun he hlt
  omega

/-- Every shadow key below the count of a key has been issued, and its put has landed. -/
theorem mem_landed_of_lt (hrun : run step start ls = some s) (hemits : SuccessfulEmits ls)
    (hdone : s.AllDone) {key : CString} {j : Nat} (hj : j < (emittedKeys ls).count key) :
    generateShadowKey key (UInt32.ofNat j) ∈ (landed ls).map Prod.fst := by
  rw [(landedKeys_perm hrun hemits hdone).mem_iff, issuedKeys, List.mem_map]
  exact ⟨(key, j), mem_ranked.mpr hj, rfl⟩

/-- The emits of a key, with the shadow keys they were issued. -/
theorem map_emits_of_key (hrun : run step start ls = some s) (key : CString) :
    ((emits ls).filter (·.key = key)).map Emit.shadowKey =
      (List.range ((emittedKeys ls).count key)).map fun j =>
        generateShadowKey key (UInt32.ofNat j) := by
  have h := congrArg (fun ps => (ps.filter (·.1 = key)).map Prod.snd) (run_issued hrun)
  simp only [List.filter_map, List.map_map] at h
  have hr : (ranked (emittedKeys ls)).filter ((fun p => decide (p.1 = key)) ∘
      fun p => (p.1, generateShadowKey p.1 (UInt32.ofNat p.2))) =
      (List.range ((emittedKeys ls).count key)).map (key, ·) := filter_ranked _ _
  rw [hr, List.map_map] at h
  exact h

theorem length_emits_of_key (hrun : run step start ls = some s) (key : CString) :
    ((emits ls).filter (·.key = key)).length = (emittedKeys ls).count key := by
  simpa using congrArg List.length (map_emits_of_key hrun key)

/-- The `j`-th emit of a key is issued the shadow key with count `j`. -/
theorem shadowKey_of_emit (hrun : run step start ls = some s) {key : CString} {j : Nat}
    (hj : j < ((emits ls).filter (·.key = key)).length) :
    ((emits ls).filter (·.key = key))[j].shadowKey = generateShadowKey key (UInt32.ofNat j) := by
  have hlen := length_emits_of_key hrun key
  have hget := congrArg (fun l => l[j]?) (map_emits_of_key hrun key)
  simpa [hj, show j < (emittedKeys ls).count key by omega] using hget

/-- The put that lands under the `j`-th of a key's own shadow keys carries the
value of its `j`-th emit. -/
theorem lastValue_of_ownsShadowKeys (hrun : run step start ls = some s) (hdone : s.AllDone)
    {key : CString} (hlt : (emittedKeys ls).count key < 2 ^ 31) (hown : OwnsShadowKeys ls key)
    {j : Nat} (hj : j < (emittedKeys ls).count key) :
    lastValue (landed ls) (generateShadowKey key (UInt32.ofNat j)) =
      (((emits ls).filter (·.key = key)).map Emit.value)[j]? := by
  have hperm := attempts_perm_requests hrun hdone
  have hlen := length_emits_of_key hrun key
  have hjl : j < ((emits ls).filter (·.key = key)).length := by omega
  have hjk := shadowKey_of_emit hrun hjl
  have hjmem := List.mem_filter.mp (List.getElem_mem hjl)
  have hland := hown.landed_of_emit hperm hj hjmem.1 hjk
  rw [List.getElem?_map, List.getElem?_eq_getElem hjl, Option.map_some]
  apply lastValue_of_agree (List.mem_map.mpr ⟨_, hland, hjk⟩)
  intro w hw hwk
  obtain ⟨e, he, hkey, rfl⟩ := hown.emit_of_landed hperm hj hw hwk
  have hmem : e ∈ (emits ls).filter (·.key = key) := by simp [he, hkey]
  obtain ⟨i, hi, rfl⟩ := List.getElem_of_mem hmem
  -- the shadow keys of one key differ, so the put is the one of the `j`-th emit
  have hij : shadowText key.bytes i = shadowText key.bytes j := by
    rw [← generateShadowKey_ofNat_eq_iff (by omega) (by omega), ← shadowKey_of_emit hrun hi]
    exact hwk
  obtain rfl : i = j := by
    rcases shadowText_eq hij with ⟨-, h⟩ | ⟨-, hpos, h⟩ | ⟨-, hpos, h⟩
    · exact h
    · exact absurd (length_lt_of_shadowText hpos h) (Nat.lt_irrefl _)
    · exact absurd (length_lt_of_shadowText hpos h) (Nat.lt_irrefl _)
  rfl

/-- Looking up the first shadow keys a key owns gives the first values emitted for it. -/
theorem valuesUpTo_of_ownsShadowKeys (hrun : run step start ls = some s) (hdone : s.AllDone)
    {key : CString} (hlt : (emittedKeys ls).count key < 2 ^ 31) (hown : OwnsShadowKeys ls key)
    {n : Nat} (hn : n < (emittedKeys ls).count key) : valuesUpTo s.mapOut.records key n =
      (((emits ls).filter (·.key = key)).map Emit.value).take (n + 1) := by
  have hlen := length_emits_of_key hrun key
  have hlookup : ∀ i < n + 1, s.mapOut.records.lookup (generateShadowKey key (UInt32.ofNat i)) =
      (((emits ls).filter (·.key = key)).map Emit.value)[i]? := by
    intro i hi
    rw [run_records hrun, lookup_writes_empty,
      lastValue_of_ownsShadowKeys hrun hdone hlt hown (by omega)]
  have hsome : ∀ i < n + 1,
      (s.mapOut.records.lookup (generateShadowKey key (UInt32.ofNat i))).isSome := by
    intro i hi
    rw [hlookup i hi, List.getElem?_eq_getElem (by rw [List.length_map]; omega)]
    rfl
  obtain ⟨hfound, hget⟩ := filterMap_range_of_isSome hsome
  apply List.ext_getElem?
  intro i
  by_cases hi : i < n + 1
  · rw [valuesUpTo, hget i hi, hlookup i hi, List.getElem?_take_of_lt hi]
  · rw [List.getElem?_eq_none (by rw [valuesUpTo, hfound]; omega),
      List.getElem?_eq_none (by rw [List.length_take]; omega)]

/-- The values of a key after a complete run of emits. -/
theorem delivered_valuesUpTo (hrun : run step start ls = some s) (hemits : SuccessfulEmits ls)
    (hdone : s.AllDone) (hcount : ∀ key, (emittedKeys ls).count key < 2 ^ 31) {key : CString}
    {n : Nat} (hn : n + 1 = (emittedKeys ls).count key) :
    Delivered ls ⟨key, valuesUpTo s.mapOut.records key n⟩ := by
  have hlookup : ∀ i, s.mapOut.records.lookup (generateShadowKey key (UInt32.ofNat i)) =
      lastValue (landed ls) (generateShadowKey key (UInt32.ofNat i)) := by
    intro i
    rw [run_records hrun, lookup_writes_empty]
  have hsome : ∀ i < n + 1,
      (s.mapOut.records.lookup (generateShadowKey key (UInt32.ofNat i))).isSome := by
    intro i hi
    rw [hlookup, Option.isSome_iff_ne_none, ne_eq, lastValue_eq_none_iff, not_not]
    exact mem_landed_of_lt hrun hemits hdone (by omega)
  obtain ⟨hlen, hget⟩ := filterMap_range_of_isSome hsome
  have hentry : ∀ j < (emittedKeys ls).count key, (valuesUpTo s.mapOut.records key n)[j]? =
      lastValue (landed ls) (generateShadowKey key (UInt32.ofNat j)) := by
    intro j hj
    rw [valuesUpTo, hget j (by omega), hlookup]
  refine ⟨hlen.trans hn, hentry, fun halone => ?_⟩
  have hown := ownsShadowKeys_of_emits hemits halone
  have hvalues := length_emits_of_key hrun key
  rw [valuesUpTo_of_ownsShadowKeys hrun hdone (hcount key) hown (by omega)]
  exact List.take_of_length_le (by rw [List.length_map]; omega)

/-- What the driver enqueues after a complete run of emits. -/
theorem delivered_of_enqueues (hrun : run step start ls = some s) (hemits : SuccessfulEmits ls)
    (hdone : s.AllDone) (hcount : ∀ key, (emittedKeys ls).count key < 2 ^ 31)
    {pairs : List (KeyValueListPair CString)}
    (h : Enqueues s.shadowKeyMap s.mapOut.records 0 pairs) :
    pairs.map KeyValueListPair.key = (emittedKeys ls).eraseDups ∧
      ∀ pair ∈ pairs, Delivered ls pair := by
  constructor
  · rw [h.map_key, run_shadowKeyMap hrun, keys_incrementAll]
  · intro pair hpair
    rw [h.unique (enqueues_uncapped _ (entry_lt_of_run hrun hcount))] at hpair
    obtain ⟨e, he, rfl⟩ := List.mem_map.mp hpair
    exact delivered_valuesUpTo hrun hemits hdone hcount (entry_of_run hrun he (hcount e.1))

/-- After a complete run of emits the driver enqueues one pair for each emitted
key, in the order of the first locked increments, and each pair holds exactly
what was put under the shadow keys of its key. -/
theorem begin_receives_emits (hrun : run step start ls = some s) (hemits : SuccessfulEmits ls)
    (hdone : s.AllDone) (hcount : ∀ key, (emittedKeys ls).count key < 2 ^ 31) :
    ∃ pairs, Enqueues s.shadowKeyMap s.mapOut.records 0 pairs ∧
      pairs.map KeyValueListPair.key = (emittedKeys ls).eraseDups ∧
      ∀ pair ∈ pairs, Delivered ls pair := by
  have hyields := enqueues_uncapped s.mapOut.records (entry_lt_of_run hrun hcount)
  exact ⟨_, hyields, delivered_of_enqueues hrun hemits hdone hcount hyields⟩

end CompleteRun

/-- Two overlapping emits of `hello` are delivered in the order of their
increments, although the second put landed first. -/
theorem begin_receives_overlappingRun :
    ∃ pairs, Enqueues ((run step start overlappingRun).get overlappingRun_isSome).shadowKeyMap
        ((run step start overlappingRun).get overlappingRun_isSome).mapOut.records 0 pairs ∧
      pairs.map KeyValueListPair.key = (emittedKeys overlappingRun).eraseDups ∧
      ∀ pair ∈ pairs, Delivered overlappingRun pair :=
  begin_receives_emits (Option.some_get _).symm (by decide) (by decide)
    (fun _ => List.count_le_length.trans_lt (by decide))

end Meguro
