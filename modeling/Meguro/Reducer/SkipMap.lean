import Meguro.Reducer.Direct
import Mathlib.Data.List.Pairwise

/-!
# Reducing an existing map output

With `--skip-map` the shadow key map is rebuilt from the record keys of the file
and the driver runs on it. On any file a record reaches its root's pair exactly
when its key is the shadow key of what `load` reads from it, so each record is
delivered at most once and the ones with a non-canonical suffix are dropped. On
the file of a complete map phase the rebuilt map leads to the pairs of the
original process exactly when no emitted key contains the separator.
-/

namespace Meguro

open Transition Occurrence LastWrite MapperState

variable {V : Type*}

/-! ## The records the lookups find -/

/-- The record keys found by the lookups of a root with this bound, in order. -/
def foundKeys (records : Records V) (root : CString) (n : Nat) : List CString :=
  ((List.range (n + 1)).map fun i => generateShadowKey root (UInt32.ofNat i)).filter (· ∈ records)

theorem mem_foundKeys {records : Records V} {root : CString} {n : Nat} {s : CString} :
    s ∈ foundKeys records root n ↔
      s ∈ records ∧ ∃ i ≤ n, generateShadowKey root (UInt32.ofNat i) = s := by
  simp [foundKeys, and_comm]

/-- The values of a pair are those of the found records. -/
theorem valuesUpTo_eq_foundKeys (records : Records V) (root : CString) (n : Nat) :
    valuesUpTo records root n = (foundKeys records root n).filterMap records.lookup := by
  rw [valuesUpTo, foundKeys, List.filterMap_filter, List.filterMap_map]
  refine List.filterMap_congr fun i _ => ?_
  simp only [Function.comp_apply, decide_eq_true_eq]
  split
  · rfl
  · rename_i h
    exact Finmap.lookup_eq_none.mpr h

/-- A root without the separator is read back from each of its shadow keys. -/
theorem parseRecordKey_ofNat {root : CString} (h : ¬ HasSeparator root) {i : Nat}
    (hi : i < 2 ^ 31) : parseRecordKey (generateShadowKey root (UInt32.ofNat i)) =
      (root, UInt32.ofNat i) :=
  parseRecordKey_generateShadowKey h (by rw [toNat_ofNat_of_lt hi]; exact hi)

/-- Found keys follow each other with increasing counts. -/
theorem pairwise_foundKeys (records : Records V) {root : CString} (h : ¬ HasSeparator root)
    {n : Nat} (hn : n < 2 ^ 31) : (foundKeys records root n).Pairwise fun s t =>
      (parseRecordKey s).2 < (parseRecordKey t).2 := by
  refine List.Pairwise.filter _ (List.pairwise_map.mpr ?_)
  refine List.Pairwise.imp_of_mem ?_ List.pairwise_lt_range
  intro i j hi hj hij
  rw [List.mem_range] at hi hj
  rw [parseRecordKey_ofNat h (by omega), parseRecordKey_ofNat h (by omega),
    UInt32.lt_iff_toNat_lt, toNat_ofNat_of_lt (by omega), toNat_ofNat_of_lt (by omega)]
  exact hij

/-! ## Exactly which records are delivered -/

/-- What the driver delivers of a file whose map was loaded from it: `found root`
are the record keys whose values make up the list of a root. -/
structure DeliversCanonical (map : ShadowKeyMap) (records : Records V)
    (found : CString → List CString) : Prop where
  /-- One pair for each root, holding the values of its found records. -/
  enqueues : Enqueues map records 0
    (map.keys.map fun root => ⟨root, (found root).filterMap records.lookup⟩)
  /-- The roots are those of the records, each once. -/
  roots : ∀ root, root ∈ map.keys ↔ ∃ s ∈ records, (parseRecordKey s).1 = root
  rootsOnce : map.keys.Nodup
  /-- A record is delivered to a root exactly when it is read as belonging to
  that root and its key is the shadow key of what is read from it. -/
  delivered : ∀ root ∈ map.keys, ∀ s, s ∈ found root ↔ s ∈ records ∧
    (parseRecordKey s).1 = root ∧ s = generateShadowKey root (parseRecordKey s).2
  /-- No record is placed twice. -/
  atMostOnce : (map.keys.flatMap found).Nodup
  /-- Each list is ordered by increasing count. -/
  ordered : ∀ root ∈ map.keys,
    (found root).Pairwise fun s t => (parseRecordKey s).2 < (parseRecordKey t).2

section LoadedFile

variable {order : List CString} {records : Records V}

/-- The count loaded for a root, as an entry of the map. -/
theorem entry_of_loadKeys {e : CString × UInt32} (he : e ∈ (loadKeys order).entries) :
    (loadKeys order).keyCount e.1 = e.2 ∧ (∃ s ∈ order, parseRecordKey s = e) ∧
      ∀ s ∈ order, (parseRecordKey s).1 = e.1 → (parseRecordKey s).2 ≤ e.2 := by
  have hfind := OrderedMap.find?_eq_some_iff.mpr he
  obtain ⟨hsome, hmax⟩ := find?_loadKeys hfind
  exact ⟨by rw [ShadowKeyMap.keyCount, hfind]; rfl, hsome, hmax⟩

theorem exists_entry_of_mem_keys {map : ShadowKeyMap} {root : CString} (h : root ∈ map.keys) :
    ∃ count, (root, count) ∈ map.entries := by
  obtain ⟨count, hcount⟩ := OrderedMap.mem_keys_iff.mp h
  exact ⟨count, OrderedMap.find?_eq_some_iff.mp hcount⟩

/-- The lookups of a root find exactly its canonical records. -/
theorem mem_foundKeys_loaded (hlists : Lists order records) {root count : _}
    (he : (root, count) ∈ (loadKeys order).entries) (hcount : count.toNat < 2 ^ 31) {s : CString} :
    s ∈ foundKeys records root count.toNat ↔ s ∈ records ∧ (parseRecordKey s).1 = root ∧
      s = generateShadowKey root (parseRecordKey s).2 := by
  have hsep : ¬ HasSeparator root :=
    not_hasSeparator_of_mem_loadKeys (List.mem_map.mpr ⟨_, he, rfl⟩)
  rw [mem_foundKeys]
  constructor
  · rintro ⟨hs, i, hi, rfl⟩
    rw [parseRecordKey_ofNat hsep (by omega)]
    exact ⟨hs, rfl, rfl⟩
  · rintro ⟨hs, hroot, hcanonical⟩
    refine ⟨hs, (parseRecordKey s).2.toNat, ?_, ?_⟩
    · exact UInt32.le_iff_toNat_le.mp
        ((entry_of_loadKeys he).2.2 s ((hlists.2 s).mpr hs) hroot)
    · rw [UInt32.ofNat_toNat]
      exact hcanonical.symm

/-- The record keys that give a root its values after `load`. -/
def foundLoaded (order : List CString) (records : Records V) (root : CString) : List CString :=
  foundKeys records root ((loadKeys order).keyCount root).toNat

/-- An entry of the loaded map, with the keys found for it and its bound. -/
theorem exists_entry_loaded (records : Records V) {root : CString}
    (hroot : root ∈ (loadKeys order).keys)
    (hcount : ∀ s ∈ order, (parseRecordKey s).2.toNat < 2 ^ 31) :
    ∃ count, (root, count) ∈ (loadKeys order).entries ∧ count.toNat < 2 ^ 31 ∧
      foundLoaded order records root = foundKeys records root count.toNat := by
  obtain ⟨count, he⟩ := exists_entry_of_mem_keys hroot
  obtain ⟨hkey, ⟨s, hs, hparse⟩, -⟩ := entry_of_loadKeys he
  refine ⟨count, he, ?_, by rw [foundLoaded, hkey]⟩
  have hlt := hcount s hs
  rwa [hparse] at hlt

theorem mem_foundLoaded (hlists : Lists order records)
    (hcount : ∀ s ∈ order, (parseRecordKey s).2.toNat < 2 ^ 31) {root : CString}
    (hroot : root ∈ (loadKeys order).keys) (s : CString) :
    s ∈ foundLoaded order records root ↔ s ∈ records ∧ (parseRecordKey s).1 = root ∧
      s = generateShadowKey root (parseRecordKey s).2 := by
  obtain ⟨count, he, hlt, hfound⟩ := exists_entry_loaded records hroot hcount
  rw [hfound]
  exact mem_foundKeys_loaded hlists he hlt

theorem pairwise_foundLoaded (hcount : ∀ s ∈ order, (parseRecordKey s).2.toNat < 2 ^ 31)
    {root : CString} (hroot : root ∈ (loadKeys order).keys) :
    (foundLoaded order records root).Pairwise fun s t =>
      (parseRecordKey s).2 < (parseRecordKey t).2 := by
  obtain ⟨count, he, hlt, hfound⟩ := exists_entry_loaded records hroot hcount
  rw [hfound]
  exact pairwise_foundKeys records (not_hasSeparator_of_mem_loadKeys hroot) hlt

/-- A record is found once for its root, and for no other root. -/
theorem nodup_foundLoaded (hlists : Lists order records)
    (hcount : ∀ s ∈ order, (parseRecordKey s).2.toNat < 2 ^ 31) :
    ((loadKeys order).keys.flatMap (foundLoaded order records)).Nodup := by
  rw [List.nodup_flatMap]
  constructor
  · intro root hroot
    refine List.Pairwise.imp ?_ (pairwise_foundLoaded hcount hroot)
    rintro s _ hlt rfl
    exact UInt32.lt_irrefl _ hlt
  · refine List.Pairwise.imp_of_mem ?_ (loadKeys order).nodup_keys
    intro root root' hroot hroot' hne
    rw [Function.onFun, List.disjoint_left]
    intro s hs hs'
    obtain ⟨-, rfl, -⟩ := (mem_foundLoaded hlists hcount hroot s).mp hs
    exact hne ((mem_foundLoaded hlists hcount hroot' s).mp hs').2.1

/-- The driver enqueues what it finds for each root. -/
theorem enqueues_loaded (hcount : ∀ s ∈ order, (parseRecordKey s).2.toNat < 2 ^ 31) :
    Enqueues (loadKeys order) records 0 ((loadKeys order).keys.map fun root =>
      ⟨root, (foundLoaded order records root).filterMap records.lookup⟩) := by
  have hsmall : ∀ e ∈ (loadKeys order).entries, e.2.toNat < 2 ^ 31 := by
    intro e he
    obtain ⟨-, ⟨s, hs, rfl⟩, -⟩ := entry_of_loadKeys he
    exact hcount s hs
  have hyields := enqueues_uncapped records hsmall
  rw [(loadKeys order).entries_eq_map_keys fun e he => (entry_of_loadKeys he).1,
    List.map_map] at hyields
  simp only [foundLoaded, ← valuesUpTo_eq_foundKeys]
  exact hyields

/-- Loading a file and reducing it delivers exactly its canonical records. -/
theorem load_delivers_canonical (hlists : Lists order records)
    (hcount : ∀ s ∈ order, (parseRecordKey s).2.toNat < 2 ^ 31) :
    ∃ map found, load (.records order) = .ok map ∧ DeliversCanonical map records found := by
  refine ⟨loadKeys order, foundLoaded order records, rfl, ?_⟩
  refine ⟨enqueues_loaded hcount, fun root => ?_, (loadKeys order).nodup_keys,
    fun _ => mem_foundLoaded hlists hcount, nodup_foundLoaded hlists hcount,
    fun _ => pairwise_foundLoaded hcount⟩
  rw [mem_keys_loadKeys]
  exact exists_congr fun s => and_congr_left fun _ => hlists.2 s

end LoadedFile

/-- A file with a canonical record of two roots and two records no list gets. -/
def mixedFile : List (CString × CString) :=
  [(.ofLiteral "a|mfoo", .ofLiteral "1"), (.ofLiteral "b", .ofLiteral "2"),
    (.ofLiteral "a|m3", .ofLiteral "3"), (.ofLiteral "b|m01", .ofLiteral "4")]

theorem load_delivers_mixedFile :
    ∃ map found, load (.records (mixedFile.map Prod.fst)) = .ok map ∧
      DeliversCanonical map (writes ∅ mixedFile) found :=
  load_delivers_canonical (lists_writes (by decide)) (by decide)

/-! ## Agreement with the process that wrote the file -/

/-- Rebuilding the map from the file and reducing it enqueues the same pairs as
reducing with the map in memory. -/
def SkipMapAgrees (map : ShadowKeyMap) (records : Records V) (order : List CString) : Prop :=
  ∃ loaded direct skipped, load (.records order) = .ok loaded ∧ Enqueues map records 0 direct ∧
    Enqueues loaded records 0 skipped ∧ ∀ pair, pair ∈ direct ↔ pair ∈ skipped

/-- A separator in a key of the map is fatal: no loaded root contains one. -/
theorem SkipMapAgrees.not_hasSeparator {map : ShadowKeyMap} {records : Records V}
    {order : List CString} (h : SkipMapAgrees map records order) (key : CString)
    (hkey : key ∈ map.keys) : ¬ HasSeparator key := by
  obtain ⟨loaded, direct, skipped, hload, hdirect, hskipped, hsame⟩ := h
  cases hload
  rw [← hdirect.map_key] at hkey
  obtain ⟨pair, hpair, rfl⟩ := List.mem_map.mp hkey
  have hloaded : pair.key ∈ (loadKeys order).keys := by
    rw [← hskipped.map_key]
    exact List.mem_map.mpr ⟨pair, (hsame pair).mp hpair, rfl⟩
  exact not_hasSeparator_of_mem_loadKeys hloaded

section CompleteRun

variable {τ : Type*} [DecidableEq τ] {ls : List (MapperLabel τ)} {s : MapperState τ}
  {order : List CString}

/-- A file whose records were put once each may be listed in the order of the puts. -/
theorem lists_landed (hrun : run step start ls = some s)
    (hnodup : ((landed ls).map Prod.fst).Nodup) :
    Lists ((landed ls).map Prod.fst) s.mapOut.records := by
  rw [run_records hrun]
  exact lists_writes hnodup

/-- The record keys of a complete run are the shadow keys below the counts. -/
theorem mem_records_iff (hrun : run step start ls = some s) (hemits : SuccessfulEmits ls)
    (hdone : s.AllDone) {recordKey : CString} : recordKey ∈ s.mapOut.records ↔
      ∃ key j, j < (emittedKeys ls).count key ∧
        generateShadowKey key (UInt32.ofNat j) = recordKey := by
  rw [run_records hrun, mem_writes_empty, (landedKeys_perm hrun hemits hdone).mem_iff,
    issuedKeys, List.mem_map]
  constructor
  · rintro ⟨⟨key, j⟩, hj, rfl⟩
    exact ⟨key, j, mem_ranked.mp hj, rfl⟩
  · rintro ⟨key, j, hj, rfl⟩
    exact ⟨(key, j), mem_ranked.mpr hj, rfl⟩

/-- Without separators in the emitted keys, every record is read as it was written. -/
theorem parse_of_mem_order (hrun : run step start ls = some s) (hemits : SuccessfulEmits ls)
    (hdone : s.AllDone) (hcount : ∀ key, (emittedKeys ls).count key < 2 ^ 31)
    (hsep : ∀ key ∈ emittedKeys ls, ¬ HasSeparator key) (hlists : Lists order s.mapOut.records)
    {t : CString} : t ∈ order ↔ ∃ key j, j < (emittedKeys ls).count key ∧
      generateShadowKey key (UInt32.ofNat j) = t ∧ parseRecordKey t = (key, UInt32.ofNat j) := by
  rw [hlists.2, mem_records_iff hrun hemits hdone]
  constructor
  · rintro ⟨key, j, hj, rfl⟩
    have hlt := hcount key
    have hkey : key ∈ emittedKeys ls := List.count_pos_iff.mp (by omega)
    exact ⟨key, j, hj, rfl, parseRecordKey_ofNat (hsep key hkey) (by omega)⟩
  · rintro ⟨key, j, hj, ht, -⟩
    exact ⟨key, j, hj, ht⟩

/-- The largest count read for a key is the one of its last emit. -/
theorem entry_of_loaded_run (hrun : run step start ls = some s) (hemits : SuccessfulEmits ls)
    (hdone : s.AllDone) (hcount : ∀ key, (emittedKeys ls).count key < 2 ^ 31)
    (hsep : ∀ key ∈ emittedKeys ls, ¬ HasSeparator key) (hlists : Lists order s.mapOut.records)
    {e : CString × UInt32} (he : e ∈ (loadKeys order).entries) :
    e.2.toNat + 1 = (emittedKeys ls).count e.1 := by
  have horder {t : CString} :=
    parse_of_mem_order hrun hemits hdone hcount hsep hlists (t := t)
  obtain ⟨-, ⟨t, ht, rfl⟩, hmax⟩ := entry_of_loadKeys he
  obtain ⟨key, j, hj, -, hparse⟩ := horder.mp ht
  rw [hparse] at hmax ⊢
  have hlt := hcount key
  have hkey : key ∈ emittedKeys ls := List.count_pos_iff.mp (by omega)
  -- the last shadow key of the key is a record too, and is not read higher
  have hlast : parseRecordKey (generateShadowKey key
      (UInt32.ofNat ((emittedKeys ls).count key - 1))) =
        (key, UInt32.ofNat ((emittedKeys ls).count key - 1)) :=
    parseRecordKey_ofNat (hsep key hkey) (by omega)
  have hle := hmax _ (horder.mpr ⟨key, _, by omega, rfl, hlast⟩) (by rw [hlast])
  rw [hlast, UInt32.le_iff_toNat_le, toNat_ofNat_of_lt (by omega),
    toNat_ofNat_of_lt (by omega)] at hle
  change (UInt32.ofNat j).toNat + 1 = (emittedKeys ls).count key
  rw [toNat_ofNat_of_lt (by omega)]
  omega

/-- Without separators in the emitted keys, loading the file recovers the count
of every key. -/
theorem mem_entries_loadKeys_iff (hrun : run step start ls = some s) (hemits : SuccessfulEmits ls)
    (hdone : s.AllDone) (hcount : ∀ key, (emittedKeys ls).count key < 2 ^ 31)
    (hsep : ∀ key ∈ emittedKeys ls, ¬ HasSeparator key) (hlists : Lists order s.mapOut.records)
    {e : CString × UInt32} :
    e ∈ (loadKeys order).entries ↔ e ∈ s.shadowKeyMap.entries := by
  constructor
  · intro he
    have hn := entry_of_loaded_run hrun hemits hdone hcount hsep hlists he
    rw [← OrderedMap.find?_eq_some_iff, run_shadowKeyMap hrun, find?_incrementAll,
      if_neg (by omega), ← hn, Nat.add_sub_cancel, UInt32.ofNat_toNat]
  · intro he
    have hn := entry_of_run hrun he (hcount e.1)
    have hkey : e.1 ∈ emittedKeys ls := List.count_pos_iff.mp (by omega)
    have hzero : parseRecordKey (generateShadowKey e.1 (UInt32.ofNat 0)) =
        (e.1, UInt32.ofNat 0) :=
      parseRecordKey_ofNat (hsep e.1 hkey) (by decide)
    have hmem : generateShadowKey e.1 (UInt32.ofNat 0) ∈ order :=
      (parse_of_mem_order hrun hemits hdone hcount hsep hlists).mpr
        ⟨e.1, 0, by omega, rfl, hzero⟩
    obtain ⟨count, hentry⟩ : ∃ count, (e.1, count) ∈ (loadKeys order).entries :=
      exists_entry_of_mem_keys (mem_keys_loadKeys.mpr ⟨_, hmem, by rw [hzero]⟩)
    have hsame : count.toNat + 1 = (emittedKeys ls).count e.1 :=
      entry_of_loaded_run hrun hemits hdone hcount hsep hlists hentry
    have hcounts : count = e.2 := UInt32.toNat_inj.mp (by omega)
    rwa [hcounts] at hentry

/-- Keys without separators are reduced alike from the file and from memory. -/
theorem skipMapAgrees_of_not_hasSeparator (hrun : run step start ls = some s)
    (hemits : SuccessfulEmits ls) (hdone : s.AllDone)
    (hcount : ∀ key, (emittedKeys ls).count key < 2 ^ 31)
    (hsep : ∀ key ∈ emittedKeys ls, ¬ HasSeparator key) (hlists : Lists order s.mapOut.records) :
    SkipMapAgrees s.shadowKeyMap s.mapOut.records order := by
  have hentries {e : CString × UInt32} :=
    mem_entries_loadKeys_iff hrun hemits hdone hcount hsep hlists (e := e)
  have hsmall := entry_lt_of_run hrun hcount
  refine ⟨loadKeys order, _, _, rfl, enqueues_uncapped _ hsmall,
    enqueues_uncapped _ fun e he => hsmall e (hentries.mp he), fun pair => ?_⟩
  rw [List.mem_map, List.mem_map]
  exact exists_congr fun e => and_congr_left fun _ => hentries.symm

/-- After a complete run of emits, a later run that skips the map phase agrees
with the direct one exactly when no emitted key contains the separator. -/
theorem skipMapAgrees_iff_not_hasSeparator (hrun : run step start ls = some s)
    (hemits : SuccessfulEmits ls) (hdone : s.AllDone)
    (hcount : ∀ key, (emittedKeys ls).count key < 2 ^ 31)
    (hlists : Lists order s.mapOut.records) :
    SkipMapAgrees s.shadowKeyMap s.mapOut.records order ↔
      ∀ key ∈ emittedKeys ls, ¬ HasSeparator key := by
  constructor
  · intro h key hkey
    apply h.not_hasSeparator key
    rw [run_shadowKeyMap hrun, keys_incrementAll]
    exact List.mem_eraseDups.mpr hkey
  · intro hsep
    exact skipMapAgrees_of_not_hasSeparator hrun hemits hdone hcount hsep hlists

end CompleteRun

/-- A single emit whose key contains the separator. -/
def separatorRun : List (MapperLabel Bool) := emitAlone false "x|mfoo" "1" "x|mfoo"

theorem separatorRun_isSome : (run step start separatorRun).isSome = true := by decide

/-- Loaded from the file, the one record of this run belongs to the root `x`. -/
theorem not_skipMapAgrees_separatorRun :
    ¬ ∀ (ls : List (MapperLabel Bool)) (s : MapperState Bool) (order : List CString),
      run step start ls = some s → SuccessfulEmits ls → s.AllDone →
        (∀ key, (emittedKeys ls).count key < 2 ^ 31) → Lists order s.mapOut.records →
          SkipMapAgrees s.shadowKeyMap s.mapOut.records order := by
  intro h
  have hagrees := h separatorRun ((run step start separatorRun).get separatorRun_isSome)
    ((landed separatorRun).map Prod.fst) (Option.some_get _).symm (by decide) (by decide)
    (fun key => List.count_le_length.trans_lt (by decide))
    (lists_landed (Option.some_get _).symm (by decide))
  exact hagrees.not_hasSeparator (.ofLiteral "x|mfoo") (by decide) (by decide)

theorem skipMapAgrees_overlappingRun :
    SkipMapAgrees ((run step start overlappingRun).get overlappingRun_isSome).shadowKeyMap
        ((run step start overlappingRun).get overlappingRun_isSome).mapOut.records
        ((landed overlappingRun).map Prod.fst) ↔
      ∀ key ∈ emittedKeys overlappingRun, ¬ HasSeparator key :=
  skipMapAgrees_iff_not_hasSeparator (Option.some_get _).symm (by decide) (by decide)
    (fun key => List.count_le_length.trans_lt (by decide))
    (lists_landed (Option.some_get _).symm (by decide))

end Meguro
