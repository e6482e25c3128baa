import Meguro.ShadowKey.ShadowKeyMap

/-!
# Loading does not depend on the file's order

What `load` makes of a map output is a function of the set of its record keys.
`ReadsAs` says, apart from the code, what a record key stands for: the text in
front of its first separator with the number behind it, or the whole key with 0.
The loaded map has exactly the roots of the record keys, each once, with the
largest number read for it; only the order of its keys follows the file.
-/

namespace Meguro

/-- A separator stands at this place of a record key: before and after it. -/
def SplitsAt (key : CString) (before after : List UInt8) : Prop :=
  key.bytes = before ++ suffixSeparator ++ after

/-- A record key stands for a root with a count. -/
inductive ReadsAs (key : CString) : CString → UInt32 → Prop
  | whole : ¬ HasSeparator key → ReadsAs key key 0
  | split {root : CString} {after : List UInt8} : SplitsAt key root.bytes after →
      (∀ before' after', SplitsAt key before' after' → root.bytes.length ≤ before'.length) →
      ReadsAs key root (atoi after).toUInt32

theorem hasSeparator_of_splitsAt {key : CString} {before after : List UInt8}
    (h : SplitsAt key before after) : HasSeparator key := ⟨before, after, h.symm⟩

/-- The code's parse reads a record key as it is described. -/
theorem readsAs_parseRecordKey (key : CString) :
    ReadsAs key (parseRecordKey key).1 (parseRecordKey key).2 := by
  unfold parseRecordKey
  cases hs : Search.search suffixSeparator key.bytes with
  | none => exact .whole (Search.search_eq_none_iff.mp hs)
  | some suffix =>
    obtain ⟨before, after, hb, rfl, -⟩ := Search.search_eq_some (by decide) hs
    have hroot : (key.truncate (key.bytes.length - (suffixSeparator ++ after).length)).bytes =
        before := by
      simp [CString.truncate, hb]
    have hsplit : SplitsAt key before after := by rw [SplitsAt, hb, List.append_assoc]
    refine .split (hroot.symm ▸ hsplit) fun before' after' h' => ?_
    have hle := Search.length_le_of_search hs h'
    have hlen := congrArg List.length (hsplit.symm.trans h')
    rw [hroot]
    simp only [List.length_append] at hle hlen
    omega

/-- A record key is read in one way. -/
theorem ReadsAs.unique {key root root' : CString} {count count' : UInt32}
    (h : ReadsAs key root count) (h' : ReadsAs key root' count') :
    root = root' ∧ count = count' := by
  cases h with
  | whole hsep =>
    cases h' with
    | whole => exact ⟨rfl, rfl⟩
    | split hs => exact absurd (hasSeparator_of_splitsAt hs) hsep
  | @split _ after hs hfirst =>
    cases h' with
    | whole hsep => exact absurd (hasSeparator_of_splitsAt hs) hsep
    | @split _ after' hs' hfirst' =>
      have hle := hfirst _ _ hs'
      have hle' := hfirst' _ _ hs
      have hsplit := hs.symm.trans hs'
      rw [List.append_assoc, List.append_assoc] at hsplit
      obtain ⟨hroot, hrest⟩ := List.append_inj hsplit (by omega)
      obtain ⟨-, rfl⟩ := List.append_inj hrest rfl
      exact ⟨CString.ext hroot, rfl⟩

theorem readsAs_iff {key root : CString} {count : UInt32} :
    ReadsAs key root count ↔ parseRecordKey key = (root, count) := by
  constructor
  · intro h
    obtain ⟨hroot, hcount⟩ := (readsAs_parseRecordKey key).unique h
    exact Prod.ext hroot hcount
  · intro h
    have hread := readsAs_parseRecordKey key
    rwa [h] at hread

/-- A map holds the largest count of every root of these record keys. -/
structure HoldsMaxima (recordKeys : Finset CString) (map : ShadowKeyMap) : Prop where
  /-- The keys are the roots. -/
  keys : ∀ root, root ∈ map.keys ↔ ∃ key ∈ recordKeys, ∃ count, ReadsAs key root count
  /-- Each key is present once. -/
  nodup : map.keys.Nodup
  /-- No key contains the separator. -/
  noSeparator : ∀ root ∈ map.keys, ¬ HasSeparator root
  /-- The count of a key is read from one of its record keys. -/
  attained : ∀ root ∈ map.keys, ∃ key ∈ recordKeys, ReadsAs key root (map.keyCount root)
  /-- No record key of a root has a larger count. -/
  bounds : ∀ key ∈ recordKeys, ∀ root count, ReadsAs key root count → count ≤ map.keyCount root

theorem holdsMaxima_loadKeys (order : List CString) :
    HoldsMaxima order.toFinset (loadKeys order) := by
  have hcount : ∀ root ∈ (loadKeys order).keys,
      (loadKeys order).find? root = some ((loadKeys order).keyCount root) := by
    intro root hroot
    obtain ⟨count, hfind⟩ := OrderedMap.mem_keys_iff.mp hroot
    rw [ShadowKeyMap.keyCount, hfind]
    rfl
  refine ⟨fun root => ?_, (loadKeys order).nodup_keys,
    fun _ => not_hasSeparator_of_mem_loadKeys,
    fun root hroot => ?_, fun key hkey root count h => ?_⟩
  · rw [mem_keys_loadKeys]
    constructor
    · rintro ⟨key, hkey, rfl⟩
      exact ⟨key, List.mem_toFinset.mpr hkey, _, readsAs_parseRecordKey key⟩
    · rintro ⟨key, hkey, count, h⟩
      exact ⟨key, List.mem_toFinset.mp hkey, congrArg Prod.fst (readsAs_iff.mp h)⟩
  · obtain ⟨key, hkey, hparse⟩ := (find?_loadKeys (hcount root hroot)).1
    exact ⟨key, List.mem_toFinset.mpr hkey, readsAs_iff.mpr hparse⟩
  · rw [readsAs_iff] at h
    have hmem := List.mem_toFinset.mp hkey
    have hroot : root ∈ (loadKeys order).keys :=
      mem_keys_loadKeys.mpr ⟨key, hmem, congrArg Prod.fst h⟩
    have hle := (find?_loadKeys (hcount root hroot)).2 key hmem (congrArg Prod.fst h)
    rwa [h] at hle

/-- The maxima of a set of record keys determine the map up to its order. -/
theorem HoldsMaxima.find?_eq {recordKeys : Finset CString} {map map' : ShadowKeyMap}
    (h : HoldsMaxima recordKeys map) (h' : HoldsMaxima recordKeys map') (root : CString) :
    map.find? root = map'.find? root := by
  by_cases hroot : root ∈ map.keys
  · have hroot' : root ∈ map'.keys := (h'.keys root).mpr ((h.keys root).mp hroot)
    obtain ⟨count, hfind⟩ := OrderedMap.mem_keys_iff.mp hroot
    obtain ⟨count', hfind'⟩ := OrderedMap.mem_keys_iff.mp hroot'
    have hcount : map.keyCount root = count := by rw [ShadowKeyMap.keyCount, hfind]; rfl
    have hcount' : map'.keyCount root = count' := by rw [ShadowKeyMap.keyCount, hfind']; rfl
    obtain ⟨key, hkey, hread⟩ := h.attained root hroot
    obtain ⟨key', hkey', hread'⟩ := h'.attained root hroot'
    have hle := h'.bounds key hkey root _ hread
    have hle' := h.bounds key' hkey' root _ hread'
    rw [hfind, hfind', ← hcount, ← hcount', UInt32.le_antisymm hle hle']
  · have hroot' : root ∉ map'.keys := fun hmem => hroot ((h.keys root).mpr ((h'.keys root).mp hmem))
    rw [OrderedMap.mem_keys_iff, not_exists] at hroot hroot'
    rw [Option.eq_none_iff_forall_ne_some.mpr hroot, Option.eq_none_iff_forall_ne_some.mpr hroot']

/-- Whatever order a file lists its record keys in, `load` ends with the same
counts: the largest one of each root. -/
theorem load_anyOrder (recordKeys : Finset CString) (order order' : List CString)
    (hlists : order.toFinset = recordKeys) (hlists' : order'.toFinset = recordKeys) :
    ∃ map map', load (.records order) = .ok map ∧ load (.records order') = .ok map' ∧
      HoldsMaxima recordKeys map ∧ HoldsMaxima recordKeys map' ∧
      (∀ root, map.find? root = map'.find? root ∧ map.keyCount root = map'.keyCount root) ∧
      map.keys.Perm map'.keys := by
  subst hlists
  have hmax := holdsMaxima_loadKeys order
  have hmax' := holdsMaxima_loadKeys order'
  rw [hlists'] at hmax'
  refine ⟨_, _, rfl, rfl, hmax, hmax', fun root => ⟨hmax.find?_eq hmax' root, ?_⟩, ?_⟩
  · rw [ShadowKeyMap.keyCount, hmax.find?_eq hmax' root]
    rfl
  · rw [List.perm_ext_iff_of_nodup hmax.nodup hmax'.nodup]
    exact fun root => (hmax.keys root).trans (hmax'.keys root).symm

/-- A base key listed between two of its shadow keys, and listed after them. -/
theorem load_anyOrder_threeKeys : ∃ map map',
    load (.records [.ofLiteral "a|m2", .ofLiteral "a", .ofLiteral "a|m1"]) = .ok map ∧
      load (.records [.ofLiteral "a|m1", .ofLiteral "a|m2", .ofLiteral "a"]) = .ok map' ∧
      HoldsMaxima {.ofLiteral "a", .ofLiteral "a|m1", .ofLiteral "a|m2"} map ∧
      HoldsMaxima {.ofLiteral "a", .ofLiteral "a|m1", .ofLiteral "a|m2"} map' ∧
      (∀ root, map.find? root = map'.find? root ∧ map.keyCount root = map'.keyCount root) ∧
      map.keys.Perm map'.keys :=
  load_anyOrder _ _ _ (by decide) (by decide)

end Meguro
