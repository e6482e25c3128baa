import Meguro.Core.OrderedMap
import Meguro.ShadowKey.Codec

/-!
# The shadow key map

One 32-bit count per key, in the insertion order of the hash table's list: a
key's first increment stores 0 and each later one adds 1, so the stored count is
one less than the number of increments. `load` rebuilds such a map from the
record keys of a map output file. It keeps for each root the largest count it
reads, which does not depend on the order of the file.
-/

namespace Meguro

/-- The hash table `map_root_`: keys in insertion order, each with its count. -/
abbrev ShadowKeyMap := OrderedMap CString UInt32

/-- What an increment makes of the entry it finds. -/
def bump : Option UInt32 → UInt32
  | some count => count + 1
  | none => 0

/-- What `load` makes of the entry it finds for a record with this count. -/
def raise (newCount : UInt32) : Option UInt32 → UInt32
  | some count => if newCount > count then newCount else count
  | none => newCount

namespace ShadowKeyMap

/-- `ShadowKeyMap::increment`. -/
def increment (map : ShadowKeyMap) (key : CString) : ShadowKeyMap := map.upsert key bump

/-- `ShadowKeyMap::key_count`. -/
def keyCount (map : ShadowKeyMap) (key : CString) : UInt32 := (map.find? key).getD 0

/-- `ShadowKeyMap::increment_and_return_shadow_key`. -/
def incrementAndReturnShadowKey (map : ShadowKeyMap) (key : CString) : ShadowKeyMap × CString :=
  let map := increment map key
  (map, generateShadowKey key (keyCount map key))

/-- `ShadowKeyMap::current_shadow_key`. -/
def currentShadowKey (map : ShadowKeyMap) (key : CString) : CString :=
  generateShadowKey key (keyCount map key)

/-- `ShadowKeyMap::size`. -/
def size (map : ShadowKeyMap) : Nat := map.entries.length

/-- Returning the shadow key of an increment is incrementing, then asking for the current one. -/
theorem incrementAndReturnShadowKey_eq (map : ShadowKeyMap) (key : CString) :
    incrementAndReturnShadowKey map key =
      (increment map key, currentShadowKey (increment map key) key) := rfl

end ShadowKeyMap

/-! ## Increments -/

/-- The map after one increment for each key of a list, from the empty map. -/
def incrementAll (keys : List CString) : ShadowKeyMap :=
  keys.foldl ShadowKeyMap.increment OrderedMap.empty

theorem incrementAll_eq_collect (keys : List CString) :
    incrementAll keys = OrderedMap.collect id (fun _ => bump) OrderedMap.empty keys := rfl

theorem incrementAll_snoc (keys : List CString) (key : CString) :
    incrementAll (keys ++ [key]) = (incrementAll keys).increment key :=
  List.foldl_append

/-- The map lists the keys in the order of their first increments. -/
theorem keys_incrementAll (keys : List CString) : (incrementAll keys).keys = keys.eraseDups := by
  rw [incrementAll_eq_collect, OrderedMap.keys_collect_empty, List.map_id]

theorem foldl_bump {α : Type*} (xs : List α) :
    xs.foldl (fun v _ => some (bump v)) (none : Option UInt32) =
      if xs.length = 0 then none else some (UInt32.ofNat (xs.length - 1)) := by
  induction xs using List.reverseRecOn with
  | nil => rfl
  | append_singleton xs x ih =>
    rw [List.foldl_append, ih]
    rcases Nat.eq_zero_or_pos xs.length with h | h
    · simp [h, bump]
    · have hs : UInt32.ofNat (xs.length - 1) + 1 = UInt32.ofNat xs.length := by
        rw [← UInt32.toNat_inj, UInt32.toNat_add, UInt32.toNat_ofNat', UInt32.toNat_ofNat']
        change ((xs.length - 1) % 2 ^ 32 + 1) % 2 ^ 32 = xs.length % 2 ^ 32
        omega
      simp [Nat.ne_of_gt h, bump, hs]

/-- The stored count is one less than the number of increments, modulo 2^32. -/
theorem find?_incrementAll (keys : List CString) (key : CString) :
    (incrementAll keys).find? key =
      if keys.count key = 0 then none else some (UInt32.ofNat (keys.count key - 1)) := by
  rw [incrementAll_eq_collect, OrderedMap.find?_collect, OrderedMap.find?_empty, foldl_bump]
  have hc : (keys.filter (id · = key)).length = keys.count key := by
    rw [List.count_eq_length_filter]
    congr 1
  rw [hc]

/-- The shadow key issued after `n` earlier increments of its key carries the count `n`. -/
theorem currentShadowKey_incrementAll (keys : List CString) (key : CString) :
    (incrementAll (keys ++ [key])).currentShadowKey key =
      generateShadowKey key (UInt32.ofNat (keys.count key)) := by
  have hfind : (incrementAll (keys ++ [key])).find? key =
      some (UInt32.ofNat (keys.count key)) := by
    simp [find?_incrementAll]
  rw [ShadowKeyMap.currentShadowKey, ShadowKeyMap.keyCount, hfind]
  rfl

/-! ## Loading -/

/-- One turn of the loop of `ShadowKeyMap::load`. -/
def loadKey (map : ShadowKeyMap) (recordKey : CString) : ShadowKeyMap :=
  map.upsert (parseRecordKey recordKey).1 (raise (parseRecordKey recordKey).2)

/-- The loop of `ShadowKeyMap::load` over the keys the iterator lists. -/
def loadKeys (recordKeys : List CString) : ShadowKeyMap :=
  recordKeys.foldl loadKey OrderedMap.empty

/-- `ShadowKeyMapException`. -/
structure ShadowKeyMapException where
  what : String
  deriving DecidableEq, Repr

/-- What the library reports on the file named to `load`. -/
inductive MapFile
  | cannotOpen
  | cannotIterate
  | records (keys : List CString)

/-- `ShadowKeyMap::load` on a new map. -/
def load : MapFile → Except ShadowKeyMapException ShadowKeyMap
  | .cannotOpen => .error ⟨"Cannot open mapper output for load in shadow key map"⟩
  | .cannotIterate => .error ⟨"Cannot instantiate iterator"⟩
  | .records keys => .ok (loadKeys keys)

theorem loadKeys_eq_collect (recordKeys : List CString) :
    loadKeys recordKeys = OrderedMap.collect (fun s => (parseRecordKey s).1)
      (fun s => raise (parseRecordKey s).2) OrderedMap.empty recordKeys := rfl

theorem mem_keys_loadKeys {recordKeys : List CString} {root : CString} :
    root ∈ (loadKeys recordKeys).keys ↔ ∃ s ∈ recordKeys, (parseRecordKey s).1 = root := by
  simp [loadKeys_eq_collect, OrderedMap.mem_keys_collect]

theorem not_hasSeparator_of_mem_loadKeys {recordKeys : List CString} {root : CString}
    (h : root ∈ (loadKeys recordKeys).keys) : ¬ HasSeparator root := by
  obtain ⟨s, -, rfl⟩ := mem_keys_loadKeys.mp h
  exact not_hasSeparator_parseRecordKey s

/-- Raising over a list leaves a member of it that bounds the others. -/
theorem foldl_raise {α : Type*} (g : α → UInt32) (xs : List α) {c : UInt32}
    (h : xs.foldl (fun v x => some (raise (g x) v)) none = some c) :
    (∃ x ∈ xs, g x = c) ∧ ∀ x ∈ xs, g x ≤ c := by
  induction xs using List.reverseRecOn generalizing c with
  | nil => simp at h
  | append_singleton xs x ih =>
    rw [List.foldl_append] at h
    cases hv : xs.foldl (fun v x => some (raise (g x) v)) none with
    | none =>
      have hnil : xs = [] := by
        cases xs using List.reverseRecOn with
        | nil => rfl
        | append_singleton ys y => simp at hv
      subst hnil
      obtain rfl : g x = c := by simpa [raise] using h
      simp
    | some d =>
      obtain ⟨⟨y, hy, hyd⟩, hmax⟩ := ih hv
      have hc : (if g x > d then g x else d) = c := by
        rw [hv] at h
        exact Option.some.inj h
      split at hc
      · rename_i hgt
        subst hc
        refine ⟨⟨x, by simp, rfl⟩, fun z hz => ?_⟩
        rcases List.mem_append.mp hz with hz | hz
        · exact UInt32.le_of_lt (UInt32.lt_of_le_of_lt (hmax z hz) hgt)
        · simp [List.mem_singleton.mp hz]
      · rename_i hle
        subst hc
        refine ⟨⟨y, by simp [hy], hyd⟩, fun z hz => ?_⟩
        rcases List.mem_append.mp hz with hz | hz
        · exact hmax z hz
        · simpa [List.mem_singleton.mp hz] using hle

/-- The loaded count of a root is the largest one read for it. -/
theorem find?_loadKeys {recordKeys : List CString} {root : CString} {count : UInt32}
    (h : (loadKeys recordKeys).find? root = some count) :
    (∃ s ∈ recordKeys, parseRecordKey s = (root, count)) ∧
      ∀ s ∈ recordKeys, (parseRecordKey s).1 = root → (parseRecordKey s).2 ≤ count := by
  rw [loadKeys_eq_collect, OrderedMap.find?_collect, OrderedMap.find?_empty] at h
  obtain ⟨⟨s, hs, hc⟩, hmax⟩ := foldl_raise (fun s => (parseRecordKey s).2) _ h
  rw [List.mem_filter, decide_eq_true_eq] at hs
  refine ⟨⟨s, hs.1, Prod.ext hs.2 hc⟩, fun t ht hr => hmax t ?_⟩
  rw [List.mem_filter, decide_eq_true_eq]
  exact ⟨ht, hr⟩

end Meguro
