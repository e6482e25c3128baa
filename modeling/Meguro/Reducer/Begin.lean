import Meguro.Core.Generator
import Meguro.ShadowKey.ShadowKeyMap
import Meguro.Store.Hdb
import Mathlib.Data.List.ReduceOption

/-!
# The loops of the reduce driver

`Reducer::begin` walks the shadow key map and, for every key, looks up the
shadow keys with counts 0 up to an inclusive 32-bit bound. The inner loop ends
for every bound but the largest one, where its counter wraps; it then has made
one lookup more than the bound. When all inner loops end, the driver enqueues
one pair for each entry of the map, in the map's order, with the values found.
-/

namespace Meguro

open Generator

variable {V : Type*}

/-- `KeyValueListPair`. -/
structure KeyValueListPair (V : Type*) where
  key : CString
  valueList : List V
  deriving DecidableEq

/-- The bound of the lookups for a key: its count, or the smaller of the count
and the cap converted to 32 bits when a cap is set. -/
def maxKeyCount (count : UInt32) (capAmount : UInt64) : UInt32 :=
  if capAmount > 0 then min count capAmount.toUInt32 else count

/-- One test of the inner loop at this counter, and the lookup of its body. -/
def lookupStep (records : Records V) (key : CString) (maxCount keyCount : UInt32) :
    Produce UInt32 (Option V) :=
  if keyCount ≤ maxCount then
    .item (records.lookup (generateShadowKey key keyCount)) (keyCount + 1)
  else .stop

/-- The variables of `Reducer::begin`: the entries from `elem` on, the counter
of the inner loop and the pair's values so far. -/
structure BeginState (V : Type*) where
  elems : List (CString × UInt32)
  keyCount : UInt32
  valueList : List V
  deriving DecidableEq

/-- One step of `Reducer::begin`: a turn of the inner loop, or the enqueue of
the pair of `elem` and the move to the next entry. -/
def beginStep (records : Records V) (capAmount : UInt64) (s : BeginState V) :
    Produce (BeginState V) (KeyValueListPair V) :=
  match s.elems with
  | [] => .stop
  | (key, count) :: rest =>
    match lookupStep records key (maxKeyCount count capAmount) s.keyCount with
    | .item found keyCount =>
      .silent { s with keyCount, valueList := s.valueList ++ found.toList }
    | .silent keyCount => .silent { s with keyCount }
    | .stop => .item ⟨key, s.valueList⟩ ⟨rest, 0, []⟩

/-- `Reducer::begin` ends, having enqueued these pairs. -/
def Enqueues (map : ShadowKeyMap) (records : Records V) (capAmount : UInt64)
    (pairs : List (KeyValueListPair V)) : Prop :=
  Yields (beginStep records capAmount) ⟨map.entries, 0, []⟩ pairs

/-! ## The inner loop -/

/-- The results of the lookups with counts 0 to `n`. -/
def lookups (records : Records V) (key : CString) (n : Nat) : List (Option V) :=
  (List.range (n + 1)).map fun i => records.lookup (generateShadowKey key (UInt32.ofNat i))

@[simp] theorem length_lookups (records : Records V) (key : CString) (n : Nat) :
    (lookups records key n).length = n + 1 := by
  simp [lookups]

private theorem yields_lookups_from (records : Records V) (key : CString) {maxCount : UInt32}
    (h : maxCount ≠ 0xFFFFFFFF) (left start : Nat) (hleft : start + left = maxCount.toNat + 1) :
    Yields (lookupStep records key maxCount) (UInt32.ofNat start)
      ((List.range' start left).map fun i =>
        records.lookup (generateShadowKey key (UInt32.ofNat i))) := by
  have hmax : maxCount.toNat < 2 ^ 32 - 1 := by
    have hlt := maxCount.toNat_lt
    have hne : maxCount.toNat ≠ 2 ^ 32 - 1 := fun he => h (UInt32.toNat_inj.mp he)
    omega
  induction left generalizing start with
  | zero =>
    refine .stop (if_neg ?_)
    rw [UInt32.le_iff_toNat_le, UInt32.toNat_ofNat']
    omega
  | succ left ih =>
    have hle : UInt32.ofNat start ≤ maxCount := by
      rw [UInt32.le_iff_toNat_le, UInt32.toNat_ofNat']
      omega
    have hnext : UInt32.ofNat start + 1 = UInt32.ofNat (start + 1) := by
      rw [UInt32.ofNat_add]
      rfl
    rw [List.range'_succ, List.map_cons]
    refine .item (if_pos hle) ?_
    rw [hnext]
    exact ih (start + 1) (by omega)

/-- For every bound but the largest, the inner loop ends after the lookups with
counts 0 to the bound. -/
theorem yields_lookups (records : Records V) (key : CString) {maxCount : UInt32}
    (h : maxCount ≠ 0xFFFFFFFF) :
    Yields (lookupStep records key maxCount) 0 (lookups records key maxCount.toNat) := by
  have hfrom := yields_lookups_from records key h (maxCount.toNat + 1) 0 (by omega)
  rwa [← List.range_eq_range'] at hfrom

/-- With the largest bound the counter wraps and the inner loop never ends. -/
theorem not_yields_lookups (records : Records V) (key : CString) (keyCount : UInt32)
    (found : List (Option V)) :
    ¬ Yields (lookupStep records key 0xFFFFFFFF) keyCount found := by
  intro h
  induction h with
  | @stop keyCount hs =>
    have hle : keyCount ≤ 0xFFFFFFFF :=
      UInt32.le_iff_toNat_le.mpr (Nat.le_of_lt_succ keyCount.toNat_lt)
    rw [lookupStep, if_pos hle] at hs
    cases hs
  | silent _ _ ih => exact ih
  | item _ _ ih => exact ih

/-- The inner loop ends exactly for the bounds below the largest, after one
lookup more than the bound. -/
theorem lookups_end_iff (records : Records V) (key : CString) (maxCount : UInt32) :
    (∃ found, Yields (lookupStep records key maxCount) 0 found ∧
      found.length = maxCount.toNat + 1) ↔ maxCount ≠ 0xFFFFFFFF := by
  constructor
  · rintro ⟨found, h, -⟩ rfl
    exact not_yields_lookups records key 0 found h
  · intro h
    exact ⟨_, yields_lookups records key h, length_lookups ..⟩

/-! ## The outer loop -/

/-- A total filter of a range keeps every position. -/
theorem filterMap_range_of_isSome {f : Nat → Option V} {n : Nat}
    (h : ∀ i < n, (f i).isSome) :
    ((List.range n).filterMap f).length = n ∧
      ∀ j < n, ((List.range n).filterMap f)[j]? = f j := by
  induction n with
  | zero => exact ⟨rfl, fun j hj => absurd hj (Nat.not_lt_zero j)⟩
  | succ n ih =>
    obtain ⟨hlen, hget⟩ := ih fun i hi => h i (by omega)
    obtain ⟨v, hv⟩ := Option.isSome_iff_exists.mp (h n (by omega))
    rw [List.range_succ, List.filterMap_append]
    have hlast : [n].filterMap f = [v] := by simp [hv]
    refine ⟨by simp [hlen, hlast], fun j hj => ?_⟩
    rcases Nat.lt_or_eq_of_le (Nat.le_of_lt_succ hj) with hj | rfl
    · rw [List.getElem?_append_left (by omega), hget j hj]
    · rw [List.getElem?_append_right (by omega), hlast, hlen, Nat.sub_self, hv]
      rfl

/-- The values found for a key with this bound. -/
def valuesUpTo (records : Records V) (key : CString) (n : Nat) : List V :=
  (List.range (n + 1)).filterMap fun i =>
    records.lookup (generateShadowKey key (UInt32.ofNat i))

theorem reduceOption_lookups (records : Records V) (key : CString) (n : Nat) :
    (lookups records key n).reduceOption = valuesUpTo records key n := by
  exact List.filterMap_map

/-- An inner loop that ends hands its values to the pair of its entry. -/
theorem yields_begin_cons {records : Records V} {capAmount : UInt64} {key : CString}
    {count keyCount : UInt32} {rest : List (CString × UInt32)} {valueList : List V}
    {found : List (Option V)} {pairs : List (KeyValueListPair V)}
    (hloop : Yields (lookupStep records key (maxKeyCount count capAmount)) keyCount found)
    (hrest : Yields (beginStep records capAmount) ⟨rest, 0, []⟩ pairs) :
    Yields (beginStep records capAmount) ⟨(key, count) :: rest, keyCount, valueList⟩
      (⟨key, valueList ++ found.reduceOption⟩ :: pairs) := by
  induction hloop generalizing valueList with
  | stop hs =>
    refine .item ?_ hrest
    simp [beginStep, hs, List.reduceOption_nil]
  | silent hs _ ih =>
    exact .silent (by simp [beginStep, hs]) ih
  | @item keyCount next x found hs _ ih =>
    refine .silent (t := ⟨(key, count) :: rest, next, valueList ++ x.toList⟩)
      (by simp [beginStep, hs]) ?_
    have hsplit : valueList ++ (x :: found).reduceOption =
        valueList ++ x.toList ++ found.reduceOption := by
      cases x <;> simp
    rw [hsplit]
    exact ih

/-- When no bound is the largest, the driver enqueues one pair for each entry. -/
theorem enqueues_of_bounds {map : ShadowKeyMap} (records : Records V) {capAmount : UInt64}
    (h : ∀ e ∈ map.entries, maxKeyCount e.2 capAmount ≠ 0xFFFFFFFF) :
    Enqueues map records capAmount (map.entries.map fun e =>
      ⟨e.1, valuesUpTo records e.1 (maxKeyCount e.2 capAmount).toNat⟩) := by
  rw [Enqueues]
  generalize map.entries = es at h
  induction es with
  | nil => exact .stop rfl
  | cons e es ih =>
    have hloop := yields_lookups records e.1 (h e (by simp))
    have hrest := ih fun e he => h e (List.mem_cons_of_mem _ he)
    rw [List.map_cons, ← reduceOption_lookups]
    exact yields_begin_cons hloop hrest

/-- Without a cap, counts below 2^31 are all looked up. -/
theorem enqueues_uncapped {map : ShadowKeyMap} (records : Records V)
    (h : ∀ e ∈ map.entries, e.2.toNat < 2 ^ 31) : Enqueues map records 0
      (map.entries.map fun e => ⟨e.1, valuesUpTo records e.1 e.2.toNat⟩) := by
  have hbound : ∀ e ∈ map.entries, maxKeyCount e.2 0 ≠ 0xFFFFFFFF := by
    intro e he hmax
    have hlt := h e he
    have hval : e.2.toNat = 2 ^ 32 - 1 := congrArg UInt32.toNat hmax
    omega
  exact enqueues_of_bounds records hbound

/-- A key with count 2 and a record missing in the middle. -/
example : Enqueues (incrementAll (List.replicate 3 (.ofLiteral "a")))
    ((∅ : Records CString).insert (.ofLiteral "a") (.ofLiteral "1") |>.insert (.ofLiteral "a|m2")
      (.ofLiteral "3")) 0 [⟨.ofLiteral "a", [.ofLiteral "1", .ofLiteral "3"]⟩] :=
  yields_of_collect (show collect _ 6 _ = _ by decide)

/-- The pair of an entry: its key, with what its inner loop finds. -/
def PairOf (records : Records V) (capAmount : UInt64) (e : CString × UInt32)
    (pair : KeyValueListPair V) : Prop :=
  pair.key = e.1 ∧ ∃ found, Yields (lookupStep records e.1 (maxKeyCount e.2 capAmount)) 0 found ∧
    pair.valueList = found.reduceOption

/-- What the driver still enqueues from a state: the pair under construction,
then the pairs of the entries behind it. -/
theorem forall₂_of_yields {records : Records V} {capAmount : UInt64} {s : BeginState V}
    {pairs : List (KeyValueListPair V)} (h : Yields (beginStep records capAmount) s pairs) :
    (s.elems = [] ∧ pairs = []) ∨ ∃ e rest found rests, s.elems = e :: rest ∧
      Yields (lookupStep records e.1 (maxKeyCount e.2 capAmount)) s.keyCount found ∧
      pairs = ⟨e.1, s.valueList ++ found.reduceOption⟩ :: rests ∧
      List.Forall₂ (PairOf records capAmount) rest rests := by
  induction h with
  | @stop s hs =>
    rcases s with ⟨_ | ⟨e, es⟩, keyCount, valueList⟩
    · exact Or.inl ⟨rfl, rfl⟩
    · simp only [beginStep] at hs
      split at hs <;> cases hs
  | @silent s t pairs hs _ ih =>
    rcases s with ⟨_ | ⟨e, es⟩, keyCount, valueList⟩
    · cases hs
    · simp only [beginStep] at hs
      split at hs
      · rename_i x next hloop
        cases hs
        obtain ⟨hnil, -⟩ | ⟨_, _, found, rests, he, hyields, rfl, hrests⟩ := ih
        · cases hnil
        · cases he
          refine Or.inr ⟨e, es, x :: found, rests, rfl, .item hloop hyields, ?_, hrests⟩
          cases x <;> simp
      · rename_i next hloop
        cases hs
        obtain ⟨hnil, -⟩ | ⟨_, _, found, rests, he, hyields, rfl, hrests⟩ := ih
        · cases hnil
        · cases he
          exact Or.inr ⟨e, es, found, rests, rfl, .silent hloop hyields, rfl, hrests⟩
      · cases hs
  | @item s t x pairs hs _ ih =>
    rcases s with ⟨_ | ⟨e, es⟩, keyCount, valueList⟩
    · cases hs
    · simp only [beginStep] at hs
      split at hs
      · cases hs
      · cases hs
      · rename_i hloop
        cases hs
        refine Or.inr ⟨e, es, [], pairs, rfl, .stop hloop, by simp, ?_⟩
        obtain ⟨hnil, rfl⟩ | ⟨f, rest, found, rests, he, hyields, rfl, hrests⟩ := ih
        · obtain rfl : es = [] := hnil
          exact .nil
        · obtain rfl : es = f :: rest := he
          exact .cons ⟨rfl, found, hyields, rfl⟩ hrests

/-- The driver enqueues exactly the pairs of the entries, in the map's order. -/
theorem Enqueues.forall₂ {map : ShadowKeyMap} {records : Records V} {capAmount : UInt64}
    {pairs : List (KeyValueListPair V)} (h : Enqueues map records capAmount pairs) :
    List.Forall₂ (PairOf records capAmount) map.entries pairs := by
  obtain ⟨hnil, rfl⟩ | ⟨e, rest, found, rests, he, hyields, rfl, hrests⟩ := forall₂_of_yields h
  · rw [show map.entries = [] from hnil]
    exact .nil
  · rw [show map.entries = e :: rest from he]
    exact .cons ⟨rfl, found, hyields, rfl⟩ hrests

/-- The enqueued keys are the keys of the map, in its order. -/
theorem Enqueues.map_key {map : ShadowKeyMap} {records : Records V} {capAmount : UInt64}
    {pairs : List (KeyValueListPair V)} (h : Enqueues map records capAmount pairs) :
    pairs.map KeyValueListPair.key = map.keys := by
  have hpairs := h.forall₂
  clear h
  rw [OrderedMap.keys]
  generalize map.entries = es at hpairs
  induction hpairs with
  | nil => rfl
  | cons hpair _ ih => rw [List.map_cons, List.map_cons, hpair.1, ih]

end Meguro
