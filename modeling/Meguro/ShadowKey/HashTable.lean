import Meguro.ShadowKey.ShadowKeyMap
import Meguro.Uthash.Jenkins
import Meguro.Uthash.Lookup

/-!
# The shadow key map on its hash table

The class keeps its counts in a `uthash` table of `malloc`ed elements. Every
operation looks its key up and changes the count of the element it finds, or adds
an element. Followed from the pointers up, the table is the insertion-ordered
map of the other modules: it has the same entries in the same order after every
sequence of operations, wherever the elements are allocated. An operation fails
only where the addition of an element does.
-/

namespace Meguro

open LinkedList Transition

/-- `map_root_`, and the `count` of every element. -/
structure ShadowKeyTable (ι : Type*) where
  mapRoot : UTHash ι CString
  count : ι → UInt32

namespace ShadowKeyTable

variable {ι : Type*} [DecidableEq ι]

/-- Find the element of a key and change its count, or add the element that
`malloc` returned with this count; `malloc` is also what it answers the table. -/
def findOrAdd (t : ShadowKeyTable ι) (key : CString) (elem : ι) (malloc : Bool)
    (found : UInt32 → UInt32) (added : UInt32) : Option (ShadowKeyTable ι) :=
  (t.mapRoot.hashFind hashJen key).bind fun
    | some kv => some { t with count := Function.update t.count kv (found (t.count kv)) }
    | none => (t.mapRoot.hashAddKeyptr hashJen malloc key elem).map fun mapRoot =>
      ⟨mapRoot, Function.update t.count elem added⟩

/-- `ShadowKeyMap::increment`. -/
def increment (t : ShadowKeyTable ι) (key : CString) (elem : ι) (malloc : Bool) :
    Option (ShadowKeyTable ι) :=
  t.findOrAdd key elem malloc (· + 1) 0

/-- The body of the loop of `ShadowKeyMap::load`. -/
def loadKey (t : ShadowKeyTable ι) (recordKey : CString) (elem : ι) (malloc : Bool) :
    Option (ShadowKeyTable ι) :=
  let newCount := (parseRecordKey recordKey).2
  t.findOrAdd (parseRecordKey recordKey).1 elem malloc
    (fun count => if newCount > count then newCount else count) newCount

/-- `ShadowKeyMap::key_count`. -/
def keyCount (t : ShadowKeyTable ι) (key : CString) : Option UInt32 :=
  (t.mapRoot.hashFind hashJen key).map fun
    | some kv => t.count kv
    | none => 0

/-- `ShadowKeyMap::size`. -/
def size (t : ShadowKeyTable ι) : UInt32 := t.mapRoot.hashCount

/-- The loop over the elements along `hh.next`, as in `ShadowKeyMap::print` and
`Reducer::begin`. -/
def walk (t : ShadowKeyTable ι) : Nat → Option ι → Option (List (CString × UInt32))
  | _, none => some []
  | 0, some _ => none
  | fuel + 1, some elem =>
    (walk t fuel (t.mapRoot.app elem).next).map ((t.mapRoot.key elem, t.count elem) :: ·)

/-- The elements are in the table in this order, with the entries of the map. -/
structure Represents (t : ShadowKeyTable ι) (items : List ι) (map : ShadowKeyMap) : Prop where
  wf : UTHash.Wf hashJen t.mapRoot items
  entries : map.entries = items.map fun a => (t.mapRoot.key a, t.count a)

variable {t u : ShadowKeyTable ι} {items : List ι} {map : ShadowKeyMap}

omit [DecidableEq ι] in
/-- Elements of different places have different keys. -/
theorem Represents.key_inj (h : Represents t items map) {a b : ι} (ha : a ∈ items)
    (hb : b ∈ items) (hkey : t.mapRoot.key a = t.mapRoot.key b) : a = b := by
  have hnodup := map.nodup
  rw [h.entries, List.map_map] at hnodup
  exact List.inj_on_of_nodup_map hnodup ha hb hkey

omit [DecidableEq ι] in
/-- The search for a key finds its element, if the map has one. -/
theorem Represents.find (h : Represents t items map) (key : CString) :
    (∃ a ∈ items, t.mapRoot.key a = key ∧ t.mapRoot.hashFind hashJen key = some (some a) ∧
      map.find? key = some (t.count a)) ∨
    (key ∉ map.keys ∧ t.mapRoot.hashFind hashJen key = some none ∧ map.find? key = none) := by
  obtain ⟨out, hout, hnone, hsome⟩ := UTHash.hashFind_wf h.wf key
  cases out with
  | some a =>
    obtain ⟨ha, hkey⟩ := hsome a rfl
    refine .inl ⟨a, ha, hkey, hout, OrderedMap.find?_eq_some_iff.mpr ?_⟩
    rw [h.entries]
    exact List.mem_map.mpr ⟨a, ha, by rw [hkey]⟩
  | none =>
    have habsent : key ∉ map.keys := by
      unfold OrderedMap.keys
      rw [h.entries, List.map_map, List.mem_map]
      rintro ⟨a, ha, hkey⟩
      exact hnone.mp rfl a ha hkey
    refine .inr ⟨habsent, hout, ?_⟩
    by_contra hfind
    obtain ⟨v, hv⟩ := Option.ne_none_iff_exists'.mp hfind
    exact habsent (OrderedMap.mem_keys_iff.mpr ⟨v, hv⟩)

/-- Changing the count of an element changes the entry of its key. -/
theorem Represents.setCount (h : Represents t items map) {a : ι} (ha : a ∈ items)
    (f : Option UInt32 → UInt32) :
    Represents ⟨t.mapRoot, Function.update t.count a (f (some (t.count a)))⟩ items
      (map.upsert (t.mapRoot.key a) f) := by
  refine ⟨h.wf, ?_⟩
  obtain ⟨xs, ys, rfl⟩ := List.append_of_mem ha
  have hxs : ∀ b ∈ xs, b ≠ a := by
    rintro b hb rfl
    exact (List.nodup_append.mp h.wf.nodup).2.2 b hb b (List.mem_cons_self ..) rfl
  have hys : ∀ b ∈ ys, b ≠ a := by
    rintro b hb rfl
    exact (List.nodup_cons.mp (List.nodup_append.mp h.wf.nodup).2.1).1 hb
  have hfirst : t.mapRoot.key a ∉
      (xs.map fun a => (t.mapRoot.key a, t.count a)).map Prod.fst := by
    rw [List.map_map, List.mem_map]
    rintro ⟨b, hb, hbkey⟩
    exact hxs b hb (h.key_inj (List.mem_append_left _ hb) ha hbkey)
  have hsame : ∀ zs : List ι, (∀ b ∈ zs, b ≠ a) →
      (zs.map fun b =>
        (t.mapRoot.key b, Function.update t.count a (f (some (t.count a))) b)) =
      zs.map fun b => (t.mapRoot.key b, t.count b) := fun zs hzs =>
    List.map_congr_left fun b hb => by rw [Function.update_of_ne (hzs b hb)]
  change OrderedMap.alter _ f map.entries = (xs ++ a :: ys).map fun b =>
    (t.mapRoot.key b, Function.update t.count a (f (some (t.count a))) b)
  rw [h.entries, List.map_append, List.map_cons, OrderedMap.alter_of_mem f hfirst,
    List.map_append, List.map_cons, hsame xs hxs, hsame ys hys, Function.update_self]

/-- Adding an element for a new key adds an entry at the end. -/
theorem Represents.add (h : Represents t items map) {key : CString} {elem : ι} {malloc : Bool}
    (helem : elem ∉ items) (hlength : items.length + 1 < 2 ^ 32) (habsent : key ∉ map.keys)
    (f : Option UInt32 → UInt32) {root : UTHash ι CString}
    (hroot : t.mapRoot.hashAddKeyptr hashJen malloc key elem = some root) :
    Represents ⟨root, Function.update t.count elem (f none)⟩ (items ++ [elem])
      (map.upsert key f) := by
  obtain ⟨hwf, hkeys⟩ := UTHash.hashAddKeyptr_spec h.wf helem hlength hroot
  refine ⟨hwf, ?_⟩
  have hsame : (items.map fun a => (root.key a, Function.update t.count elem (f none) a)) =
      items.map fun a => (t.mapRoot.key a, t.count a) := by
    apply List.map_congr_left
    intro b hb
    have hne := ne_of_mem_of_not_mem hb helem
    rw [hkeys, Function.update_of_ne hne, Function.update_of_ne hne]
  change OrderedMap.alter key f map.entries = (items ++ [elem]).map fun a =>
    (root.key a, Function.update t.count elem (f none) a)
  rw [OrderedMap.alter_of_notMem f habsent, List.map_append, hsame, h.entries,
    List.map_singleton, hkeys, Function.update_self, Function.update_self]

/-- What an operation on a key leaves of a table, and where it fails: an element that is
there is found, and a new one is added. -/
structure DoesToKey (t : ShadowKeyTable ι) (items : List ι) (map map' : ShadowKeyMap)
    (key : CString) (elem : ι) (malloc : Bool) (result : Option (ShadowKeyTable ι)) : Prop where
  leaves : ∀ u ∈ result, ∃ items', Represents u items' map' ∧
    ∀ a ∈ items', a ∈ items ∨ a = elem
  fails : result = none ↔ key ∉ map.keys ∧ t.mapRoot.AddFails hashJen malloc key

/-- Finding or adding is what the map does with the entry of the key. -/
theorem Represents.findOrAdd (h : Represents t items map) (key : CString) {elem : ι}
    (malloc : Bool) (helem : elem ∉ items) (hlength : items.length + 1 < 2 ^ 32)
    (f : Option UInt32 → UInt32) :
    DoesToKey t items map (map.upsert key f) key elem malloc
      (t.findOrAdd key elem malloc (fun count => f (some count)) (f none)) := by
  unfold ShadowKeyTable.findOrAdd
  rcases h.find key with ⟨a, ha, rfl, hfind, hsome⟩ | ⟨habsent, hfind, -⟩
  · rw [hfind]
    refine ⟨fun u hu => ?_, iff_of_false (Option.some_ne_none _) fun hfail => ?_⟩
    · cases hu
      exact ⟨items, h.setCount ha f, fun b hb => .inl hb⟩
    · exact hfail.1 (OrderedMap.mem_keys_iff.mpr ⟨_, hsome⟩)
  · rw [hfind]
    refine ⟨fun u hu => ?_, ?_⟩
    · obtain ⟨root, hroot, rfl⟩ := Option.map_eq_some_iff.mp hu
      exact ⟨items ++ [elem], h.add helem hlength habsent f hroot, fun b hb => by simpa using hb⟩
    · rw [← UTHash.hashAddKeyptr_eq_none_iff h.wf helem hlength]
      exact Option.map_eq_none_iff.trans (and_iff_right habsent).symm

omit [DecidableEq ι] in
theorem Represents.keyCount (h : Represents t items map) (key : CString) :
    t.keyCount key = some (map.keyCount key) := by
  unfold ShadowKeyTable.keyCount ShadowKeyMap.keyCount
  rcases h.find key with ⟨a, -, -, hfind, hmap⟩ | ⟨-, hfind, hmap⟩ <;> rw [hfind, hmap] <;> rfl

omit [DecidableEq ι] in
theorem Represents.size (h : Represents t items map) : t.size.toNat = map.size := by
  unfold ShadowKeyTable.size ShadowKeyMap.size
  rw [UTHash.hashCount_wf h.wf, h.entries, List.length_map]

omit [DecidableEq ι] in
/-- A walk over a stretch of the list lists its keys and counts. -/
theorem walk_segment {before elem : Option ι} {l : List ι} {fuel : Nat}
    (hs : Segment t.mapRoot.app before elem none l) (hfuel : l.length ≤ fuel) :
    t.walk fuel elem = some (l.map fun a => (t.mapRoot.key a, t.count a)) := by
  induction l generalizing before elem fuel with
  | nil =>
    obtain rfl : elem = none := hs
    unfold walk
    rfl
  | cons a l ih =>
    obtain ⟨rfl, -, hrest⟩ := hs
    cases fuel with
    | zero => exact absurd hfuel (Nat.not_succ_le_zero _)
    | succ fuel =>
      unfold walk
      rw [ih hrest (Nat.le_of_succ_le_succ hfuel)]
      rfl

omit [DecidableEq ι] in
theorem Represents.walk (h : Represents t items map) :
    t.walk t.size.toNat t.mapRoot.head = some map.entries := by
  rw [h.entries]
  apply walk_segment h.wf.app
  unfold ShadowKeyTable.size
  rw [UTHash.hashCount_wf h.wf]

/-! ## Runs -/

end ShadowKeyTable

/-- A call of `increment`, or a turn of the loop of `load`, with the element `malloc`
returns if it is called, and its answer when the table asks for memory. -/
inductive ShadowKeyLabel (ι : Type*)
  | increment (key : CString) (elem : ι) (malloc : Bool)
  | loadKey (recordKey : CString) (elem : ι) (malloc : Bool)

namespace ShadowKeyLabel

variable {ι : Type*}

def elem : ShadowKeyLabel ι → ι
  | .increment _ elem _ | .loadKey _ elem _ => elem

def malloc : ShadowKeyLabel ι → Bool
  | .increment _ _ malloc | .loadKey _ _ malloc => malloc

/-- The key a call looks for. -/
def key : ShadowKeyLabel ι → CString
  | .increment key _ _ => key
  | .loadKey recordKey _ _ => (parseRecordKey recordKey).1

/-- What the call does to the map. -/
def onMap (map : ShadowKeyMap) : ShadowKeyLabel ι → ShadowKeyMap
  | .increment key _ _ => map.increment key
  | .loadKey recordKey _ _ => Meguro.loadKey map recordKey

end ShadowKeyLabel

/-- The map after these calls. -/
def calledMap {ι : Type*} (ls : List (ShadowKeyLabel ι)) : ShadowKeyMap :=
  ls.foldl ShadowKeyLabel.onMap OrderedMap.empty

namespace ShadowKeyTable

variable {ι : Type*} [DecidableEq ι]

def step (t : ShadowKeyTable ι) : ShadowKeyLabel ι → Option (ShadowKeyTable ι)
  | .increment key elem malloc => t.increment key elem malloc
  | .loadKey recordKey elem malloc => t.loadKey recordKey elem malloc

/-- The table shows its callers what the map shows them. -/
structure Refines (t : ShadowKeyTable ι) (map : ShadowKeyMap) : Prop where
  keyCount : ∀ key, t.keyCount key = some (map.keyCount key)
  size : t.size.toNat = map.size
  /-- A walk over the elements ends and meets the entries of the map in its order. -/
  walk : t.walk t.size.toNat t.mapRoot.head = some map.entries

variable {t u : ShadowKeyTable ι} {items : List ι} {map : ShadowKeyMap}
  {ls : List (ShadowKeyLabel ι)}

/-- A call does to the table what it does to the map. -/
theorem Represents.step (h : Represents t items map) {l : ShadowKeyLabel ι} (hl : l.elem ∉ items)
    (hlength : items.length + 1 < 2 ^ 32) :
    DoesToKey t items map (l.onMap map) l.key l.elem l.malloc (t.step l) := by
  cases l with
  | increment key elem malloc => exact h.findOrAdd key malloc hl hlength bump
  | loadKey recordKey elem malloc =>
    exact h.findOrAdd _ malloc hl hlength (raise (parseRecordKey recordKey).2)

omit [DecidableEq ι] in
/-- Of the elements of so many calls no more are in the table. -/
theorem Represents.length_le (h : Represents t items map)
    (hitems : ∀ a ∈ items, a ∈ ls.map ShadowKeyLabel.elem) : items.length ≤ ls.length :=
  (List.subperm_of_subset h.wf.nodup hitems).length_le.trans_eq (List.length_map ..)

/-- The elements in the table are among those of the calls. -/
theorem run_represents (hnull : t.mapRoot.head = none) (hfresh : (ls.map ShadowKeyLabel.elem).Nodup)
    (hlength : ls.length < 2 ^ 32) (hrun : run ShadowKeyTable.step t ls = some u) :
    ∃ items, Represents u items (calledMap ls) ∧ ∀ a ∈ items, a ∈ ls.map ShadowKeyLabel.elem := by
  induction ls using List.reverseRecOn generalizing u with
  | nil =>
    cases hrun
    exact ⟨[], ⟨UTHash.wf_empty hnull, rfl⟩, fun a ha => absurd ha List.not_mem_nil⟩
  | append_singleton ls l ih =>
    rw [List.map_append, List.map_singleton] at hfresh ⊢
    rw [List.length_append, List.length_singleton] at hlength
    obtain ⟨hpast, -, hdisjoint⟩ := List.nodup_append.mp hfresh
    obtain ⟨v, hv, hstep⟩ := run_snoc.mp hrun
    obtain ⟨items, hrep, hitems⟩ := ih hpast (Nat.lt_of_succ_lt hlength) hv
    have helem : l.elem ∉ items := fun hmem =>
      hdisjoint _ (hitems _ hmem) _ (List.mem_singleton_self _) rfl
    have hfew := hrep.length_le hitems
    have hmap : calledMap (ls ++ [l]) = l.onMap (calledMap ls) := List.foldl_append
    obtain ⟨items', hrep', hitems'⟩ := (hrep.step helem (by omega)).leaves u hstep
    refine ⟨items', hmap ▸ hrep', fun a ha => ?_⟩
    rcases hitems' a ha with ha | rfl
    · exact List.mem_append_left _ (hitems a ha)
    · exact List.mem_append_right _ (List.mem_singleton_self _)

/-- From a new map, every sequence of increments and loaded keys leaves a table that
shows what the map of the same calls shows, wherever `malloc` puts the elements, and the
next call goes through unless its key is new and the table cannot take it. -/
theorem refines_of_run (hnull : t.mapRoot.head = none) (hfresh : (ls.map ShadowKeyLabel.elem).Nodup)
    (hlength : ls.length + 1 < 2 ^ 32) (hrun : run step t ls = some u) :
    Refines u (calledMap ls) ∧ ∀ l, l.elem ∉ ls.map ShadowKeyLabel.elem →
      (step u l = none ↔
        l.key ∉ (calledMap ls).keys ∧ u.mapRoot.AddFails hashJen l.malloc l.key) := by
  obtain ⟨items, hrep, hitems⟩ := run_represents hnull hfresh (Nat.lt_of_succ_lt hlength) hrun
  have hfew := hrep.length_le hitems
  refine ⟨⟨hrep.keyCount, hrep.size, hrep.walk⟩, fun l hl => ?_⟩
  exact (hrep.step (mt (hitems l.elem) hl) (by omega)).fails

/-- A map before the first call. -/
def emptyTable : ShadowKeyTable Nat where
  mapRoot :=
    ⟨none, hashMakeTable 0, fun _ => ⟨none, none⟩, fun _ => ⟨none, none⟩,
      fun _ => .ofLiteral "", fun _ => 0⟩
  count _ := 0

/-- Two new keys, one of them twice, and its record key from a file. -/
def threeKeys : List (ShadowKeyLabel Nat) :=
  [.increment (.ofLiteral "a") 0 true, .increment (.ofLiteral "b") 1 true,
    .increment (.ofLiteral "a") 2 true, .loadKey (.ofLiteral "a|m7") 3 true]

theorem threeKeys_isSome : (run step emptyTable threeKeys).isSome = true := by decide

theorem refines_threeKeys :
    Refines ((run step emptyTable threeKeys).get threeKeys_isSome) (calledMap threeKeys) ∧
      ∀ l, l.elem ∉ threeKeys.map ShadowKeyLabel.elem →
        (step ((run step emptyTable threeKeys).get threeKeys_isSome) l = none ↔
          l.key ∉ (calledMap threeKeys).keys ∧
            ((run step emptyTable threeKeys).get threeKeys_isSome).mapRoot.AddFails hashJen
              l.malloc l.key) :=
  refines_of_run rfl (by decide) (by decide) (Option.some_get _).symm

end ShadowKeyTable

end Meguro
