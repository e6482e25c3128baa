import Mathlib.Data.List.Nodup
import Mathlib.Data.List.Induction

/-!
# Insertion-ordered maps

A map that remembers the order in which its keys first arrived: looking a key
up does not disturb the order, changing the value of a present key keeps its
place, and a new key goes to the end. `collect` folds a list of items into such
a map; its value at a key depends only on the items of that key, in their order.
-/

/-- Key/value pairs in insertion order, each key present once. -/
structure OrderedMap (κ ν : Type*) where
  entries : List (κ × ν)
  nodup : (entries.map Prod.fst).Nodup
  deriving DecidableEq

namespace OrderedMap

variable {κ ν α : Type*} [DecidableEq κ]

/-- First value stored for a key in a list of pairs. -/
def assoc (k : κ) : List (κ × ν) → Option ν
  | [] => none
  | (j, v) :: rest => if j = k then some v else assoc k rest

/-- Replace the value of a present key in place, or append a new pair. -/
def alter (k : κ) (f : Option ν → ν) : List (κ × ν) → List (κ × ν)
  | [] => [(k, f none)]
  | (j, v) :: rest => if j = k then (k, f (some v)) :: rest else (j, v) :: alter k f rest

theorem map_fst_alter (k : κ) (f : Option ν → ν) (es : List (κ × ν)) :
    (alter k f es).map Prod.fst =
      if k ∈ es.map Prod.fst then es.map Prod.fst else es.map Prod.fst ++ [k] := by
  induction es with
  | nil => simp [alter]
  | cons e es ih =>
    obtain ⟨j, v⟩ := e
    by_cases h : j = k
    · subst j
      simp [alter]
    · simp only [alter, h, if_false, List.map_cons, ih, List.mem_cons, Ne.symm h, false_or]
      split <;> simp

theorem nodup_alter (k : κ) (f : Option ν → ν) {es : List (κ × ν)}
    (h : (es.map Prod.fst).Nodup) : ((alter k f es).map Prod.fst).Nodup := by
  rw [map_fst_alter]
  split
  · exact h
  · rename_i hk
    exact List.Nodup.append h (List.nodup_singleton k) (by simpa using hk)

theorem assoc_alter (k j : κ) (f : Option ν → ν) (es : List (κ × ν)) :
    assoc j (alter k f es) = if j = k then some (f (assoc k es)) else assoc j es := by
  induction es with
  | nil => simp [alter, assoc, eq_comm]
  | cons e es ih =>
    obtain ⟨i, v⟩ := e
    by_cases hi : i = k
    · subst i
      by_cases h : j = k
      · simp [alter, assoc, h]
      · have hk : ¬k = j := fun hk => h hk.symm
        simp [alter, assoc, h, hk]
    · by_cases hj : i = j
      · subst i
        simp [alter, assoc, hi]
      · simp [alter, assoc, hi, hj, ih]

theorem assoc_eq_some_iff {k : κ} {v : ν} {es : List (κ × ν)} (h : (es.map Prod.fst).Nodup) :
    assoc k es = some v ↔ (k, v) ∈ es := by
  induction es with
  | nil => simp [assoc]
  | cons e es ih =>
    obtain ⟨j, w⟩ := e
    simp only [List.map_cons, List.nodup_cons] at h
    by_cases hj : j = k
    · subst j
      have hn : (k, v) ∉ es := fun hm => h.1 (List.mem_map.mpr ⟨_, hm, rfl⟩)
      simp [assoc, hn, eq_comm]
    · simp [assoc, hj, ih h.2, Ne.symm hj]

/-- A key that is not there goes to the end. -/
theorem alter_of_notMem {k : κ} (f : Option ν → ν) {es : List (κ × ν)}
    (h : k ∉ es.map Prod.fst) : alter k f es = es ++ [(k, f none)] := by
  induction es with
  | nil => rfl
  | cons e es ih =>
    obtain ⟨j, v⟩ := e
    rw [List.map_cons, List.mem_cons, not_or] at h
    rw [alter, if_neg (Ne.symm h.1), ih h.2]
    rfl

/-- A key that is there keeps its place. -/
theorem alter_of_mem {k : κ} (f : Option ν → ν) {xs ys : List (κ × ν)} {v : ν}
    (h : k ∉ xs.map Prod.fst) :
    alter k f (xs ++ (k, v) :: ys) = xs ++ (k, f (some v)) :: ys := by
  induction xs with
  | nil => exact if_pos rfl
  | cons e xs ih =>
    obtain ⟨j, w⟩ := e
    rw [List.map_cons, List.mem_cons, not_or] at h
    rw [List.cons_append, alter, if_neg (Ne.symm h.1), ih h.2]
    rfl

/-- The map without keys. -/
def empty : OrderedMap κ ν := ⟨[], List.nodup_nil⟩

/-- The keys, in the order in which they arrived. -/
def keys (m : OrderedMap κ ν) : List κ := m.entries.map Prod.fst

/-- The value of a key. -/
def find? (m : OrderedMap κ ν) (k : κ) : Option ν := assoc k m.entries

/-- Set a key to a value computed from its present one. -/
def upsert (m : OrderedMap κ ν) (k : κ) (f : Option ν → ν) : OrderedMap κ ν :=
  ⟨alter k f m.entries, nodup_alter k f m.nodup⟩

omit [DecidableEq κ] in
@[simp] theorem keys_empty : (empty : OrderedMap κ ν).keys = [] := rfl

@[simp] theorem find?_empty (k : κ) : (empty : OrderedMap κ ν).find? k = none := rfl

omit [DecidableEq κ] in
theorem nodup_keys (m : OrderedMap κ ν) : m.keys.Nodup := m.nodup

theorem find?_eq_some_iff {m : OrderedMap κ ν} {k : κ} {v : ν} :
    m.find? k = some v ↔ (k, v) ∈ m.entries := assoc_eq_some_iff m.nodup

theorem mem_keys_iff {m : OrderedMap κ ν} {k : κ} : k ∈ m.keys ↔ ∃ v, m.find? k = some v := by
  simp only [keys, List.mem_map, find?_eq_some_iff, Prod.exists, exists_and_right, exists_eq_right]

omit [DecidableEq κ] in
/-- The entries are the keys with their values. -/
theorem entries_eq_map_keys (m : OrderedMap κ ν) {value : κ → ν}
    (h : ∀ e ∈ m.entries, value e.1 = e.2) : m.entries = m.keys.map fun k => (k, value k) := by
  rw [keys, List.map_map]
  exact (List.map_id _).symm.trans (List.map_congr_left fun e he => Prod.ext rfl (h e he).symm)

theorem keys_upsert (m : OrderedMap κ ν) (k : κ) (f : Option ν → ν) :
    (m.upsert k f).keys = if k ∈ m.keys then m.keys else m.keys ++ [k] :=
  map_fst_alter k f m.entries

theorem find?_upsert (m : OrderedMap κ ν) (k j : κ) (f : Option ν → ν) :
    (m.upsert k f).find? j = if j = k then some (f (m.find? k)) else m.find? j :=
  assoc_alter k j f m.entries

/-- Fold a list of items into a map, each item updating the entry of its key. -/
def collect (key : α → κ) (f : α → Option ν → ν) (m : OrderedMap κ ν) (xs : List α) :
    OrderedMap κ ν :=
  xs.foldl (fun m x => m.upsert (key x) (f x)) m

section Collect

variable (key : α → κ) (f : α → Option ν → ν)

@[simp] theorem collect_nil (m : OrderedMap κ ν) : collect key f m [] = m := rfl

theorem collect_append (m : OrderedMap κ ν) (xs ys : List α) :
    collect key f m (xs ++ ys) = collect key f (collect key f m xs) ys :=
  List.foldl_append

theorem collect_snoc (m : OrderedMap κ ν) (xs : List α) (x : α) :
    collect key f m (xs ++ [x]) = (collect key f m xs).upsert (key x) (f x) :=
  collect_append key f m xs [x]

/-- The value of a key is the fold of the items of that key alone. -/
theorem find?_collect (m : OrderedMap κ ν) (xs : List α) (k : κ) :
    (collect key f m xs).find? k =
      (xs.filter (key · = k)).foldl (fun v x => some (f x v)) (m.find? k) := by
  induction xs generalizing m with
  | nil => rfl
  | cons x xs ih =>
    change (collect key f (m.upsert (key x) (f x)) xs).find? k = _
    rw [ih, find?_upsert]
    by_cases h : key x = k
    · subst k
      simp
    · simp [h, Ne.symm h]

theorem mem_keys_collect {m : OrderedMap κ ν} {xs : List α} {k : κ} :
    k ∈ (collect key f m xs).keys ↔ k ∈ m.keys ∨ ∃ x ∈ xs, key x = k := by
  induction xs generalizing m with
  | nil => simp
  | cons x xs ih =>
    change k ∈ (collect key f (m.upsert (key x) (f x)) xs).keys ↔ _
    have hk : k ∈ (m.upsert (key x) (f x)).keys ↔ k ∈ m.keys ∨ key x = k := by
      rw [keys_upsert]
      split
      · rename_i hx
        exact ⟨Or.inl, fun h => h.elim id fun h => h ▸ hx⟩
      · simp [eq_comm]
    rw [ih, hk, or_assoc]
    simp

/-- Collected from nothing, the keys stand in the order of their first items. -/
theorem keys_collect_empty (xs : List α) :
    (collect key f (empty : OrderedMap κ ν) xs).keys = (xs.map key).eraseDups := by
  induction xs using List.reverseRecOn with
  | nil => rfl
  | append_singleton xs x ih =>
    rw [collect_snoc, keys_upsert, ih, List.map_append, List.eraseDups_append]
    by_cases h : key x ∈ xs.map key
    · have hr : [key x].removeAll (xs.map key) = [] := by
        simpa [List.removeAll] using h
      simp [h, hr, List.mem_eraseDups]
    · have hr : [key x].removeAll (xs.map key) = [key x] := by
        simpa [List.removeAll] using h
      simp [h, hr, List.mem_eraseDups, List.eraseDups_cons]

end Collect

end OrderedMap
