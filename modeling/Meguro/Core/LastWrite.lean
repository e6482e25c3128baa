import Mathlib.Data.Finmap
import Mathlib.Data.List.Induction
import Mathlib.Data.List.Nodup

/-!
# Finite maps under a sequence of writes

A write inserts the value of a key or replaces the present one. After a list of
writes a key holds the value of the last write to it, and when no key is written
twice nothing is replaced: there are as many keys as writes, and the order in
which the writes land does not matter.
-/

namespace LastWrite

variable {κ ν : Type*} [DecidableEq κ]

/-- Apply the writes from left to right. -/
def writes (m : Finmap fun _ : κ => ν) (ws : List (κ × ν)) : Finmap fun _ : κ => ν :=
  ws.foldl (fun m w => m.insert w.1 w.2) m

/-- The value of the last write to a key. -/
def lastValue (ws : List (κ × ν)) (k : κ) : Option ν :=
  (ws.filter (·.1 = k)).getLast?.map Prod.snd

variable (m : Finmap fun _ : κ => ν)

theorem writes_append (ws vs : List (κ × ν)) : writes m (ws ++ vs) = writes (writes m ws) vs :=
  List.foldl_append

theorem writes_snoc (ws : List (κ × ν)) (w : κ × ν) :
    writes m (ws ++ [w]) = (writes m ws).insert w.1 w.2 :=
  writes_append m ws [w]

theorem lastValue_snoc (ws : List (κ × ν)) (w : κ × ν) (k : κ) :
    lastValue (ws ++ [w]) k = if w.1 = k then some w.2 else lastValue ws k := by
  by_cases h : w.1 = k <;> simp [lastValue, List.filter_append, h]

/-- A key holds the value of the last write to it, or what it held before. -/
theorem lookup_writes (ws : List (κ × ν)) (k : κ) :
    (writes m ws).lookup k = (lastValue ws k).or (m.lookup k) := by
  induction ws using List.reverseRecOn with
  | nil => rfl
  | append_singleton ws w ih =>
    rw [writes_snoc, lastValue_snoc]
    by_cases h : w.1 = k
    · subst k
      simp
    · rw [Finmap.lookup_insert_of_ne _ (Ne.symm h), ih]
      simp [h]

theorem lookup_writes_empty (ws : List (κ × ν)) (k : κ) :
    (writes ∅ ws).lookup k = lastValue ws k := by
  simp [lookup_writes]

theorem lastValue_eq_none_iff {ws : List (κ × ν)} {k : κ} :
    lastValue ws k = none ↔ k ∉ ws.map Prod.fst := by
  simp only [lastValue, Option.map_eq_none_iff, List.getLast?_eq_none_iff,
    List.filter_eq_nil_iff, decide_eq_true_eq, List.mem_map, not_exists, not_and]

theorem mem_writes_empty {ws : List (κ × ν)} {k : κ} :
    k ∈ writes (∅ : Finmap fun _ : κ => ν) ws ↔ k ∈ ws.map Prod.fst := by
  rw [← Finmap.lookup_isSome, lookup_writes_empty, ← not_iff_not, ← lastValue_eq_none_iff]
  simp

theorem keys_writes_empty (ws : List (κ × ν)) :
    (writes (∅ : Finmap fun _ : κ => ν) ws).keys = (ws.map Prod.fst).toFinset := by
  ext k
  rw [Finmap.mem_keys, mem_writes_empty, List.mem_toFinset]

/-- No write is replaced exactly when there are as many keys as writes. -/
theorem card_writes_empty_iff {ws : List (κ × ν)} :
    (writes (∅ : Finmap fun _ : κ => ν) ws).keys.card = ws.length ↔ (ws.map Prod.fst).Nodup := by
  rw [keys_writes_empty, ← List.length_map (f := Prod.fst)]
  exact ⟨fun h => Multiset.coe_nodup.mp (Multiset.dedup_card_eq_card_iff_nodup.mp h),
    List.toFinset_card_of_nodup⟩

/-- The last value of a key was written to it. -/
theorem mem_of_lastValue {ws : List (κ × ν)} {k : κ} {v : ν} (h : lastValue ws k = some v) :
    (k, v) ∈ ws := by
  obtain ⟨w, hw, rfl⟩ := Option.map_eq_some_iff.mp h
  have hin := List.mem_of_getLast? hw
  rw [List.mem_filter, decide_eq_true_eq] at hin
  rw [← hin.2]
  exact hin.1

/-- Where all writes to a key agree, its last value is theirs. -/
theorem lastValue_of_agree {ws : List (κ × ν)} {k : κ} {v : ν}
    (hmem : k ∈ ws.map Prod.fst) (h : ∀ w ∈ ws, w.1 = k → w.2 = v) : lastValue ws k = some v := by
  obtain ⟨w, hw⟩ := Option.ne_none_iff_exists'.mp (mt lastValue_eq_none_iff.mp (not_not.mpr hmem))
  obtain ⟨p, hp, rfl⟩ : ∃ p, (ws.filter (·.1 = k)).getLast? = some p ∧ p.2 = w := by
    simpa [lastValue] using hw
  have hin := List.mem_of_getLast? hp
  rw [List.mem_filter, decide_eq_true_eq] at hin
  rw [hw, h p hin.1 hin.2]

/-- Where no key is written twice, every write is the last of its key. -/
theorem lastValue_of_nodup {ws : List (κ × ν)} (hn : (ws.map Prod.fst).Nodup) {k : κ} {v : ν}
    (h : (k, v) ∈ ws) : lastValue ws k = some v := by
  refine lastValue_of_agree (List.mem_map.mpr ⟨_, h, rfl⟩) fun w hw hk => ?_
  rw [List.inj_on_of_nodup_map hn hw h hk]

/-- Writes of different keys may come in any order. -/
theorem writes_perm {ws vs : List (κ × ν)} (hn : (ws.map Prod.fst).Nodup) (h : ws.Perm vs) :
    writes m ws = writes m vs := by
  apply Finmap.ext_lookup
  intro k
  have hkeys : (ws.map Prod.fst).Perm (vs.map Prod.fst) := h.map _
  have hlast : lastValue ws k = lastValue vs k := by
    by_cases hk : k ∈ ws.map Prod.fst
    · obtain ⟨⟨j, v⟩, hmem, rfl⟩ := List.mem_map.mp hk
      rw [lastValue_of_nodup hn hmem, lastValue_of_nodup (hkeys.nodup hn) (h.mem_iff.mp hmem)]
    · rw [lastValue_eq_none_iff.mpr hk, lastValue_eq_none_iff.mpr (mt hkeys.mem_iff.mpr hk)]
  rw [lookup_writes, lookup_writes, hlast]

end LastWrite
