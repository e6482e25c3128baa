import Meguro.Core.OrderedMap
import Mathlib.Data.List.Perm.Basic
import Mathlib.Data.List.Perm.Lattice

/-!
# Map, group and reduce

What a map-reduce computation means, without threads and files: every item is
mapped to pairs, the values of each key are gathered, and every group is
reduced. The result depends on the order of the pairs only through the order of
the values within a group, so a reduce function that ignores this order gives
the same results on every permutation of the input.
-/

namespace Grouping

variable {α κ ν β : Type*} [DecidableEq κ]

/-- The values of a key, in order. -/
def valuesOf (ps : List (κ × ν)) (k : κ) : List ν := (ps.filter (·.1 = k)).map Prod.snd

/-- The keys in the order of their first pairs, each with its values. -/
def groups (ps : List (κ × ν)) : List (κ × List ν) :=
  (ps.map Prod.fst).eraseDups.map fun k => (k, valuesOf ps k)

/-- Map every item, gather the values of each key and reduce every group. -/
def mapReduce (map : α → List (κ × ν)) (reduce : κ → List ν → List β) (xs : List α) : List β :=
  (groups (xs.flatMap map)).flatMap fun g => reduce g.1 g.2

/-- The results do not depend on the order of the values of a group. -/
def OrderBlind (reduce : κ → List ν → List β) : Prop :=
  ∀ k vs ws, vs.Perm ws → reduce k vs = reduce k ws

theorem nodup_eraseDups (ks : List κ) : ks.eraseDups.Nodup := by
  have hkeys := OrderedMap.keys_collect_empty id (fun _ _ => ()) ks
  rw [List.map_id] at hkeys
  rw [← hkeys]
  exact OrderedMap.nodup _

/-- The same keys stand in two permuted lists, in some order. -/
theorem eraseDups_perm {ks js : List κ} (h : ks.Perm js) : ks.eraseDups.Perm js.eraseDups := by
  apply (List.perm_ext_iff_of_nodup (nodup_eraseDups ks) (nodup_eraseDups js)).mpr
  intro k
  rw [List.mem_eraseDups, List.mem_eraseDups, h.mem_iff]

theorem valuesOf_perm {ps qs : List (κ × ν)} (h : ps.Perm qs) (k : κ) :
    (valuesOf ps k).Perm (valuesOf qs k) :=
  (h.filter _).map _

/-- Pairs in another order reduce to the same results, in another order. -/
theorem reduce_groups_perm {reduce : κ → List ν → List β} (hblind : OrderBlind reduce)
    {ps qs : List (κ × ν)} (h : ps.Perm qs) :
    ((groups ps).flatMap fun g => reduce g.1 g.2).Perm
      ((groups qs).flatMap fun g => reduce g.1 g.2) := by
  unfold groups
  rw [List.flatMap_map, List.flatMap_map]
  have hsame : ∀ k, reduce k (valuesOf ps k) = reduce k (valuesOf qs k) := fun k =>
    hblind k _ _ (valuesOf_perm h k)
  simp only [hsame]
  exact (eraseDups_perm (h.map Prod.fst)).flatMap_right _

end Grouping
