import Meguro.Uthash.Table
import Mathlib.Algebra.Group.Nat.Defs

/-!
# Items in buckets

The chains of the buckets hold exactly the items, each in the bucket of its
index, and every bucket knows the length of its chain as long as the items can be
counted. A push or an unlink in one bucket writes links of its own chain only, so the
other buckets keep theirs.
-/

namespace Meguro

open LinkedList

variable {ι : Type*}

/-- An `unsigned` that is not at its end counts on. -/
theorem toNat_add_one {count : UInt32} (h : count.toNat + 1 < 2 ^ 32) :
    (count + 1).toNat = count.toNat + 1 := by
  rw [UInt32.toNat_add]
  exact Nat.mod_eq_of_lt h

/-- An `unsigned` that has counted counts back. -/
theorem toNat_sub_one {count : UInt32} (h : 0 < count.toNat) :
    (count - 1).toNat = count.toNat - 1 :=
  UInt32.toNat_sub_of_le _ _ (UInt32.le_iff_toNat_le.mpr h)

/-- The buckets below `num` hold the items, by index. -/
def InBuckets (bkt : ι → Links ι) (index : ι → Nat) (buckets : Nat → UTHashBucket ι) (num : Nat)
    (items : List ι) : Prop :=
  ∀ i < num, ∃ chain, IsList bkt (buckets i).hhHead chain ∧ (buckets i).count.toNat = chain.length ∧
    chain.Perm (items.filter (index · = i))

namespace InBuckets

variable {bkt : ι → Links ι} {index : ι → Nat} {buckets : Nat → UTHashBucket ι} {num : Nat}
  {items xs ys : List ι} {a : ι}

/-- Empty buckets hold nothing. -/
theorem empty : InBuckets bkt index (fun _ => ⟨none, 0, 0⟩) num [] := fun _ _ =>
  ⟨[], rfl, rfl, .nil⟩

theorem perm (h : InBuckets bkt index buckets num items) (hperm : items.Perm xs) :
    InBuckets bkt index buckets num xs := by
  intro i hi
  obtain ⟨chain, hlist, hcount, hchain⟩ := h i hi
  exact ⟨chain, hlist, hcount, hchain.trans (hperm.filter _)⟩

/-- Only the buckets of the items matter. -/
theorem congr {index' : ι → Nat} (h : InBuckets bkt index buckets num items)
    (hindex : ∀ c ∈ items, index' c = index c) : InBuckets bkt index' buckets num items := by
  intro i hi
  obtain ⟨chain, hlist, hcount, hchain⟩ := h i hi
  refine ⟨chain, hlist, hcount, hchain.trans (.of_eq ?_)⟩
  exact List.filter_congr fun c hc => by rw [hindex c hc]

theorem index_eq {chain : List ι} {i : Nat} (h : chain.Perm (items.filter (index · = i))) {c : ι}
    (hc : c ∈ chain) : index c = i := by
  have hmem := h.mem_iff.mp hc
  rw [List.mem_filter, decide_eq_true_eq] at hmem
  exact hmem.2

variable [DecidableEq ι]

/-- Adding an item to its bucket. -/
theorem push (h : InBuckets bkt index buckets num items) (hn : items.Nodup) (ha : a ∉ items)
    (hlength : items.length + 1 < 2 ^ 32) (hindex : index a < num) (expandMult : UInt32) :
    InBuckets (pushFront bkt (buckets (index a)).hhHead a) index
      (Function.update buckets (index a) ⟨some a, (buckets (index a)).count + 1, expandMult⟩) num
      (items ++ [a]) := by
  obtain ⟨own, hown, hcount, hperm⟩ := h (index a) hindex
  intro i hi
  rw [List.filter_append]
  by_cases hia : i = index a
  · subst hia
    have hmem : a ∉ own := fun hc => ha (List.mem_of_mem_filter (hperm.mem_iff.mp hc))
    refine ⟨a :: own, ?_, ?_, ?_⟩
    · rw [Function.update_self]
      exact hown.pushFront (hperm.nodup_iff.mpr (hn.filter _)) hmem
    · have hfits : own.length ≤ items.length := hperm.length_eq ▸ List.length_filter_le ..
      rw [Function.update_self, toNat_add_one (by omega), hcount]
      rfl
    · have hself : [a].filter (index · = index a) = [a] := by simp
      rw [hself]
      exact (hperm.cons a).trans (List.perm_append_singleton a _).symm
  · obtain ⟨chain, hlist, hchainLength, hchain⟩ := h i hi
    refine ⟨chain, ?_, ?_, ?_⟩
    · rw [Function.update_of_ne hia]
      refine hlist.congr fun c hc => pushFront_of_ne ?_ ?_
      · rintro rfl
        exact ha (List.mem_of_mem_filter (hchain.mem_iff.mp hc))
      · rw [hown.head_eq, Option.or_none]
        intro he
        have howned := index_eq hperm (List.mem_of_mem_head? he)
        exact hia ((index_eq hchain hc).symm.trans howned)
    · rw [Function.update_of_ne hia, hchainLength]
    · have hother : [a].filter (index · = i) = [] := by simp [Ne.symm hia]
      rw [hother, List.append_nil]
      exact hchain

/-- Removing an item from its bucket. -/
theorem unlink (h : InBuckets bkt index buckets num (xs ++ a :: ys)) (hn : (xs ++ a :: ys).Nodup)
    (hindex : index a < num) : InBuckets (LinkedList.unlink bkt a) index
      (Function.update buckets (index a)
        { buckets (index a) with
          hhHead := if (buckets (index a)).hhHead = some a then (bkt a).next
            else (buckets (index a)).hhHead
          count := (buckets (index a)).count - 1 }) num (xs ++ ys) := by
  obtain ⟨own, hown, hcount, hperm⟩ := h (index a) hindex
  have hnown : own.Nodup := hperm.nodup_iff.mpr (hn.filter _)
  have hmem : a ∈ own := hperm.mem_iff.mpr (by simp)
  obtain ⟨us, vs, rfl⟩ := List.append_of_mem hmem
  have hlinks := hown.links
  intro i hi
  by_cases hia : i = index a
  · subst hia
    refine ⟨us ++ vs, ?_, ?_, ?_⟩
    · have hhead : (if (buckets (index a)).hhHead = some a then (bkt a).next
          else (buckets (index a)).hhHead) = (us ++ vs).head? := by
        rw [hown.head_eq, Option.or_none, hlinks]
        cases us with
        | nil => exact if_pos rfl
        | cons u us =>
          have hne : u ≠ a := by
            rintro rfl
            exact (List.nodup_cons.mp hnown).1 (by simp)
          exact if_neg fun he => hne (Option.some.inj he)
      rw [Function.update_self]
      change IsList _ (if _ then _ else _) _
      rw [hhead]
      exact hown.unlink hnown
    · rw [Function.update_self]
      change ((buckets (index a)).count - 1).toNat = _
      rw [toNat_sub_one (by rw [hcount]; exact List.length_pos_of_mem hmem), hcount]
      simp
    · have hmiddle := List.perm_middle.symm.trans (hperm.trans (List.perm_middle.filter _))
      rw [List.filter_cons_of_pos (by simp)] at hmiddle
      exact hmiddle.cons_inv
  · obtain ⟨chain, hlist, hlength, hchain⟩ := h i hi
    refine ⟨chain, ?_, ?_, ?_⟩
    · rw [Function.update_of_ne hia]
      have hforeign : ∀ c ∈ us ++ a :: vs, c ∉ chain := fun c hc hc' =>
        hia ((index_eq hchain hc').symm.trans (index_eq hperm hc))
      refine hlist.congr fun c hc => unlink_of_ne ?_ ?_
      · rw [hlinks]
        exact fun he => hforeign c (by simp [List.mem_of_getLast? he]) hc
      · rw [hlinks]
        exact fun he => hforeign c (by simp [List.mem_of_mem_head? he]) hc
    · rw [Function.update_of_ne hia, hlength]
    · have hother : (xs ++ a :: ys).filter (index · = i) = (xs ++ ys).filter (index · = i) := by
        rw [List.filter_append, List.filter_append,
          List.filter_cons_of_neg (by simpa using Ne.symm hia)]
      rwa [hother] at hchain

end InBuckets

end Meguro
