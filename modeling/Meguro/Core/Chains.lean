import Mathlib.Data.List.Flatten
import Mathlib.Data.List.Nodup
import Mathlib.Data.List.Perm.Basic
import Mathlib.Data.List.Perm.Lattice
import Mathlib.Logic.Function.Basic

/-!
# Items in chains

Every item has an index, and the chain of each index holds the items of this
index in some order. Chains may be reordered freely; an item is added to and
removed from its own chain only, and items that are put at the end of their
chains one by one are all held.
-/

namespace Chains

variable {α : Type*} {index : α → Nat} {chains : Nat → List α} {num : Nat} {items : List α} {a : α}

/-- The chains below `num` hold the items, by index. -/
structure Holds (index : α → Nat) (chains : Nat → List α) (num : Nat) (items : List α) : Prop where
  chain : ∀ i < num, (chains i).Perm (items.filter (index · = i))
  index_lt : ∀ a ∈ items, index a < num

/-- The items of the indices, one index after the other, are all items. -/
theorem flatMap_filter_perm (hn : items.Nodup) (hindex : ∀ a ∈ items, index a < num) :
    ((List.range num).flatMap fun i => items.filter (index · = i)).Perm items := by
  have hnodup : ((List.range num).flatMap fun i => items.filter (index · = i)).Nodup := by
    rw [List.nodup_flatMap]
    refine ⟨fun i _ => hn.filter _, List.nodup_range.imp fun hne c hc hc' => hne ?_⟩
    simp only [List.mem_filter, decide_eq_true_eq] at hc hc'
    exact hc.2.symm.trans hc'.2
  apply (List.perm_ext_iff_of_nodup hnodup hn).mpr
  intro c
  simp only [List.mem_flatMap, List.mem_range, List.mem_filter, decide_eq_true_eq]
  exact ⟨fun ⟨_, _, hc, _⟩ => hc, fun hc => ⟨index c, hindex c hc, hc, rfl⟩⟩

/-- An item is in the chain of its index only. -/
theorem filter_cons_of_ne {i : Nat} (h : i ≠ index a) (items : List α) :
    (a :: items).filter (index · = i) = items.filter (index · = i) :=
  List.filter_cons_of_neg (by rw [decide_eq_true_eq]; exact h.symm)

theorem filter_cons_self (a : α) (items : List α) :
    (a :: items).filter (index · = index a) = a :: items.filter (index · = index a) :=
  List.filter_cons_of_pos (by rw [decide_eq_true_eq])

namespace Holds

/-- Empty chains hold nothing. -/
theorem empty : Holds index (fun _ => []) num [] :=
  ⟨fun _ _ => .nil, fun _ ha => nomatch ha⟩

theorem mem_chain (h : Holds index chains num items) {i : Nat} (hi : i < num) :
    a ∈ chains i ↔ a ∈ items ∧ index a = i := by
  rw [(h.chain i hi).mem_iff, List.mem_filter, decide_eq_true_eq]

/-- The chains, one after the other, are the items. -/
theorem flatMap_perm (h : Holds index chains num items) (hn : items.Nodup) :
    ((List.range num).flatMap chains).Perm items := by
  refine .trans ?_ (flatMap_filter_perm hn h.index_lt)
  exact List.Perm.flatMap_left _ fun i hi => h.chain i (List.mem_range.mp hi)

/-- A chain in another order holds the same. -/
theorem reorder (h : Holds index chains num items) {i : Nat} {chain : List α}
    (hchain : chain.Perm (chains i)) : Holds index (Function.update chains i chain) num items := by
  refine ⟨fun j hj => ?_, h.index_lt⟩
  by_cases hji : j = i
  · subst hji
    rw [Function.update_self]
    exact hchain.trans (h.chain j hj)
  · rw [Function.update_of_ne hji]
    exact h.chain j hj

/-- An item is added to its chain. -/
theorem insert (h : Holds index chains num items) (hindex : index a < num) {chain : List α}
    (hchain : chain.Perm (a :: chains (index a))) :
    Holds index (Function.update chains (index a) chain) num (a :: items) := by
  refine ⟨fun j hj => ?_, List.forall_mem_cons.mpr ⟨hindex, h.index_lt⟩⟩
  by_cases hja : j = index a
  · subst hja
    rw [Function.update_self, filter_cons_self]
    exact hchain.trans ((h.chain _ hj).cons a)
  · rw [Function.update_of_ne hja, filter_cons_of_ne hja]
    exact h.chain j hj

/-- An item is taken out of its chain. -/
theorem remove (h : Holds index chains num (a :: items)) {chain : List α}
    (hchain : (a :: chain).Perm (chains (index a))) :
    Holds index (Function.update chains (index a) chain) num items := by
  have hall := List.forall_mem_cons.mp h.index_lt
  refine ⟨fun j hj => ?_, hall.2⟩
  have hj' := h.chain j hj
  by_cases hja : j = index a
  · subst hja
    rw [filter_cons_self] at hj'
    rw [Function.update_self]
    exact (hchain.trans hj').cons_inv
  · rw [filter_cons_of_ne hja] at hj'
    rw [Function.update_of_ne hja]
    exact hj'

theorem perm (h : Holds index chains num items) {others : List α} (hperm : items.Perm others) :
    Holds index chains num others :=
  ⟨fun i hi => (h.chain i hi).trans (hperm.filter _),
    fun a ha => h.index_lt a (hperm.mem_iff.mpr ha)⟩

end Holds

/-- What a search finds and what the first match is taken out of are the whole list. -/
theorem cons_eraseP_perm {p : α → Bool} {l : List α} (h : l.find? p = some a) :
    (a :: l.eraseP p).Perm l := by
  induction l with
  | nil => cases h
  | cons b l ih =>
    cases hb : p b with
    | true =>
      rw [List.find?_cons_of_pos hb] at h
      rw [List.eraseP_cons_of_pos hb, Option.some.inj h]
    | false =>
      have hneg : ¬ p b = true := Bool.not_eq_true _ ▸ hb
      rw [List.find?_cons_of_neg hneg] at h
      rw [List.eraseP_cons_of_neg hneg]
      exact (List.Perm.swap b a _).trans ((ih h).cons b)

/-- Put an item at the end of its chain. -/
def place (index : α → Nat) (chains : Nat → List α) (a : α) : Nat → List α :=
  Function.update chains (index a) (chains (index a) ++ [a])

/-- Items that are put at the ends of their chains one by one are held. -/
theorem Holds.foldl_place (h : Holds index chains num items) {others : List α}
    (hindex : ∀ a ∈ others, index a < num) :
    Holds index (others.foldl (place index) chains) num (others ++ items) := by
  induction others generalizing chains items with
  | nil => exact h
  | cons a others ih =>
    obtain ⟨ha, hothers⟩ := List.forall_mem_cons.mp hindex
    have hplace := h.insert ha (List.perm_append_singleton a (chains (index a)))
    exact (ih hplace hothers).perm List.perm_middle

end Chains
