import Mathlib.Data.List.Nodup
import Mathlib.Data.List.Perm.Basic
import Mathlib.Data.List.Range
import Mathlib.Logic.Equiv.Basic

/-!
# Heapsort

Heapsort of an array in place, for a layout in which the children of entry `i` are
the entries `2 * i` and `2 * i + 1`: entry 0 has entry 1 as its only child. All it
does to the array is to rearrange its entries.
-/

namespace Heapsort

variable {α : Type*} (val : α → Nat)

/-- Exchange two entries. -/
def swap (a : Nat → α) (i j : Nat) : Nat → α := fun k =>
  if k = i then a j else if k = j then a i else a k

/-- An entry sinks below its larger children, as far as the entry `top`. -/
def sink (top : Nat) : Nat → Nat → (Nat → α) → Nat → α
  | 0, _, a => a
  | fuel + 1, i, a =>
    if 2 * i ≤ top then
      let child := if 2 * i < top ∧ val (a (2 * i + 1)) > val (a (2 * i)) then 2 * i + 1 else 2 * i
      if val (a i) ≥ val (a child) then a
      else sink top fuel child (swap a i child)
    else a

/-- Sort the first `n` entries: build a heap from its inner entries up, then move
the first entry behind the heap and let its successor sink. -/
def sort (n : Nat) (a : Nat → α) : Nat → α :=
  (List.range (n - 1)).reverse.foldl (fun a top => sink val top n 0 (swap a 0 (top + 1)))
    ((List.range ((n - 1) / 2 + 1)).reverse.foldl (fun a i => sink val (n - 1) n i a) a)

/-- The first `n` entries. -/
def entries (n : Nat) (a : Nat → α) : List α := (List.range n).map a

variable {val}

/-! ## Rearranging -/

theorem swap_perm (a : Nat → α) {n i j : Nat} (hi : i < n) (hj : j < n) :
    (entries n (swap a i j)).Perm (entries n a) := by
  have hswap : entries n (swap a i j) = ((List.range n).map (Equiv.swap i j)).map a := by
    rw [List.map_map]
    refine List.map_congr_left fun k _ => ?_
    rw [Function.comp_apply, Equiv.swap_apply_def, swap]
    split_ifs <;> rfl
  have hmem : ∀ k, Equiv.swap i j k < n ↔ k < n := by
    intro k
    rw [Equiv.swap_apply_def]
    split_ifs <;> omega
  rw [hswap]
  refine List.Perm.map a ((List.perm_ext_iff_of_nodup ?_ List.nodup_range).mpr fun k => ?_)
  · exact List.Nodup.map (Equiv.swap i j).injective List.nodup_range
  · rw [List.mem_range, List.mem_map]
    constructor
    · rintro ⟨l, hl, rfl⟩
      exact (hmem l).mpr (List.mem_range.mp hl)
    · intro hk
      exact ⟨Equiv.swap i j k, List.mem_range.mpr ((hmem k).mpr hk), Equiv.swap_apply_self i j k⟩

/-- Sinking rearranges the entries as far as `top`. -/
theorem sink_perm {top n fuel i : Nat} (a : Nat → α) (hi : i ≤ top) (htop : top < n) :
    (entries n (sink val top fuel i a)).Perm (entries n a) := by
  induction fuel generalizing i a with
  | zero => exact List.Perm.refl _
  | succ fuel ih =>
    unfold sink
    dsimp only
    by_cases hle : 2 * i ≤ top
    · rw [if_pos hle]
      generalize hchild : (if 2 * i < top ∧ val (a (2 * i + 1)) > val (a (2 * i)) then 2 * i + 1
          else 2 * i) = child
      have hchildle : child ≤ top := by split at hchild <;> omega
      split
      · exact List.Perm.refl _
      · exact (ih _ hchildle).trans (swap_perm a (by omega) (by omega))
    · rw [if_neg hle]

/-- A fold over indices rearranges the entries if every step does. -/
theorem foldl_perm {n : Nat} {step : (Nat → α) → Nat → Nat → α} {is : List Nat}
    (hstep : ∀ a, ∀ i ∈ is, (entries n (step a i)).Perm (entries n a)) (a : Nat → α) :
    (entries n (is.foldl step a)).Perm (entries n a) := by
  induction is generalizing a with
  | nil => exact List.Perm.refl _
  | cons i is ih =>
    rw [List.foldl_cons]
    exact (ih (fun a j hj => hstep a j (List.mem_cons_of_mem i hj)) _).trans
      (hstep a i List.mem_cons_self)

/-- Sorting rearranges the entries. -/
theorem sort_perm (n : Nat) (a : Nat → α) : (entries n (sort val n a)).Perm (entries n a) := by
  rcases Nat.eq_zero_or_pos n with rfl | hn
  · exact List.Perm.refl _
  · refine (foldl_perm (fun a i hi => ?_) _).trans (foldl_perm (fun a i hi => ?_) _)
    · rw [List.mem_reverse, List.mem_range] at hi
      exact (sink_perm _ (Nat.zero_le _) (by omega)).trans (swap_perm a hn (by omega))
    · rw [List.mem_reverse, List.mem_range] at hi
      exact sink_perm a (by omega) (by omega)

/-- Sort a list in an array. -/
def sortList [Inhabited α] (val : α → Nat) (as : List α) : List α :=
  entries as.length (sort val as.length fun i => as.getD i default)

theorem sortList_perm [Inhabited α] (as : List α) : (sortList val as).Perm as := by
  have hentries : entries as.length (fun i => as.getD i default) = as := by
    refine List.ext_getElem (by simp [entries]) fun i hi hi' => ?_
    simp [entries, List.getD_eq_getElem?_getD, List.getElem?_eq_getElem hi']
  exact (sort_perm _ _).trans (List.Perm.of_eq hentries)

end Heapsort
