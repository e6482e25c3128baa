import Mathlib.Data.List.Perm.Basic

/-!
# Interleavings

A list of entries tagged with their owners interleaves the lists of the owners.
Two such lists in which every owner has the same entries in the same order have
the same entries altogether.
-/

namespace Interleaving

variable {κ α : Type*} [DecidableEq κ]

/-- The entries of an owner, in order. -/
def ofOwner (k : κ) (xs : List (κ × α)) : List (κ × α) := xs.filter (·.1 = k)

@[simp] theorem ofOwner_nil (k : κ) : ofOwner k ([] : List (κ × α)) = [] := rfl

@[simp] theorem ofOwner_append (k : κ) (xs ys : List (κ × α)) :
    ofOwner k (xs ++ ys) = ofOwner k xs ++ ofOwner k ys :=
  List.filter_append ..

theorem ofOwner_self (k : κ) (x : α) : ofOwner k [(k, x)] = [(k, x)] := by
  simp [ofOwner]

theorem ofOwner_of_ne {k k' : κ} (h : k' ≠ k) (x : α) : ofOwner k [(k', x)] = [] := by
  simp [ofOwner, h]

/-- Interleavings of the same lists have the same entries. -/
theorem perm_of_ofOwner_eq {xs ys : List (κ × α)} (h : ∀ k, ofOwner k xs = ofOwner k ys) :
    xs.Perm ys := by
  classical
  rw [List.perm_iff_count]
  rintro ⟨k, x⟩
  have hcount : ∀ zs : List (κ × α), zs.count (k, x) = (ofOwner k zs).count (k, x) := fun zs =>
    (List.count_filter (by simp)).symm
  rw [hcount xs, hcount ys, h k]

end Interleaving
