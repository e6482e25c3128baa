import Mathlib.Data.List.Nodup
import Mathlib.Data.List.Range
import Mathlib.Data.List.Induction

/-!
# Occurrence ranks

Every entry of a list is paired with the number of equal entries before it. No
two entries get the same pair, and an element that occurs `n` times gets exactly
the ranks `0, …, n - 1`, in this order. A naming scheme `name x j` therefore
gives distinct names to all entries exactly when it is injective on these pairs.
-/

namespace Occurrence

variable {α β : Type*} [DecidableEq α]

/-- The entries of a list, each with the number of equal entries before it;
`past` is what has been read already. -/
def rankedFrom : List α → List α → List (α × Nat)
  | _, [] => []
  | past, x :: xs => (x, past.count x) :: rankedFrom (past ++ [x]) xs

/-- Entries with their occurrence ranks. -/
def ranked (xs : List α) : List (α × Nat) := rankedFrom [] xs

theorem rankedFrom_append (past xs ys : List α) :
    rankedFrom past (xs ++ ys) = rankedFrom past xs ++ rankedFrom (past ++ xs) ys := by
  induction xs generalizing past with
  | nil => simp [rankedFrom]
  | cons x xs ih => simp [rankedFrom, ih]

theorem ranked_snoc (xs : List α) (x : α) :
    ranked (xs ++ [x]) = ranked xs ++ [(x, xs.count x)] := by
  simp [ranked, rankedFrom_append, rankedFrom]

@[simp] theorem map_fst_ranked (xs : List α) : (ranked xs).map Prod.fst = xs := by
  induction xs using List.reverseRecOn with
  | nil => rfl
  | append_singleton xs x ih => simp [ranked_snoc, ih]

/-- The entries equal to `x` carry the ranks `0, …, n - 1` in this order. -/
theorem filter_ranked (xs : List α) (x : α) :
    (ranked xs).filter (·.1 = x) = (List.range (xs.count x)).map (x, ·) := by
  induction xs using List.reverseRecOn with
  | nil => rfl
  | append_singleton xs y ih =>
    rw [ranked_snoc, List.filter_append, ih, List.count_append]
    by_cases h : y = x
    · subst y
      simp [List.range_succ]
    · simp [h]

theorem mem_ranked {xs : List α} {x : α} {j : Nat} : (x, j) ∈ ranked xs ↔ j < xs.count x := by
  have h : (x, j) ∈ ranked xs ↔ (x, j) ∈ (ranked xs).filter (·.1 = x) := by simp
  rw [h, filter_ranked]
  simp

/-- No pair is given twice. -/
theorem nodup_ranked (xs : List α) : (ranked xs).Nodup := by
  induction xs using List.reverseRecOn with
  | nil => exact List.nodup_nil
  | append_singleton xs x ih =>
    rw [ranked_snoc]
    apply List.Nodup.append ih (List.nodup_singleton _)
    simp [mem_ranked]

/-- Names computed from an entry and its rank are distinct exactly when the
scheme does not confuse two pairs that occur. -/
theorem nodup_names_iff (name : α → Nat → β) (xs : List α) :
    ((ranked xs).map fun p => name p.1 p.2).Nodup ↔
      ∀ x j y i, j < xs.count x → i < xs.count y → name x j = name y i → x = y ∧ j = i := by
  rw [List.nodup_map_iff_inj_on (nodup_ranked xs)]
  constructor
  · intro h x j y i hx hy he
    have := h (x, j) (mem_ranked.mpr hx) (y, i) (mem_ranked.mpr hy) he
    exact Prod.ext_iff.mp this
  · rintro h ⟨x, j⟩ hx ⟨y, i⟩ hy he
    obtain ⟨rfl, rfl⟩ := h x j y i (mem_ranked.mp hx) (mem_ranked.mp hy) he
    rfl

end Occurrence
