import Mathlib.Data.List.Basic

/-!
# Output buffers of bounded size

A writer that counts the room left in its buffer and drops what no longer fits.
Whatever it is given one by one, the buffer holds as much of it as fits.
-/

/-- What has been written, and how much room is left. -/
structure OutBuffer (α : Type*) where
  written : List α
  left : Nat

namespace OutBuffer

variable {α : Type*}

/-- Write one item if there is room for it. -/
def put (out : OutBuffer α) (a : α) : OutBuffer α :=
  if out.left = 0 then out else ⟨out.written ++ [a], out.left - 1⟩

/-- Write the items one by one. -/
def putAll (out : OutBuffer α) (as : List α) : OutBuffer α := as.foldl put out

theorem putAll_append (out : OutBuffer α) (as bs : List α) :
    out.putAll (as ++ bs) = (out.putAll as).putAll bs := List.foldl_append

/-- As much is written as fits. -/
theorem putAll_eq (out : OutBuffer α) (as : List α) :
    out.putAll as = ⟨out.written ++ as.take out.left, out.left - as.length⟩ := by
  induction as generalizing out with
  | nil => simp [putAll]
  | cons a as ih =>
    change (out.put a).putAll as = _
    rw [ih]
    unfold put
    by_cases hfull : out.left = 0
    · simp [hfull]
    · obtain ⟨n, hn⟩ := Nat.exists_eq_succ_of_ne_zero hfull
      rw [if_neg hfull, hn]
      simp

/-- A new buffer of this size ends up with the first items. -/
theorem written_putAll (size : Nat) (as : List α) :
    (putAll ⟨[], size⟩ as).written = as.take size := by
  rw [putAll_eq]
  rfl

end OutBuffer
