import Mathlib.Data.List.Infix

/-!
# First-occurrence search

`search needle hay` is the part of `hay` that begins at the first occurrence of
`needle`. What stands before it never contains the needle. A two-letter needle
of different letters cannot overlap itself, so appending it to a word that does
not contain it creates its first occurrence right there.
-/

namespace Search

variable {α : Type*} [DecidableEq α]

/-- The suffix of the second list that begins at the first occurrence of the first. -/
def search (needle : List α) : List α → Option (List α)
  | [] => if needle = [] then some [] else none
  | x :: xs => if needle <+: x :: xs then some (x :: xs) else search needle xs

theorem search_eq_none_iff {needle hay : List α} :
    search needle hay = none ↔ ¬ needle <:+: hay := by
  induction hay with
  | nil => simp [search]
  | cons x xs ih =>
    rw [search, List.infix_cons_iff, not_or]
    by_cases h : needle <+: x :: xs <;> simp [h, ih]

/-- The first occurrence splits the searched list; the needle is not in the part before it. -/
theorem search_eq_some {needle hay found : List α} (hn : needle ≠ [])
    (h : search needle hay = some found) :
    ∃ before after, hay = before ++ found ∧ found = needle ++ after ∧ ¬ needle <:+: before := by
  induction hay with
  | nil => simp [search, hn] at h
  | cons x xs ih =>
    rw [search] at h
    by_cases hp : needle <+: x :: xs
    · obtain ⟨after, ha⟩ := hp
      have hf : x :: xs = found := by simpa [← ha] using h
      exact ⟨[], after, hf, by rw [← hf, ha], by simpa using hn⟩
    · simp only [hp, if_false] at h
      obtain ⟨before, after, rfl, rfl, hb⟩ := ih h
      refine ⟨x :: before, after, rfl, rfl, ?_⟩
      rw [List.infix_cons_iff, not_or]
      refine ⟨fun hpre => hp ?_, hb⟩
      exact hpre.trans (List.prefix_append (x :: before) (needle ++ after))

/-- No occurrence begins before the one the search finds. -/
theorem length_le_of_search {needle hay found before after : List α}
    (h : search needle hay = some found) (hh : hay = before ++ needle ++ after) :
    (needle ++ after).length ≤ found.length := by
  induction hay generalizing before with
  | nil =>
    have hlen := congrArg List.length hh
    simp only [List.length_nil, List.length_append] at hlen ⊢
    omega
  | cons x xs ih =>
    rw [search] at h
    by_cases hp : needle <+: x :: xs
    · rw [if_pos hp, Option.some.injEq] at h
      rw [← h, hh]
      simp only [List.length_append]
      omega
    · rw [if_neg hp] at h
      cases before with
      | nil => exact absurd ⟨after, hh.symm⟩ hp
      | cons y before => exact ih h (List.cons.inj hh).2

/-- What stands behind an occurrence does not change which one is the first. -/
theorem search_append {needle hay found : List α} (hn : needle ≠ [])
    (h : search needle hay = some found) (more : List α) :
    search needle (hay ++ more) = some (found ++ more) := by
  induction hay with
  | nil => simp [search, hn] at h
  | cons x xs ih =>
    rw [search] at h
    by_cases hp : needle <+: x :: xs
    · rw [if_pos hp, Option.some.injEq] at h
      subst h
      have hp' : needle <+: x :: (xs ++ more) := hp.trans (List.prefix_append (x :: xs) more)
      rw [List.cons_append, search, if_pos hp']
    · rw [if_neg hp] at h
      obtain ⟨before, after, hxs, hfound, -⟩ := search_eq_some hn h
      have hlen : needle.length ≤ (x :: xs).length := by
        rw [hxs, hfound]
        simp only [List.length_cons, List.length_append]
        omega
      have hp' : ¬ needle <+: x :: (xs ++ more) := fun hpre =>
        hp (List.prefix_of_prefix_length_le hpre (List.prefix_append (x :: xs) more) hlen)
      rw [List.cons_append, search, if_neg hp']
      exact ih h

section Pair

variable {a b : α}

/-- An appended two-letter needle is the first one when there is none before it. -/
theorem search_pair_append (hab : a ≠ b) {word : List α} (h : ¬ [a, b] <:+: word)
    (after : List α) : search [a, b] (word ++ a :: b :: after) = some (a :: b :: after) := by
  induction word with
  | nil => simp [search]
  | cons x word ih =>
    rw [List.infix_cons_iff, not_or] at h
    have hp : ¬ [a, b] <+: x :: (word ++ a :: b :: after) := by
      intro hp
      obtain ⟨rfl, hb⟩ := List.cons_prefix_cons.mp hp
      cases word with
      | nil => exact hab (List.cons_prefix_cons.mp hb).1.symm
      | cons y word =>
        obtain ⟨rfl, -⟩ := List.cons_prefix_cons.mp hb
        exact h.1 (by simp)
    rw [List.cons_append, search, if_neg hp]
    exact ih h.2

omit [DecidableEq α] in
/-- The last needle of a word is found again when its second letter does not follow. -/
theorem append_pair_inj {word word' after after' : List α} (h : b ∉ after) (h' : b ∉ after')
    (he : word ++ a :: b :: after = word' ++ a :: b :: after') : word = word' ∧ after = after' := by
  have hr := congrArg List.reverse he
  simp only [List.reverse_append, List.reverse_cons, List.append_assoc,
    List.cons_append, List.nil_append] at hr
  have hmem : b ∉ after.reverse := by simpa using h
  have hmem' : b ∉ after'.reverse := by simpa using h'
  obtain ⟨hafter, hword⟩ : after.reverse = after'.reverse ∧
      a :: word.reverse = a :: word'.reverse := by
    have hsplit := List.append_eq_append_iff.mp hr
    rcases hsplit with ⟨c, hc, hd⟩ | ⟨c, hc, hd⟩
    · cases c with
      | nil => simp_all
      | cons y c =>
        obtain ⟨rfl, -⟩ := List.cons.inj hd
        simp [hc] at hmem'
    · cases c with
      | nil => simp_all
      | cons y c =>
        obtain ⟨rfl, -⟩ := List.cons.inj hd
        simp [hc] at hmem
  exact ⟨List.reverse_inj.mp (List.cons.inj hword).2, List.reverse_inj.mp hafter⟩

end Pair

end Search
