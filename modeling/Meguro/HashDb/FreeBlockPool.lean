import Meguro.Core.Heapsort
import Mathlib.Algebra.Group.Nat.Defs
import Mathlib.Data.List.InsertIdx

/-!
# The free block pool of a hash database

The pool is an array of free blocks of the file: sorted by offset to merge
neighbours, by size to search it by bisection. Sorting and inserting rearrange it,
and a bisection ends at a block that is large enough.
-/

namespace Meguro

/-- `HDBFB`. -/
structure HDBFB where
  off : Nat
  rsiz : Nat
  deriving DecidableEq, Repr, Inhabited

namespace HDBFB

/-- `tcfbpsortbyoff` and `tcfbpsortbyrsiz`. -/
def sortByOff (fbpool : List HDBFB) : List HDBFB := Heapsort.sortList HDBFB.off fbpool

def sortByRsiz (fbpool : List HDBFB) : List HDBFB := Heapsort.sortList HDBFB.rsiz fbpool

/-- The loop of `tchdbfbpmerge` from an entry on: two neighbours become one block,
and an iterator on the second one goes behind it. -/
def mergeLoop (iter : Nat) (cur : HDBFB) : List HDBFB → List HDBFB × Nat
  | [] => (if cur.off > 0 then [cur] else [], iter)
  | next :: rest =>
    if cur.off > 0 then
      if cur.off + cur.rsiz = next.off then
        let iter := if iter = next.off then iter + next.rsiz else iter
        let merged := mergeLoop iter { next with off := 0 } rest
        ({ cur with rsiz := (cur.rsiz + next.rsiz) % 2 ^ 32 } :: merged.1, merged.2)
      else
        let merged := mergeLoop iter next rest
        (cur :: merged.1, merged.2)
    else mergeLoop iter next rest

/-- The bisection in `tchdbfbpinsert` and `tchdbfbpsearch`: the candidate among the
blocks that are not smaller than a size. -/
def candLoop (pool : List HDBFB) (rsiz : Nat) : Nat → Int → Int → Option Nat → Option Nat
  | 0, _, _, cand => cand
  | fuel + 1, left, right, cand =>
    let i := ((left + right) / 2).toNat
    if right ≥ left then
      match pool[i]? with
      | none => cand
      | some pv =>
        let rv : Int := rsiz - pv.rsiz
        if rv = 0 then some i
        else if rv ≤ 0 then candLoop pool rsiz fuel left (i - 1) (some i)
        else candLoop pool rsiz fuel (i + 1) right cand
    else cand

def cand (pool : List HDBFB) (rsiz : Nat) : Option Nat :=
  candLoop pool rsiz (pool.length + 1) 0 pool.length none

/-- The end of `tchdbfbpinsert`: a block goes in front of the candidate. -/
def insertAt (pool : List HDBFB) (fb : HDBFB) : List HDBFB :=
  match cand pool fb.rsiz with
  | some i => pool.insertIdx i fb
  | none => pool ++ [fb]

/-- One turn of the loop. -/
theorem mergeLoop_cons (iter : Nat) (cur next : HDBFB) (rest : List HDBFB) :
    mergeLoop iter cur (next :: rest) =
      if cur.off > 0 then
        if cur.off + cur.rsiz = next.off then
          let merged := mergeLoop (if iter = next.off then iter + next.rsiz else iter)
            { next with off := 0 } rest
          ({ cur with rsiz := (cur.rsiz + next.rsiz) % 2 ^ 32 } :: merged.1, merged.2)
        else
          let merged := mergeLoop iter next rest
          (cur :: merged.1, merged.2)
      else mergeLoop iter next rest := rfl

theorem sortByOff_perm (fbpool : List HDBFB) : (sortByOff fbpool).Perm fbpool :=
  Heapsort.sortList_perm fbpool

theorem sortByRsiz_perm (fbpool : List HDBFB) : (sortByRsiz fbpool).Perm fbpool :=
  Heapsort.sortList_perm fbpool

theorem candLoop_spec {pool : List HDBFB} {rsiz fuel i : Nat} {left right : Int} {cand : Option Nat}
    (hcand : ∀ j ∈ cand, ∃ pv, pool[j]? = some pv ∧ rsiz ≤ pv.rsiz)
    (h : candLoop pool rsiz fuel left right cand = some i) :
    ∃ pv, pool[i]? = some pv ∧ rsiz ≤ pv.rsiz := by
  induction fuel generalizing left right cand with
  | zero => exact hcand i h
  | succ fuel ih =>
    unfold candLoop at h
    dsimp only at h
    generalize ((left + right) / 2).toNat = mid at h
    by_cases hright : right ≥ left
    · rw [if_pos hright] at h
      cases hmid : pool[mid]? with
      | none =>
        rw [hmid] at h
        exact hcand i h
      | some pv =>
        rw [hmid] at h
        dsimp only at h
        split at h
        · next heq => exact ⟨pv, by rw [← Option.some.inj h, hmid], by omega⟩
        · split at h
          · next hle =>
            refine ih (fun j hj => ?_) h
            rw [Option.mem_some_iff] at hj
            exact ⟨pv, by rw [← hj, hmid], by omega⟩
          · exact ih hcand h
    · rw [if_neg hright] at h
      exact hcand i h

/-- The candidate is a block that is large enough. -/
theorem cand_spec {pool : List HDBFB} {rsiz i : Nat} (h : cand pool rsiz = some i) :
    ∃ pv, pool[i]? = some pv ∧ rsiz ≤ pv.rsiz :=
  candLoop_spec (fun j hj => by cases hj) h

/-- Inserting adds the block. -/
theorem insertAt_perm (pool : List HDBFB) (fb : HDBFB) : (insertAt pool fb).Perm (fb :: pool) := by
  unfold insertAt
  cases hcand : cand pool fb.rsiz with
  | none => exact List.perm_append_singleton fb pool
  | some i =>
    obtain ⟨pv, hpv, -⟩ := cand_spec hcand
    exact List.perm_insertIdx fb pool (List.getElem?_eq_some_iff.mp hpv).1.le

end HDBFB

end Meguro
