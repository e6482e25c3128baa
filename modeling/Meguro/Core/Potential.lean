import Meguro.Core.Transition
import Mathlib.Algebra.Order.BigOperators.Group.Finset

/-!
# Potentials of labelled transitions

A potential is a number read off a state. Some steps cost one, some credit one,
and every step pays for itself out of the potential and its credit. Then a run
makes no more costly steps than its first potential and its credits allow. When
moreover every state that is not final has a step that lowers the potential,
every state has a run to a final one.
-/

namespace Potential

open Transition

variable {σ ι : Type*} {step : σ → ι → Option σ} {I : σ → Prop} {potential : σ → Nat}

/-- A run makes no more steps that cost one than its first potential and the steps that
credit one allow. -/
theorem run_cost {costs credits : ι → Bool}
    (hinv : ∀ {s l t}, I s → step s l = some t → I t)
    (hpay : ∀ {s l t}, I s → step s l = some t →
      potential t + (costs l).toNat ≤ potential s + (credits l).toNat)
    {s u : σ} {ls : List ι} (hs : I s) (h : run step s ls = some u) :
    potential u + ls.countP costs ≤ potential s + ls.countP credits := by
  induction ls generalizing s with
  | nil =>
    obtain rfl : s = u := Option.some.inj h
    exact Nat.le_refl _
  | cons l ls ih =>
    obtain ⟨t, hstep, hrest⟩ := run_cons.mp h
    have hfirst := hpay hs hstep
    have hlater := ih (hinv hs hstep) hrest
    have hcount (mark : ι → Bool) : (l :: ls).countP mark = ls.countP mark + (mark l).toNat := by
      rw [List.countP_cons]
      cases mark l <;> rfl
    rw [hcount, hcount]
    omega

/-- Steps that lower the potential lead to a final state. -/
theorem exists_run (potential : σ → Nat) (I Final : σ → Prop) (Good : ι → Prop)
    (hgo : ∀ s, I s → ¬ Final s →
      ∃ l t, Good l ∧ step s l = some t ∧ I t ∧ potential t < potential s)
    {s : σ} (hs : I s) :
    ∃ ls u, (∀ l ∈ ls, Good l) ∧ run step s ls = some u ∧ I u ∧ Final u := by
  induction hp : potential s using Nat.strong_induction_on generalizing s with
  | _ p ih =>
    by_cases hfinal : Final s
    · exact ⟨[], s, nofun, rfl, hs, hfinal⟩
    · obtain ⟨l, t, hl, hstep, ht, hlt⟩ := hgo s hs hfinal
      obtain ⟨ls, u, hls, hrun, hu, hend⟩ := ih _ (hp ▸ hlt) ht rfl
      refine ⟨l :: ls, u, fun m hm => ?_, run_cons.mpr ⟨t, hstep, hrun⟩, hu, hend⟩
      rcases List.mem_cons.mp hm with rfl | hm
      · exact hl
      · exact hls m hm

/-- When one part moves and each other part gains at most so much, the sum changes by the move
and these gains. -/
theorem sum_move {κ : Type*} [Fintype κ] [DecidableEq κ] {f g : κ → Nat} (i : κ) (gain : Nat)
    (h : ∀ j, j ≠ i → g j ≤ f j + gain) :
    (∑ j, g j) + f i ≤ (∑ j, f j) + g i + (Fintype.card κ - 1) * gain := by
  have hothers : ∑ j ∈ Finset.univ.erase i, g j ≤
      (∑ j ∈ Finset.univ.erase i, f j) + (Fintype.card κ - 1) * gain := by
    calc ∑ j ∈ Finset.univ.erase i, g j
        ≤ ∑ j ∈ Finset.univ.erase i, (f j + gain) :=
          Finset.sum_le_sum fun j hj => h j (Finset.ne_of_mem_erase hj)
      _ = (∑ j ∈ Finset.univ.erase i, f j) + (Fintype.card κ - 1) * gain := by
          rw [Finset.sum_add_distrib, Finset.sum_const_nat fun _ _ => rfl,
            Finset.card_erase_of_mem (Finset.mem_univ i), Finset.card_univ]
  have hf := Finset.add_sum_erase Finset.univ f (Finset.mem_univ i)
  have hg := Finset.add_sum_erase Finset.univ g (Finset.mem_univ i)
  omega

end Potential
