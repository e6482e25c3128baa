import Mathlib.Data.List.Basic
import Mathlib.Order.Lattice.Nat

/-!
# Generators

A loop that hands out items: one step moves on silently, hands out an item, or
stops. `Yields` says that the loop, from a state, ends after handing out exactly
a given list; a loop that runs forever yields nothing. `collect` runs a loop on
fuel, and what it returns the loop yields.
-/

/-- What one step of a generator does. -/
inductive Produce (σ α : Type*)
  | silent (next : σ)
  | item (value : α) (next : σ)
  | stop
  deriving DecidableEq

namespace Generator

variable {σ α β : Type*}

/-- From this state the generator ends, having handed out this list. -/
inductive Yields (step : σ → Produce σ α) : σ → List α → Prop
  | stop {s} : step s = .stop → Yields step s []
  | silent {s t xs} : step s = .silent t → Yields step t xs → Yields step s xs
  | item {s t x xs} : step s = .item x t → Yields step t xs → Yields step s (x :: xs)

variable {step : σ → Produce σ α}

theorem Yields.of_stop {s : σ} {xs : List α} (h : Yields step s xs) (hs : step s = .stop) :
    xs = [] := by
  cases h with
  | stop => rfl
  | silent hstep => simp [hstep] at hs
  | item hstep => simp [hstep] at hs

theorem Yields.of_silent {s t : σ} {xs : List α} (h : Yields step s xs)
    (hs : step s = .silent t) : Yields step t xs := by
  cases h with
  | stop hstep => simp [hstep] at hs
  | silent hstep hrest =>
    obtain rfl : _ = t := by simpa [hstep] using hs
    exact hrest
  | item hstep => simp [hstep] at hs

theorem Yields.of_item {s t : σ} {x : α} {xs : List α} (h : Yields step s xs)
    (hs : step s = .item x t) : ∃ rest, xs = x :: rest ∧ Yields step t rest := by
  cases h with
  | stop hstep => simp [hstep] at hs
  | silent hstep => simp [hstep] at hs
  | item hstep hrest =>
    obtain ⟨rfl, rfl⟩ : _ = x ∧ _ = t := by simpa [hstep] using hs
    exact ⟨_, rfl, hrest⟩

/-- A generator that ends hands out one list only. -/
theorem Yields.unique {s : σ} {xs ys : List α} (hx : Yields step s xs) (hy : Yields step s ys) :
    xs = ys := by
  induction hx generalizing ys with
  | stop hs => exact (hy.of_stop hs).symm
  | silent hs _ ih => exact ih (hy.of_silent hs)
  | item hs _ ih =>
    obtain ⟨rest, rfl, hrest⟩ := hy.of_item hs
    rw [ih hrest]

/-- Run a generator for at most `fuel` steps. -/
def collect (step : σ → Produce σ α) : Nat → σ → Option (List α)
  | 0, _ => none
  | fuel + 1, s =>
    match step s with
    | .stop => some []
    | .silent t => collect step fuel t
    | .item x t => (collect step fuel t).map (x :: ·)

theorem yields_of_collect {fuel : Nat} {s : σ} {xs : List α}
    (h : collect step fuel s = some xs) : Yields step s xs := by
  induction fuel generalizing s xs with
  | zero => simp [collect] at h
  | succ fuel ih =>
    cases hs : step s with
    | stop =>
      obtain rfl : [] = xs := by simpa [collect, hs] using h
      exact .stop hs
    | silent t => exact .silent hs (ih (by simpa [collect, hs] using h))
    | item x t =>
      obtain ⟨rest, hrest, rfl⟩ : ∃ rest, collect step fuel t = some rest ∧ x :: rest = xs := by
        simpa [collect, hs] using h
      exact .item hs (ih hrest)

theorem isSome_collect_of_yields {s : σ} {xs : List α} (h : Yields step s xs) :
    ∃ fuel, (collect step fuel s).isSome = true := by
  induction h with
  | stop hs => exact ⟨1, by rw [collect, hs]; rfl⟩
  | silent hs _ ih =>
    obtain ⟨fuel, hfuel⟩ := ih
    exact ⟨fuel + 1, by rw [collect, hs]; exact hfuel⟩
  | item hs _ ih =>
    obtain ⟨fuel, hfuel⟩ := ih
    exact ⟨fuel + 1, by rw [collect, hs]; simpa using hfuel⟩

/-- The number of steps to the end of a generator. -/
noncomputable def stepsLeft (step : σ → Produce σ α) (s : σ) : Nat :=
  sInf {fuel | (collect step fuel s).isSome = true}

/-- A generator that ends has a step to make. -/
theorem Yields.stepsLeft_pos {s : σ} {xs : List α} (h : Yields step s xs) :
    0 < stepsLeft step s := by
  obtain ⟨fuel, hfuel⟩ := isSome_collect_of_yields h
  have hmem : (collect step (stepsLeft step s) s).isSome = true :=
    Nat.sInf_mem (s := {fuel | (collect step fuel s).isSome = true}) ⟨fuel, hfuel⟩
  by_contra hzero
  rw [Nat.eq_zero_of_not_pos hzero] at hmem
  cases hmem

/-- A step that goes on leaves one step less. -/
theorem Yields.stepsLeft_eq {s t : σ} {xs : List α} (h : Yields step s xs)
    (hs : step s = .silent t ∨ ∃ x, step s = .item x t) :
    stepsLeft step s = stepsLeft step t + 1 := by
  have hnext : ∀ fuel, (collect step (fuel + 1) s).isSome = (collect step fuel t).isSome := by
    intro fuel
    rcases hs with hs | ⟨x, hs⟩
    · rw [collect, hs]
    · simp [collect, hs]
  have hsub := Nat.sInf_add (n := 1) (p := fun fuel => (collect step fuel s).isSome = true)
    h.stepsLeft_pos
  simp only [hnext] at hsub
  exact hsub.symm

end Generator
