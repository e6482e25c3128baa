import Meguro.Phase.Order

/-!
# The callbacks of a phase

Only the callbacks of the scripts change the data of a phase between the open and
the close. So their steps, taken from a run of the phase, are a run of their own
from the opened output, and its end is what the close finds.
-/

namespace Meguro

open Transition

variable {n : Nat} {α σ A E : Type*}

/-- The step of a callback, with its worker. -/
def PhaseLabel.act? : PhaseLabel n α σ A → Option (Fin n × A)
  | .act w a => some (w, a)
  | _ => none

/-- The steps of the callbacks in a run. -/
def acts (ls : List (PhaseLabel n α σ A)) : List (Fin n × A) := ls.filterMap PhaseLabel.act?

/-- The steps of the callbacks alone. -/
def PhaseParts.actStep (P : PhaseParts n α σ A E) (e : E) (p : Fin n × A) : Option E :=
  P.act e p.1 p.2

namespace PhaseState

variable {P : PhaseParts n α σ A E} {s u : PhaseState n α σ E} {l : PhaseLabel n α σ A}
  {env opened : E}

/-- The data of a phase, as the callbacks alone leave it. -/
def Tracks (P : PhaseParts n α σ A E) (env opened : E) (s : PhaseState n α σ E) (e : E) : Prop :=
  match s.master with
  | .create _ => s.env = env ∧ e = opened
  | .loop _ | .join _ => s.env = e
  | .ended => s.env = P.closeOut e

/-- Between the open and the close the data is what the callbacks left. -/
theorem Tracks.env_eq {e : E} (h : Tracks P env opened s e) (hopen : s.master.isOpen = true) :
    s.env = e := by
  unfold Tracks at h
  cases hm : s.master with
  | loop | join =>
    rw [hm] at h
    exact h
  | create | ended =>
    rw [hm] at hopen
    cases hopen

variable [DecidableEq α] [DecidableEq σ]

/-- The callbacks alone simulate the phase. -/
theorem simulates_acts (hopened : P.openOut env = some opened) :
    Simulates (step P) P.actStep PhaseLabel.act?
      fun s e => s.Ordered P ∧ Tracks P env opened s e := by
  rintro s l u e ⟨hs, htracks⟩ h
  have hu := step_ordered hs h
  obtain ⟨⟨-, henabled⟩, rfl⟩ := (step_eq_some_iff P).mp h
  cases l with
  | act w a =>
    have hopen := hs.isOpen_of_isBusy henabled.1
    obtain rfl := htracks.env_eq hopen
    obtain ⟨e', he'⟩ := Option.isSome_iff_exists.mp henabled.2
    refine ⟨e', he', hu, ?_⟩
    have henv : (s.effect P (.act w a)).env = e' := by
      change (P.act s.env w a).getD s.env = e'
      rw [he']
      rfl
    have hmaster : (s.effect P (.act w a)).master = s.master := rfl
    unfold Tracks
    rw [hmaster]
    cases hm : s.master with
    | loop | join => exact henv
    | create | ended =>
      rw [hm] at hopen
      cases hopen
  | create w =>
    unfold Tracks at htracks
    rw [henabled.1] at htracks
    exact ⟨hu, htracks⟩
  | openOut =>
    unfold Tracks at htracks
    rw [henabled.1] at htracks
    obtain ⟨henv, rfl⟩ := htracks
    refine ⟨hu, ?_⟩
    change (P.openOut s.env).getD s.env = e
    rw [henv, hopened]
    rfl
  | read pos out =>
    have hsame := htracks.env_eq (by rw [henabled.1]; rfl)
    cases out <;> exact ⟨hu, hsame⟩
  | join w => exact ⟨hu, htracks.env_eq (by rw [henabled.1]; rfl)⟩
  | closeOut =>
    have hsame := htracks.env_eq (by rw [henabled.1]; rfl)
    exact ⟨hu, congrArg P.closeOut hsame⟩
  | _ => exact ⟨hu, htracks⟩

/-- The callbacks of a run are a run from the opened output. -/
theorem run_acts (henv : ∀ w, P.quiet env w = true) (hopened : P.openOut env = some opened)
    {ls : List (PhaseLabel n α σ A)} (h : run (step P) (start env) ls = some s) :
    ∃ e, run P.actStep opened (acts ls) = some e ∧ Tracks P env opened s e := by
  have hstart : Tracks P env opened (start env) opened := ⟨rfl, rfl⟩
  obtain ⟨e, he, -, htracks⟩ := (simulates_acts hopened).run ⟨ordered_start henv, hstart⟩ h
  exact ⟨e, he, htracks⟩

end PhaseState

end Meguro
