import Meguro.Phase.Delivery
import Meguro.Phase.Progress

/-!
# Bad items

An attempt on a bad item fails before the script runs. A phase survives its bad
items when nothing terminates it, every item is attempted once, and every run
goes on to the end of the phase. It does exactly when its workers catch the
exception of a failed attempt, or there is no bad item.
-/

namespace Meguro

open Transition Interleaving Generator Potential

variable {n : Nat} {α σ A E : Type*}

namespace PhaseState

section Survival

variable [DecidableEq α] [DecidableEq σ] (P : PhaseParts n α σ A E) (bad : α → Bool)
  (items : List α) (env : E)

/-- A run from the start of the phase in which the failed attempts are those on bad items. -/
def RunsWith (ls : List (PhaseLabel n α σ A)) (s : PhaseState n α σ E) : Prop :=
  run (step P) (start env) ls = some s ∧ ∀ l ∈ ls, l.Follows P bad

/-- The phase reads these items and survives the bad ones among them. -/
structure Survives : Prop where
  /-- No exception leaves a worker. -/
  alive : ∀ {ls s}, RunsWith P bad env ls s → s.terminated = false
  /-- When the workers are joined, every item has been attempted once. -/
  once : ∀ {ls s}, RunsWith P bad env ls s → s.Joined → ((attempted ls).map Prod.snd).Perm items
  /-- Before the end of the phase some thread has a step of its own. -/
  goesOn : ∀ {ls s}, RunsWith P bad env ls s → s.master ≠ .ended →
    ∃ l u, l.isWork = true ∧ l.Follows P bad ∧ s.step P l = some u
  /-- Only so many steps fit in a run, apart from spurious wakeups, each of which allows one
  more, and from what the scripts do. -/
  ends : ∃ bound, ∀ {ls s}, RunsWith P bad env ls s →
    ls.countP PhaseLabel.isWork ≤ bound + ls.countP PhaseLabel.isSpurious

variable {P bad items env} {s u : PhaseState n α σ E} {ls : List (PhaseLabel n α σ A)}

theorem RunsWith.snoc {l : PhaseLabel n α σ A} (h : RunsWith P bad env ls s)
    (hl : l.Follows P bad) (hstep : s.step P l = some u) : RunsWith P bad env (ls ++ [l]) u := by
  refine ⟨run_snoc.mpr ⟨s, h.1, hstep⟩, fun m hm => ?_⟩
  rcases List.mem_append.mp hm with hm | hm
  · exact h.2 m hm
  · rw [List.mem_singleton.mp hm]
    exact hl

/-- The state just before a label of a run, the step that label makes, and the run up to it. -/
theorem RunsWith.split {l : PhaseLabel n α σ A} (h : RunsWith P bad env ls s) (hl : l ∈ ls) :
    ∃ past t u, step P t l = some u ∧ RunsWith P bad env (past ++ [l]) u := by
  obtain ⟨past, future, rfl⟩ := List.append_of_mem hl
  obtain ⟨t, u, hpast, hstep, -⟩ := run_split h.1
  refine ⟨past, t, u, hstep, run_snoc.mpr ⟨t, hpast, hstep⟩, fun m hm => h.2 m ?_⟩
  rcases List.mem_append.mp hm with hm | hm
  · exact List.mem_append_left _ hm
  · rw [List.mem_singleton.mp hm]
    exact hl

theorem run_steady (henv : ∀ w, P.quiet env w = true) (hitems : Yields P.read P.firstRead items)
    (h : run (step P) (start env) ls = some s) : s.Steady P :=
  run_invariant (step_steady ⟨items, hitems⟩) (steady_start henv) h

/-- What the master has enqueued begins the items. -/
theorem run_given_prefix (henv : ∀ w, P.quiet env w = true)
    (hitems : Yields P.read P.firstRead items) (h : run (step P) (start env) ls = some s) :
    ∃ rest, given (ls.filterMap PhaseLabel.onQueue) ++ rest = items := by
  have hread := run_readSoFar h
  cases hmaster : s.master with
  | create =>
    rw [hmaster] at hread
    exact ⟨items, congrArg (· ++ items) hread⟩
  | loop pos =>
    rw [hmaster] at hread
    obtain ⟨rest, hrest⟩ := (run_steady henv hitems h).reading pos hmaster
    exact ⟨rest, (hread rest hrest).unique hitems⟩
  | join | ended =>
    rw [hmaster] at hread
    exact ⟨[], (List.append_nil _).trans (hread.unique hitems)⟩

/-- Only items are attempted. -/
theorem mem_of_attempted (henv : ∀ w, P.quiet env w = true)
    (hitems : Yields P.read P.firstRead items) (h : run (step P) (start env) ls = some s)
    {p : Fin n × α} (hp : p ∈ attempted ls) : p.2 ∈ items := by
  have hhanded : p ∈ handed ls := by
    have hown : p ∈ ofOwner p.1 (attempted ls) := List.mem_filter.mpr ⟨hp, by simp⟩
    have hheld : p ∈ ofOwner p.1 (handed ls) := by
      rw [run_held henv h p.1]
      exact List.mem_append_left _ hown
    exact List.mem_of_mem_filter hheld
  have hpopped : p.2 ∈ popped (ls.filterMap PhaseLabel.onQueue) := by
    rw [run_popped henv h]
    exact List.mem_map_of_mem hhanded
  have hpushed : p.2 ∈ pushed (ls.filterMap PhaseLabel.onQueue) := by
    rw [← QueueState.run_fifo (run_queue h)]
    exact List.mem_append_left _ hpopped
  obtain ⟨rest, hrest⟩ := run_given_prefix henv hitems h
  rw [← hrest, WorkState.run_given (run_work h).1]
  exact List.mem_append_left _ (List.mem_append_left _ hpushed)

/-- The attempts of joined workers are the items, each once. -/
theorem attempted_perm (hn : 0 < n) (henv : ∀ w, P.quiet env w = true)
    (hitems : Yields P.read P.firstRead items) (h : run (step P) (start env) ls = some s)
    (hjoined : s.Joined) : ((attempted ls).map Prod.snd).Perm items := by
  obtain ⟨hread, howner⟩ := run_joined hn henv h hjoined
  rw [← hread.unique hitems]
  exact (perm_of_ofOwner_eq howner).map Prod.snd

/-- In a run that follows its bad items, a step can leave a worker with an exception only on a
bad item, and only when the worker does not catch it. -/
theorem alive_of_caught (henv : ∀ w, P.quiet env w = true)
    (hitems : Yields P.read P.firstRead items)
    (hcaught : P.catches = true ∨ ∀ item ∈ items, bad item = false)
    (h : RunsWith P bad env ls s) : s.terminated = false := by
  obtain ⟨hrun, hfollows⟩ := h
  cases ls using List.reverseRecOn with
  | nil =>
    cases hrun
    rfl
  | append_singleton ls l =>
    obtain ⟨t, hls, hstep⟩ := run_snoc.mp hrun
    obtain ⟨⟨halive, henabled⟩, rfl⟩ := (step_eq_some_iff P).mp hstep
    have hl := hfollows l (by simp)
    cases l with
    | started w ok =>
      obtain rfl : ok = true := hl
      rfl
    | attempt w item ok =>
      have hmem : item ∈ items := by
        have hattempted : (w, item) ∈ attempted (ls ++ [.attempt w item ok]) := by
          simp [PhaseLabel.attempt?]
        exact mem_of_attempted henv hitems hrun hattempted
      obtain rfl : ok = !bad item := hl
      change (! !bad item && !P.catches) = false
      rcases hcaught with hcatches | hgood
      · rw [hcatches]
        exact Bool.and_false _
      · rw [hgood item hmem]
        rfl
    | act w a => exact hl
    | read pos out => cases out <;> exact halive
    | _ => exact halive

/-- The steps of a run are paid for by the potential of the start. -/
theorem countP_isWork_le (henv : ∀ w, P.quiet env w = true)
    (hitems : Yields P.read P.firstRead items) (h : run (step P) (start env) ls = some s) :
    ls.countP PhaseLabel.isWork ≤
      potential P (start env) + ls.countP PhaseLabel.isSpurious := by
  have hcost := run_cost (step_steady ⟨items, hitems⟩) step_potential (steady_start henv) h
  omega

/-- A failed attempt that is not caught ends a run. -/
theorem terminated_of_attempt (hcatches : P.catches = false) {w : Fin n} {item : α}
    (h : s.step P (.attempt w item false) = some u) : u.terminated = true := by
  obtain ⟨-, rfl⟩ := (step_eq_some_iff P).mp h
  change (!false && !P.catches) = true
  rw [hcatches]
  rfl

section Schedule

variable (hcap : 0 < P.capacity) (hn : 0 < n) (hopen : ∀ e, (P.openOut e).isSome = true)
  (hquiet : ∀ e w, P.quiet e w = true) (hitems : Yields P.read P.firstRead items)

include hcap hn hopen hquiet hitems

/-- A run that is alive and not over can be continued. -/
theorem RunsWith.exists_next (h : RunsWith P bad env ls s) (halive : s.terminated = false)
    (hleft : s.master ≠ .ended) :
    ∃ l u, l.isWork = true ∧ l.Follows P bad ∧ s.step P l = some u := by
  have hs := run_steady (hquiet env) hitems h.1
  obtain ⟨l, hwork, hfollows, henabled⟩ := hs.exists_work bad hcap hn hopen hquiet hleft
  exact ⟨l, s.effect P l, hwork, hfollows, (step_eq_some_iff P).mpr ⟨⟨halive, henabled⟩, rfl⟩⟩

/-- A phase that always stays alive has a run to its end. -/
theorem exists_run_to_end
    (halive : ∀ {ls s}, RunsWith P bad env ls s → s.terminated = false) :
    ∃ ls s, RunsWith P bad env ls s ∧ s.master = .ended := by
  have hgo : ∀ s, (∃ ls, RunsWith P bad env ls s) → s.master ≠ .ended → ∃ l u,
      l.Follows P bad ∧ step P s l = some u ∧ (∃ ls, RunsWith P bad env ls u) ∧
        potential P u < potential P s := by
    rintro s ⟨ls, hls⟩ hleft
    obtain ⟨l, u, hwork, hl, hstep⟩ :=
      hls.exists_next hcap hn hopen hquiet hitems (halive hls) hleft
    have hpay := step_potential (run_steady (hquiet env) hitems hls.1) hstep
    rw [hwork, PhaseLabel.isSpurious_of_isWork hwork] at hpay
    exact ⟨l, u, hl, hstep, ⟨ls ++ [l], hls.snoc hl hstep⟩, hpay⟩
  obtain ⟨ls, s, hfollows, hrun, -, hended⟩ := exists_run (potential P)
    (fun s => ∃ ls, RunsWith P bad env ls s) (fun s => s.master = .ended)
    (PhaseLabel.Follows P bad) hgo ⟨[], rfl, nofun⟩
  exact ⟨ls, s, ⟨hrun, hfollows⟩, hended⟩

/-- A phase whose workers do not catch a failed attempt does not survive a bad item. -/
theorem Survives.not_bad (hs : Survives P bad items env) (hcatches : P.catches = false) {item : α}
    (hmem : item ∈ items) : bad item = false := by
  obtain ⟨ls, s, hls, hended⟩ := exists_run_to_end hcap hn hopen hquiet hitems hs.alive
  have hattempted : item ∈ (attempted ls).map Prod.snd :=
    (hs.once hls (.inr hended)).mem_iff.mpr hmem
  obtain ⟨⟨w, i⟩, hp, rfl⟩ := List.mem_map.mp hattempted
  obtain ⟨l, hl, hattempt⟩ := List.mem_filterMap.mp hp
  cases l with
  | attempt v i ok =>
    cases hattempt
    obtain rfl : ok = !bad i := hls.2 _ hl
    obtain ⟨past, t, u, hstep, hpast⟩ := hls.split hl
    by_contra hbad
    rw [Bool.not_eq_false] at hbad
    rw [hbad] at hstep
    exact Bool.false_ne_true
      ((hs.alive hpast).symm.trans (terminated_of_attempt hcatches hstep))
  | _ => cases hattempt

/-- A phase survives its bad items exactly when its workers catch a failed attempt or no item is
bad. -/
theorem survives_iff :
    Survives P bad items env ↔ P.catches = true ∨ ∀ item ∈ items, bad item = false := by
  constructor
  · intro hs
    cases hcatches : P.catches with
    | true => exact .inl rfl
    | false =>
      exact .inr fun item hmem => hs.not_bad hcap hn hopen hquiet hitems hcatches hmem
  · intro hcaught
    have halive {ls} {s : PhaseState n α σ E} (h : RunsWith P bad env ls s) :
        s.terminated = false := alive_of_caught (hquiet env) hitems hcaught h
    exact
      { alive := halive
        once := fun h => attempted_perm hn (hquiet env) hitems h.1
        goesOn := fun h => h.exists_next hcap hn hopen hquiet hitems (halive h)
        ends := ⟨_, fun h => countP_isWork_le (hquiet env) hitems h.1⟩ }

end Schedule

end Survival

end PhaseState

end Meguro
