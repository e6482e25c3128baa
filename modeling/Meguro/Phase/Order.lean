import Meguro.Phase.Discipline

/-!
# The order of a phase

Everything a worker does with an item comes after the open and before the close:
an item reaches a worker through the queue, the master reads it after the open,
and it joins a worker only when that worker is past its loop. The callbacks of a
script therefore run only while the output is open, whatever the schedule.
-/

namespace Meguro

open Transition

variable {n : Nat} {α σ A E : Type*}

/-- Holding an item. -/
def WorkerPc.holds : WorkerPc α → Bool
  | .got _ | .busy _ => true
  | _ => false

theorem WorkerPc.holds_of_isBusy {pc : WorkerPc α} (h : pc.isBusy = true) : pc.holds = true := by
  cases pc with
  | busy => rfl
  | _ => cases h

/-- The number of workers the master has joined. -/
def MasterPc.joined (n : Nat) : MasterPc σ → Nat
  | .join next => next
  | .ended => n
  | _ => 0

/-- Between the open and the close. -/
def MasterPc.isOpen : MasterPc σ → Bool
  | .loop _ | .join _ => true
  | _ => false

namespace PhaseState

variable {P : PhaseParts n α σ A E} {s u : PhaseState n α σ E} {l : PhaseLabel n α σ A}

/-- Before the open no item is on its way. -/
structure NothingOnItsWay (s : PhaseState n α σ E) : Prop where
  data : s.queue.data = []
  master : s.queue.pc none = .idle
  worker : ∀ w, (s.worker w).holds = false
  queue : ∀ w item, s.queue.pc (some w) ≠ .signalFull item

/-- What holds of a phase whatever the schedule. -/
structure Ordered (P : PhaseParts n α σ A E) (s : PhaseState n α σ E) : Prop where
  disciplined : s.work.Disciplined
  /-- Only in its loop a worker is in the queue. -/
  outside : ∀ w, s.worker w ≠ .loop → s.queue.pc (some w) = .idle
  unopened : ∀ next, s.master = .create next → s.NothingOnItsWay
  /-- A joined worker is past its loop. -/
  joined : ∀ w, w.val < s.master.joined n → s.worker w = .finished
  opened : s.master.isOpen = true → P.status s.env = .opened
  /-- A worker that is not inside a script is outside its callbacks. -/
  quiet : ∀ w, (s.worker w).isBusy = false → P.quiet s.env w = true

theorem ordered_start {env : E} (henv : ∀ w, P.quiet env w = true) :
    Ordered P (start env : PhaseState n α σ E) where
  disciplined := WorkState.disciplined_start
  outside _ _ := rfl
  unopened _ _ := ⟨rfl, rfl, fun _ => rfl, fun _ _ => nofun⟩
  joined w hw := absurd hw (Nat.not_lt_zero w.val)
  opened h := absurd h Bool.false_ne_true
  quiet w _ := henv w

theorem Ordered.finished_of_ended (hs : s.Ordered P) (hended : s.master = .ended) (w : Fin n) :
    s.worker w = .finished := by
  apply hs.joined w
  rw [hended]
  exact w.isLt

/-- A script runs only while the output is open. -/
theorem Ordered.isOpen_of_isBusy (hs : s.Ordered P) {w : Fin n}
    (hbusy : (s.worker w).isBusy = true) : s.master.isOpen = true := by
  cases hm : s.master with
  | create next =>
    have hholds := (hs.unopened next hm).worker w
    rw [WorkerPc.holds_of_isBusy hbusy] at hholds
    cases hholds
  | ended =>
    rw [hs.finished_of_ended hm w] at hbusy
    cases hbusy
  | _ => rfl

/-! ## What a step does to a worker and to the queue -/

/-- How a worker moves. -/
inductive WorkerMove (w : Fin n) : PhaseLabel n α σ A → WorkerPc α → WorkerPc α → Prop
  | create : WorkerMove w (.create w) .absent .starting
  | started (ok : Bool) : WorkerMove w (.started w ok) .starting .loop
  | threw : WorkerMove w (.queue (.throwEmpty (some w))) .loop .finished
  | took (item : α) : WorkerMove w (.queue (.broadcastFull (some w) item)) .loop (.got item)
  | attempt (item : α) (ok : Bool) :
    WorkerMove w (.attempt w item ok) (.got item) (if ok then .busy item else .loop)
  | returned (item : α) : WorkerMove w (.returned w item) (.busy item) .loop

/-- A worker inside the queue is in its loop. -/
theorem Ordered.loop_of_ne_idle (hs : s.Ordered P) {w : Fin n}
    (hw : s.queue.pc (some w) ≠ .idle) : s.worker w = .loop := by
  by_contra hloop
  exact hw (hs.outside w hloop)

/-- Moving one worker leaves the others alone. -/
theorem worker_update {v w : Fin n} {new : WorkerPc α}
    (hmove : ∀ old, s.worker w = old → w = v → WorkerMove w l old new) :
    Function.update s.worker v new w = s.worker w ∨
      ∃ pc pc', s.worker w = pc ∧ Function.update s.worker v new w = pc' ∧
        WorkerMove w l pc pc' := by
  by_cases hv : w = v
  · right
    refine ⟨_, new, rfl, ?_, hmove _ rfl hv⟩
    rw [hv]
    exact Function.update_self ..
  · exact .inl (Function.update_of_ne hv ..)

/-- A step leaves a worker alone or is one of its moves. -/
theorem worker_effect (hs : s.Ordered P) (h : s.Enabled P l) (w : Fin n) :
    (s.effect P l).worker w = s.worker w ∨
      ∃ pc pc', s.worker w = pc ∧ (s.effect P l).worker w = pc' ∧ WorkerMove w l pc pc' := by
  cases l with
  | create v =>
    apply worker_update
    rintro _ rfl rfl
    rw [h.2]
    exact .create
  | started v ok =>
    apply worker_update
    rintro _ rfl rfl
    rw [show s.worker w = .starting from h]
    exact .started ok
  | queue k =>
    obtain ⟨-, hk⟩ := h
    cases k with
    | throwEmpty t =>
      cases t with
      | none => exact .inl rfl
      | some v =>
        apply worker_update
        rintro _ rfl rfl
        rw [hs.loop_of_ne_idle (by rw [hk.1]; nofun)]
        exact .threw
    | broadcastFull t item =>
      cases t with
      | none => exact .inl rfl
      | some v =>
        apply worker_update
        rintro _ rfl rfl
        have hpc : s.queue.pc (some w) = .signalFull item := hk
        rw [hs.loop_of_ne_idle (by rw [hpc]; nofun)]
        exact .took item
    | _ => exact .inl rfl
  | attempt v item ok =>
    apply worker_update
    rintro _ rfl rfl
    rw [show s.worker w = .got item from h]
    exact .attempt item ok
  | returned v item =>
    apply worker_update
    rintro _ rfl rfl
    rw [h.1]
    exact .returned item
  | read pos out => cases out <;> exact .inl rfl
  | _ => exact .inl rfl

theorem effect_queue (s : PhaseState n α σ E) (l : PhaseLabel n α σ A) :
    (s.effect P l).queue = match l.onQueue with
      | none => s.queue
      | some k => s.queue.effect k := by
  cases l with
  | read pos out => cases out <;> rfl
  | _ => rfl

theorem enabled_onQueue {k : QueueLabel (Thread n) α} (h : s.Enabled P l)
    (hk : l.onQueue = some k) : s.queue.Enabled P.capacity k := by
  cases l with
  | read pos out =>
    cases out with
    | silent => cases hk
    | item | stop =>
      cases hk
      exact h.2.2
  | queue =>
    cases hk
    exact h.2
  | next =>
    cases hk
    exact h.2
  | _ => cases hk

/-- A worker that is not in its loop calls nothing. -/
theorem calls_onQueue {k : QueueLabel (Thread n) α} (h : s.Enabled P l)
    (hk : l.onQueue = some k) {w : Fin n} (hw : s.worker w ≠ .loop) :
    k.isCall = false ∨ some w ≠ k.thread := by
  cases l with
  | read pos out =>
    cases out with
    | silent => cases hk
    | item | stop =>
      cases hk
      exact .inr nofun
  | queue =>
    cases hk
    exact .inl h.1
  | next v =>
    cases hk
    refine .inr fun he => hw ?_
    cases he
    exact h.1
  | _ => cases hk

/-! ## The order is kept -/

theorem effect_outside (hs : s.Ordered P) (h : s.Enabled P l) (w : Fin n)
    (hw : (s.effect P l).worker w ≠ .loop) : (s.effect P l).queue.pc (some w) = .idle := by
  have hstays : s.worker w ≠ .loop → (s.effect P l).queue.pc (some w) = .idle := by
    intro hloop
    have hidle := hs.outside w hloop
    rw [effect_queue]
    cases hk : l.onQueue with
    | none => exact hidle
    | some k =>
      exact QueueState.effect_pc_of_idle (enabled_onQueue h hk) hidle (calls_onQueue h hk hloop)
  rcases worker_effect hs h w with hsame | hmove
  · exact hstays (hsame ▸ hw)
  · obtain ⟨old, new, hold, hnew, hmove⟩ := hmove
    cases hmove with
    | create => exact hstays (by rw [hold]; nofun)
    | attempt => exact hstays (by rw [hold]; nofun)
    | started | returned => exact absurd hnew hw
    | threw | took =>
      rw [effect_queue]
      exact (QueueState.effect_pc ..).trans (if_pos rfl)

/-- Before the open the queue stays empty. -/
theorem NothingOnItsWay.queue_effect (hs : s.Ordered P) (hn : s.NothingOnItsWay)
    {k : QueueLabel (Thread n) α} (hk : s.queue.Enabled P.capacity k)
    (hcall : k.isCall = false ∨ none ≠ k.thread) :
    (s.queue.effect k).data = [] ∧ (s.queue.effect k).pc none = .idle ∧
      ∀ w item, (s.queue.effect k).pc (some w) ≠ .signalFull item := by
  refine ⟨?_, QueueState.effect_pc_of_idle hk hn.master hcall, ?_⟩
  · cases k with
    | push t value =>
      have hpc : s.queue.pc t = .enqueue value := hk.1
      cases t with
      | none =>
        rw [hn.master] at hpc
        cases hpc
      | some w =>
        have hw := hs.disciplined.worker w
        change (s.queue.pc (some w)).consuming = true at hw
        rw [hpc] at hw
        cases hw
    | pop =>
      have hhead := hk.2
      rw [hn.data] at hhead
      cases hhead
    | _ => exact hn.data
  · intro w item hpc
    rw [QueueState.effect_pc] at hpc
    by_cases he : some w = k.thread
    · rw [if_pos he] at hpc
      cases k with
      | pop =>
        have hhead := hk.2
        rw [hn.data] at hhead
        cases hhead
      | call t op => cases op <;> cases hpc
      | spurious t =>
        cases he
        exact QueuePc.woken_ne rfl hk hpc
      | _ => cases hpc
    · rw [if_neg he] at hpc
      exact hn.queue w item (QueueLabel.eq_of_wake_eq rfl hpc)

/-- Nothing reaches a worker before the open. -/
theorem effect_unopened (hs : s.Ordered P) (h : s.Enabled P l) {next : Nat}
    (hnext : (s.effect P l).master = .create next) : (s.effect P l).NothingOnItsWay := by
  have hcreate : (∃ i, s.master = .create i) ∧ ∀ pos out, l ≠ .read pos out := by
    cases l with
    | create w => exact ⟨⟨_, h.1⟩, nofun⟩
    | read pos out => cases out <;> cases hnext
    | openOut | join | closeOut => cases hnext
    | _ => exact ⟨⟨next, hnext⟩, nofun⟩
  obtain ⟨⟨i, hi⟩, hread⟩ := hcreate
  have hn := hs.unopened i hi
  have hqueue : (s.effect P l).queue.data = [] ∧ (s.effect P l).queue.pc none = .idle ∧
      ∀ w item, (s.effect P l).queue.pc (some w) ≠ .signalFull item := by
    rw [effect_queue]
    cases hk : l.onQueue with
    | none => exact ⟨hn.data, hn.master, hn.queue⟩
    | some k =>
      apply hn.queue_effect hs (enabled_onQueue h hk)
      cases l with
      | read pos out => exact absurd rfl (hread pos out)
      | queue =>
        cases hk
        exact .inl h.1
      | next v =>
        cases hk
        exact .inr nofun
      | _ => cases hk
  refine ⟨hqueue.1, hqueue.2.1, fun w => ?_, hqueue.2.2⟩
  rcases worker_effect hs h w with hsame | ⟨old, new, hold, hnew, hmove⟩
  · rw [hsame]
    exact hn.worker w
  · have hw := hn.worker w
    rw [hold] at hw
    rw [hnew]
    cases hmove with
    | took item => exact absurd h.2 (hn.queue w item)
    | attempt | returned => cases hw
    | _ => rfl

/-- A joined worker stays where it is. -/
theorem effect_joined (hs : s.Ordered P) (h : s.Enabled P l) (w : Fin n)
    (hw : w.val < (s.effect P l).master.joined n) : (s.effect P l).worker w = .finished := by
  have hstays : s.worker w = .finished → (s.effect P l).worker w = .finished := by
    intro hfinished
    rcases worker_effect hs h w with hsame | ⟨old, new, hold, -, hmove⟩
    · exact hsame.trans hfinished
    · rw [hfinished] at hold
      subst hold
      cases hmove
  apply hstays
  cases l with
  | create | openOut => cases hw
  | read pos out => cases out <;> cases hw
  | join v =>
    obtain ⟨hmaster, hv, -⟩ := h
    by_cases he : w = v
    · subst w
      exact hv
    · apply hs.joined w
      rw [hmaster]
      have hlt : w.val < v.val + 1 := hw
      have hne : w.val ≠ v.val := fun heq => he (Fin.ext heq)
      change w.val < v.val
      omega
  | closeOut =>
    apply hs.joined w
    rw [h.1]
    exact w.isLt
  | _ => exact hs.joined w hw

theorem effect_opened (hs : s.Ordered P) (h : s.Enabled P l)
    (hopen : (s.effect P l).master.isOpen = true) : P.status (s.effect P l).env = .opened := by
  cases l with
  | create | closeOut => cases hopen
  | openOut =>
    obtain ⟨env, henv⟩ := Option.isSome_iff_exists.mp h.2
    change P.status ((P.openOut s.env).getD s.env) = .opened
    rw [henv]
    exact P.status_openOut henv
  | read pos out =>
    have hbefore := hs.opened (by rw [h.1]; rfl)
    cases out <;> exact hbefore
  | join => exact hs.opened (by rw [h.1]; rfl)
  | act w a =>
    obtain ⟨env, henv⟩ := Option.isSome_iff_exists.mp h.2
    change P.status ((P.act s.env w a).getD s.env) = .opened
    rw [henv]
    exact (P.status_act henv).trans (hs.opened hopen)
  | _ => exact hs.opened hopen

theorem effect_quiet (hs : s.Ordered P) (h : s.Enabled P l) (w : Fin n)
    (hw : ((s.effect P l).worker w).isBusy = false) :
    P.quiet (s.effect P l).env w = true := by
  have hbefore : P.quiet s.env w = true := by
    rcases worker_effect hs h w with hsame | ⟨old, new, hold, -, hmove⟩
    · exact hs.quiet w (hsame ▸ hw)
    · cases hmove with
      | returned => exact h.2
      | _ => exact hs.quiet w (by rw [hold]; rfl)
  cases l with
  | openOut =>
    obtain ⟨env, henv⟩ := Option.isSome_iff_exists.mp h.2
    change P.quiet ((P.openOut s.env).getD s.env) w = true
    rw [henv]
    exact (P.quiet_openOut henv w).trans hbefore
  | read pos out => cases out <;> exact hbefore
  | act v a =>
    by_cases hv : w = v
    · -- the thread of the callback is inside a script
      subst v
      have hbusy : (s.worker w).isBusy = false := hw
      rw [h.1] at hbusy
      cases hbusy
    · obtain ⟨env, henv⟩ := Option.isSome_iff_exists.mp h.2
      change P.quiet ((P.act s.env v a).getD s.env) w = true
      rw [henv]
      exact (P.quiet_act henv w hv).trans hbefore
  | closeOut => exact P.quiet_closeOut.trans hbefore
  | _ => exact hbefore

variable [DecidableEq α] [DecidableEq σ]

/-- A step keeps the order. -/
theorem step_ordered (hs : s.Ordered P) (h : s.step P l = some u) : u.Ordered P := by
  have hwork := (simulates_work s l u s.work ⟨rfl, hs.disciplined⟩ h)
  obtain ⟨⟨-, henabled⟩, rfl⟩ := (step_eq_some_iff P).mp h
  refine ⟨?_, effect_outside hs henabled, fun _ => effect_unopened hs henabled,
    effect_joined hs henabled, effect_opened hs henabled, effect_quiet hs henabled⟩
  cases hl : l.onQueue with
  | none =>
    rw [hl] at hwork
    exact hwork.1 ▸ hwork.2
  | some k =>
    rw [hl] at hwork
    obtain ⟨t, -, ht, hdisciplined⟩ := hwork
    exact ht ▸ hdisciplined

/-! ## After the close -/

/-- After the close no script is running, and nothing touches the output. -/
theorem step_of_ended (hs : s.Ordered P) (hended : s.master = .ended)
    (h : s.step P l = some u) :
    u.master = .ended ∧ u.env = s.env ∧ ∀ w a, l ≠ .act w a := by
  obtain ⟨⟨-, henabled⟩, rfl⟩ := (step_eq_some_iff P).mp h
  cases l with
  | create | openOut | read | join | closeOut =>
    have hmaster := henabled.1
    rw [hended] at hmaster
    cases hmaster
  | act w =>
    have hbusy := henabled.1
    rw [hs.finished_of_ended hended w] at hbusy
    cases hbusy
  | _ => exact ⟨hended, rfl, fun _ _ => nofun⟩

/-! ## Runs -/

section Runs

variable {env : E} {ls : List (PhaseLabel n α σ A)}

theorem run_ordered (henv : ∀ w, P.quiet env w = true)
    (h : run (step P) (start env) ls = some s) : s.Ordered P :=
  run_invariant step_ordered (ordered_start henv) h

/-- The master leaves the creation of threads by opening the output. -/
theorem run_openOut (h : run (step P) (start env) ls = some s)
    (hs : ∀ next, s.master ≠ .create next) : .openOut ∈ ls := by
  refine run_history (I := fun ls s => (∀ next, s.master ≠ .create next) → .openOut ∈ ls)
    (fun hs => absurd rfl (hs 0)) ?_ h hs
  intro past t l u ht hstep hu
  obtain ⟨⟨-, henabled⟩, rfl⟩ := (step_eq_some_iff P).mp hstep
  cases l with
  | openOut => simp
  | create w => exact absurd rfl (hu (w + 1))
  | read pos out => exact List.mem_append_left _ (ht (by rw [henabled.1]; nofun))
  | join | closeOut => exact List.mem_append_left _ (ht (by rw [henabled.1]; nofun))
  | _ => exact List.mem_append_left _ (ht hu)

/-- Nothing follows the close in the master. -/
theorem run_closeOut (h : run (step P) (start env) ls = some s) (hs : .closeOut ∈ ls) :
    s.master = .ended := by
  refine run_history (I := fun ls s => .closeOut ∈ ls → s.master = .ended) nofun ?_ h hs
  intro past t l u ht hstep hu
  obtain ⟨⟨-, henabled⟩, rfl⟩ := (step_eq_some_iff P).mp hstep
  rw [List.mem_append, List.mem_singleton] at hu
  rcases hu with hpast | rfl
  · have hended := ht hpast
    cases l with
    | create | openOut | read | join | closeOut =>
      have hmaster := henabled.1
      rw [hended] at hmaster
      cases hmaster
    | _ => exact hended
  · rfl

/-- A callback of a script steps after the open and before the close. -/
theorem act_between (henv : ∀ w, P.quiet env w = true) {past future : List (PhaseLabel n α σ A)}
    {w : Fin n} {a : A} (h : run (step P) (start env) (past ++ .act w a :: future) = some s) :
    .openOut ∈ past ∧ .closeOut ∉ past ∧
      ∃ t, run (step P) (start env) past = some t ∧ P.status t.env = .opened := by
  obtain ⟨t, u, hpast, hstep, -⟩ := run_split h
  obtain ⟨⟨-, hbusy, -⟩, -⟩ := (step_eq_some_iff P).mp hstep
  have ht := run_ordered henv hpast
  have hopen := ht.isOpen_of_isBusy hbusy
  refine ⟨run_openOut hpast fun next hnext => ?_, fun hclose => ?_, t, hpast, ht.opened hopen⟩
  · rw [hnext] at hopen
    cases hopen
  · rw [run_closeOut hpast hclose] at hopen
    cases hopen

end Runs

end PhaseState

end Meguro
