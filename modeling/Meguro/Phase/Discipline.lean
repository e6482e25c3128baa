import Meguro.Phase.Master

/-!
# A phase uses its queue with discipline

Seen from the queue, the steps of a phase are those of the producer-consumer
discipline, and the other steps do not touch it. So everything proved of the
discipline holds in a phase: its runs project to runs of the queue, and a worker
past its loop has left an empty, marked queue.
-/

namespace Meguro

open Transition

variable {n : Nat} {α σ A E : Type*}

/-- The step of the queue that a step of a phase makes. -/
def PhaseLabel.onQueue : PhaseLabel n α σ A → Option (QueueLabel (Thread n) α)
  | .read _ (.item value _) => some (.call none (.enqueue value))
  | .read _ .stop => some (.call none (.done true))
  | .queue l => some l
  | .next w => some (.call (some w) .dequeue)
  | _ => none

namespace PhaseState

/-- What the discipline sees of a phase. -/
def work (s : PhaseState n α σ E) : WorkState n α :=
  ⟨s.queue, s.master.closing, fun w => (s.worker w).isFinished⟩

theorem isFinished_update (worker : Fin n → WorkerPc α) (w : Fin n) (pc : WorkerPc α) :
    (fun v => (Function.update worker w pc v).isFinished) =
      Function.update (fun v => (worker v).isFinished) w pc.isFinished :=
  funext fun v => Function.apply_update (fun _ => WorkerPc.isFinished) worker w pc v

theorem isFinished_update_of_eq {worker : Fin n → WorkerPc α} {w : Fin n} {pc : WorkerPc α}
    (h : pc.isFinished = (worker w).isFinished) :
    (fun v => (Function.update worker w pc v).isFinished) = fun v => (worker v).isFinished := by
  rw [isFinished_update, h]
  exact Function.update_eq_self w fun v => (worker v).isFinished

variable {P : PhaseParts n α σ A E} {s u : PhaseState n α σ E} {l : PhaseLabel n α σ A}

/-- Leaving `dequeue` with an exception is what finishes a worker. -/
theorem isFinished_leaveQueue {k : QueueLabel (Thread n) α} (hs : s.work.Disciplined)
    (hk : s.queue.Enabled P.capacity k) :
    (fun w => (leaveQueue s.worker k w).isFinished) = (s.work.effect k).finished := by
  cases k with
  | throwEmpty t =>
    cases t with
    | none => rfl
    | some w => exact isFinished_update s.worker w .finished
  | broadcastFull t value =>
    cases t with
    | none => rfl
    | some w =>
      -- the worker is inside `dequeue`, so it is not past its loop
      apply isFinished_update_of_eq
      cases hfinished : (s.worker w).isFinished with
      | false => rfl
      | true =>
        have hidle := (hs.finished w hfinished).1
        cases hidle.symm.trans hk
  | _ => rfl

variable [DecidableEq α] [DecidableEq σ]

/-- Every step of a phase is a step of the discipline or leaves its view unchanged. -/
theorem step_work (hs : s.work.Disciplined) (h : s.step P l = some u) :
    match l.onQueue with
    | none => u.work = s.work
    | some k => s.work.step P.capacity k = some u.work := by
  obtain ⟨⟨-, henabled⟩, rfl⟩ := (step_eq_some_iff P).mp h
  cases l with
  | create w =>
    obtain ⟨hmaster, hw⟩ := henabled
    exact WorkState.ext rfl (congrArg MasterPc.closing hmaster).symm
      (isFinished_update_of_eq (congrArg WorkerPc.isFinished hw).symm)
  | started w ok =>
    exact WorkState.ext rfl rfl
      (isFinished_update_of_eq (congrArg WorkerPc.isFinished henabled).symm)
  | openOut => exact WorkState.ext rfl (congrArg MasterPc.closing henabled.1).symm rfl
  | read pos out =>
    obtain ⟨hmaster, -, hidle⟩ := henabled
    have hclosing : s.work.closing = false := congrArg MasterPc.closing hmaster
    cases out with
    | silent next => exact WorkState.ext rfl hclosing.symm rfl
    | item value next =>
      exact WorkState.step_eq_some_iff.mpr
        ⟨⟨hclosing, hidle⟩, WorkState.ext rfl hclosing rfl⟩
    | stop => exact WorkState.step_eq_some_iff.mpr ⟨⟨⟨hclosing, rfl⟩, hidle⟩, rfl⟩
  | queue k =>
    obtain ⟨hcall, hk⟩ := henabled
    have hfinished := (isFinished_leaveQueue hs hk).symm
    cases k with
    | call => cases hcall
    | _ =>
      exact WorkState.step_eq_some_iff.mpr ⟨⟨trivial, hk⟩, WorkState.ext rfl rfl hfinished⟩
  | next w =>
    have hfinished : s.work.finished w = false := congrArg WorkerPc.isFinished henabled.1
    exact WorkState.step_eq_some_iff.mpr ⟨⟨hfinished, henabled.2⟩, rfl⟩
  | attempt w item ok =>
    refine WorkState.ext rfl rfl (isFinished_update_of_eq ?_)
    rw [show s.worker w = .got item from henabled]
    cases ok <;> rfl
  | act => rfl
  | returned w =>
    exact WorkState.ext rfl rfl
      (isFinished_update_of_eq (congrArg WorkerPc.isFinished henabled.1).symm)
  | join w => exact WorkState.ext rfl (congrArg MasterPc.closing henabled.1).symm rfl
  | closeOut => exact WorkState.ext rfl (congrArg MasterPc.closing henabled.1).symm rfl

/-- The discipline simulates a phase, and stays intact. -/
theorem simulates_work : Simulates (step P) (WorkState.step P.capacity) PhaseLabel.onQueue
    fun s t => s.work = t ∧ t.Disciplined := by
  rintro s l u t ⟨rfl, hs⟩ h
  have hwork := step_work hs h
  cases hl : l.onQueue with
  | none =>
    rw [hl] at hwork
    exact ⟨hwork, hs⟩
  | some k =>
    rw [hl] at hwork
    exact ⟨u.work, hwork, rfl, WorkState.step_disciplined hs hwork⟩

section Runs

variable {env : E} {ls : List (PhaseLabel n α σ A)}

/-- A run of a phase, seen by the discipline. -/
theorem run_work (h : run (step P) (start env) ls = some s) :
    run (WorkState.step P.capacity) WorkState.start (ls.filterMap PhaseLabel.onQueue) =
      some s.work ∧ s.work.Disciplined := by
  have hstart : (start env : PhaseState n α σ E).work = WorkState.start ∧
      (WorkState.start : WorkState n α).Disciplined := ⟨rfl, WorkState.disciplined_start⟩
  obtain ⟨t, ht, rfl, hs⟩ := simulates_work.run hstart h
  exact ⟨ht, hs⟩

/-- A run of a phase, seen by the queue. -/
theorem run_queue (h : run (step P) (start env) ls = some s) :
    run (QueueState.step P.capacity) QueueState.start (ls.filterMap PhaseLabel.onQueue) =
      some s.queue := by
  have hwork : Simulates (WorkState.step P.capacity) (QueueState.step P.capacity) some
      fun (t : WorkState n α) q => t.queue = q := by
    rintro t l v _ rfl hstep
    exact ⟨v.queue, WorkState.step_queue hstep, rfl⟩
  obtain ⟨q, hq, rfl⟩ := hwork.run rfl (run_work h).1
  rwa [List.filterMap_some] at hq

end Runs

end PhaseState

end Meguro
