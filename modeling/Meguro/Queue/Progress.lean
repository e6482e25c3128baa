import Meguro.Queue.ProducerConsumer
import Meguro.Queue.Wakeup

/-!
# No stuck state

While a thread of the producer-consumer discipline has not finished, some thread
has a step that is not a spurious wakeup: if every unfinished thread were asleep,
no broadcast would be pending, so the workers would see an empty, unmarked queue
and the master a full or a marked one.
-/

namespace Meguro

open Transition

namespace WorkState

variable {n : Nat} {α : Type*} {capacity : Nat}

/-- A thread that is through: the master past its last call, a worker past its loop. -/
def Finished (s : WorkState n α) : Thread n → Prop
  | none => s.closing = true ∧ s.queue.pc none = .idle
  | some w => s.finished w = true

/-- Unless a thread is asleep or outside, it has a step that is no call. -/
theorem exists_enabled_of_awake {τ : Type*} {q : QueueState τ α} {t : τ}
    (hawake : (q.pc t).asleep = false) (hcall : q.pc t ≠ .idle) :
    ∃ l, q.Enabled capacity l ∧ l.isCall = false ∧ ∀ u, l ≠ .spurious u := by
  cases hpc : q.pc t with
  | idle => exact absurd hpc hcall
  | waitFull | waitEmpty =>
    rw [hpc] at hawake
    cases hawake
  | enqueue value =>
    by_cases hfull : q.Full capacity
    · exact ⟨.sleepFull t value, ⟨hpc, hfull⟩, rfl, nofun⟩
    · exact ⟨.push t value, ⟨hpc, hfull⟩, rfl, nofun⟩
  | dequeue =>
    cases hdata : q.data with
    | cons value rest => exact ⟨.pop t value, ⟨hpc, by rw [hdata]; rfl⟩, rfl, nofun⟩
    | nil =>
      cases hdone : q.done_ with
      | false => exact ⟨.sleepEmpty t, ⟨hpc, hdata, hdone⟩, rfl, nofun⟩
      | true => exact ⟨.throwEmpty t, ⟨hpc, hdata, hdone⟩, rfl, nofun⟩
  | done flag => exact ⟨.setDone t flag, hpc, rfl, nofun⟩
  | signalEmpty => exact ⟨.broadcastEmpty t, hpc, rfl, nofun⟩
  | signalFull value => exact ⟨.broadcastFull t value, hpc, rfl, nofun⟩

section Stuck

variable {s : WorkState n α}

/-- Where every thread is asleep or through, no broadcast is pending. -/
theorem Disciplined.no_signal (hs : s.Disciplined)
    (hstuck : ∀ t, (s.queue.pc t).asleep = false → s.Finished t) (t : Thread n) :
    s.queue.pc t ≠ .signalEmpty ∧ ∀ value, s.queue.pc t ≠ .signalFull value := by
  have hidle : (s.queue.pc t).asleep = false → s.queue.pc t = .idle := fun h =>
    match t, hstuck t h with
    | none, hthrough => hthrough.2
    | some w, hthrough => (hs.finished w hthrough).1
  constructor
  · intro ht
    rw [ht] at hidle
    exact nomatch hidle rfl
  · intro value ht
    rw [ht] at hidle
    exact nomatch hidle rfl

/-- There the workers that are not through wait on an empty queue without the mark. -/
theorem Disciplined.worker_of_stuck (hs : s.Disciplined) (hwake : s.queue.NoLostWakeup capacity)
    (hstuck : ∀ t, (s.queue.pc t).asleep = false → s.Finished t) (w : Fin n) :
    s.finished w = true ∨ s.queue.data = [] ∧ s.queue.done_ = false := by
  by_cases hthrough : s.finished w = true
  · exact .inl hthrough
  right
  have hasleep : (s.queue.pc (some w)).asleep = true := by
    by_contra hawake
    exact hthrough (hstuck (some w) (Bool.eq_false_iff.mpr hawake))
  have hpc := QueuePc.eq_waitEmpty hasleep (hs.worker w)
  by_contra hready
  rw [not_and_or, Bool.not_eq_false] at hready
  obtain ⟨other, -, hother⟩ := hwake.empty _ hpc hready
  exact (hs.no_signal hstuck other).1 hother

/-- Where every thread is asleep or through, every thread is through. -/
theorem Disciplined.finished_of_stuck (hs : s.Disciplined)
    (hwake : s.queue.NoLostWakeup capacity) (hcap : 0 < capacity) (hn : 0 < n)
    (hstuck : ∀ t, (s.queue.pc t).asleep = false → s.Finished t) (t : Thread n) :
    s.Finished t := by
  have hworker := hs.worker_of_stuck hwake hstuck
  by_cases hasleep : (s.queue.pc none).asleep = true
  · -- the master sleeps on a full queue, but the workers see an empty one
    obtain ⟨-, value, hpc⟩ := masterAt_asleep hs.master hasleep
    have hempty : s.queue.data = [] := by
      rcases hworker ⟨0, hn⟩ with hthrough | ⟨hempty, -⟩
      · exact (hs.finished _ hthrough).2.2
      · exact hempty
    obtain ⟨other, popped, -, hother⟩ := hwake.full _ _ hpc (by rw [hempty]; exact hcap)
    exact absurd hother ((hs.no_signal hstuck other).2 popped)
  · -- the master is through, so the queue is marked and no worker waits
    have hmaster := hstuck none (Bool.eq_false_iff.mpr hasleep)
    have hdone : s.queue.done_ = true := by
      have hm := hs.master
      rw [hmaster.1, hmaster.2] at hm
      cases hd : s.queue.done_ with
      | true => rfl
      | false =>
        rw [hd] at hm
        cases hm
    cases t with
    | none => exact hmaster
    | some w =>
      rcases hworker w with hthrough | ⟨-, hopen⟩
      · exact hthrough
      · rw [hdone] at hopen
        cases hopen

end Stuck

end WorkState

/-! ## A master with a list of items -/

/-- The discipline with a master that enqueues these items and then calls `done(true)`. -/
structure FedState (n : Nat) (α : Type*) where
  work : WorkState n α
  items : List α

namespace FedState

variable {n : Nat} {α : Type*}

/-- The items are all still to be enqueued. -/
def start (items : List α) : FedState n α := ⟨WorkState.start, items⟩

/-- The master's calls follow its list; the workers' do not depend on it. -/
def Feeds (s : FedState n α) : QueueLabel (Thread n) α → Prop
  | .call none (.enqueue value) => s.items.head? = some value
  | .call none (.done _) => s.items = []
  | _ => True

/-- The items left after a step. -/
def itemsAfter (s : FedState n α) : QueueLabel (Thread n) α → List α
  | .call none (.enqueue _) => s.items.tail
  | _ => s.items

/-- A thread outside its calls that is not through has a call to make. -/
theorem exists_call {s : FedState n α} {t : Thread n} (hidle : s.work.queue.pc t = .idle)
    (hleft : ¬ s.work.Finished t) :
    ∃ op, s.Feeds (.call t op) ∧ s.work.Permits (.call t op) := by
  cases t with
  | none =>
    have hopen : s.work.closing = false := by
      by_contra hclosing
      rw [Bool.not_eq_false] at hclosing
      exact hleft ⟨hclosing, hidle⟩
    cases hitems : s.items with
    | nil => exact ⟨.done true, hitems, hopen, rfl⟩
    | cons value rest =>
      exact ⟨.enqueue value, by rw [Feeds, hitems]; rfl, hopen⟩
  | some w => exact ⟨.dequeue, trivial, Bool.eq_false_iff.mpr hleft⟩

variable [DecidableEq α] {capacity : Nat}

instance (s : FedState n α) : DecidablePred s.Feeds
  | .call none (.enqueue _) | .call none (.done _) => inferInstanceAs (Decidable (_ = _))
  | .call none .dequeue | .call (some _) _ | .push .. | .sleepFull .. | .pop .. | .sleepEmpty _
  | .throwEmpty _ | .setDone .. | .broadcastEmpty _ | .broadcastFull .. | .spurious _ =>
    inferInstanceAs (Decidable True)

def step (capacity : Nat) (s : FedState n α) (l : QueueLabel (Thread n) α) :
    Option (FedState n α) :=
  if s.Feeds l then (s.work.step capacity l).map (⟨·, s.itemsAfter l⟩) else none

theorem step_work {s u : FedState n α} {l : QueueLabel (Thread n) α}
    (h : s.step capacity l = some u) : s.work.step capacity l = some u.work := by
  simp only [step, Option.ite_none_right_eq_some, Option.map_eq_some_iff] at h
  obtain ⟨-, work, hwork, rfl⟩ := h
  exact hwork

/-- Every reachable state is disciplined and has lost no wakeup. -/
theorem run_disciplined {items : List α} {ls : List (QueueLabel (Thread n) α)}
    {s : FedState n α} (h : run (step capacity) (start items) ls = some s) :
    s.work.Disciplined ∧ s.work.queue.NoLostWakeup capacity := by
  refine run_invariant
    (I := fun s : FedState n α => s.work.Disciplined ∧ s.work.queue.NoLostWakeup capacity)
    ?_ ⟨WorkState.disciplined_start, QueueState.noLostWakeup_start⟩ h
  intro s l u hs hstep
  have hwork := step_work hstep
  exact ⟨WorkState.step_disciplined hs.1 hwork,
    QueueState.step_noLostWakeup hs.2 (WorkState.step_queue hwork)⟩

/-- While some thread is not through, some thread has a step that is not a spurious wakeup. -/
theorem exists_step {s : FedState n α} (hs : s.work.Disciplined)
    (hwake : s.work.queue.NoLostWakeup capacity) (hcap : 0 < capacity) (hn : 0 < n)
    (hleft : ∃ t, ¬ s.work.Finished t) :
    ∃ l u, (∀ t, l ≠ .spurious t) ∧ s.step capacity l = some u := by
  obtain ⟨t, hawake, ht⟩ : ∃ t, (s.work.queue.pc t).asleep = false ∧ ¬ s.work.Finished t := by
    by_contra hnone
    obtain ⟨t, ht⟩ := hleft
    refine ht (hs.finished_of_stuck hwake hcap hn (fun t hawake => ?_) t)
    by_contra hthrough
    exact hnone ⟨t, hawake, hthrough⟩
  by_cases hidle : s.work.queue.pc t = .idle
  · obtain ⟨op, hfeeds, hpermits⟩ := exists_call hidle ht
    refine ⟨.call t op, ⟨s.work.effect (.call t op), s.itemsAfter (.call t op)⟩, nofun, ?_⟩
    rw [step, if_pos hfeeds, WorkState.step, if_pos ⟨hpermits, hidle⟩]
    rfl
  · obtain ⟨l, henabled, hcall, hspurious⟩ := WorkState.exists_enabled_of_awake hawake hidle
    refine ⟨l, ⟨s.work.effect l, s.itemsAfter l⟩, hspurious, ?_⟩
    have hfeeds : s.Feeds l ∧ s.work.Permits l := by
      cases l with
      | call => cases hcall
      | _ => exact ⟨trivial, trivial⟩
    rw [step, if_pos hfeeds.1, WorkState.step, if_pos ⟨hfeeds.2, henabled⟩]
    rfl

end FedState

/-! ## The queue's liveness -/

/-- No run loses a wakeup, and no state of a producer and its consumers is stuck
before all of them are through. -/
theorem noLostWakeup_and_progress {τ α : Type*} [DecidableEq τ] [DecidableEq α] {capacity n : Nat}
    (hcap : 0 < capacity) (hn : 0 < n) :
    (∀ (ls : List (QueueLabel τ α)) (s : QueueState τ α),
      run (QueueState.step capacity) QueueState.start ls = some s → s.NoLostWakeup capacity) ∧
    ∀ (items : List α) (ls : List (QueueLabel (Thread n) α)) (s : FedState n α),
      run (FedState.step capacity) (FedState.start items) ls = some s →
        (∃ t, ¬ s.work.Finished t) →
          ∃ l u, (∀ t, l ≠ .spurious t) ∧ s.step capacity l = some u := by
  refine ⟨fun ls s h => QueueState.run_noLostWakeup h, fun items ls s h hleft => ?_⟩
  obtain ⟨hs, hwake⟩ := FedState.run_disciplined h
  exact FedState.exists_step hs hwake hcap hn hleft

/-- A worker falls asleep before the master's first enqueue and sleeps until its broadcast. -/
def sleepingRun : List (QueueLabel (Thread 1) Nat) :=
  [.call (some 0) .dequeue, .sleepEmpty (some 0), .call none (.enqueue 7), .push none 7]

theorem sleepingRun_isSome :
    (run (QueueState.step 1) QueueState.start sleepingRun).isSome = true ∧
      (run (FedState.step 1) (FedState.start [7]) sleepingRun).isSome = true := by
  decide

theorem noLostWakeup_and_progress_sleepingRun :
    ((run (QueueState.step 1) QueueState.start sleepingRun).get
      sleepingRun_isSome.1).NoLostWakeup 1 ∧
    ∃ l u, (∀ t, l ≠ .spurious t) ∧ ((run (FedState.step 1) (FedState.start [7]) sleepingRun).get
      sleepingRun_isSome.2).step 1 l = some u :=
  have h := @noLostWakeup_and_progress (Thread 1) Nat _ _ 1 1 (by decide) (by decide)
  ⟨h.1 _ _ (Option.some_get _).symm,
    h.2 _ _ _ (Option.some_get _).symm ⟨some 0, fun hfinished => Bool.false_ne_true hfinished⟩⟩

end Meguro
