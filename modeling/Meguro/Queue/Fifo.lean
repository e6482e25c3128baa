import Meguro.Queue.ThreadSafeQueue

/-!
# Bounded FIFO delivery

What has been popped, followed by what is in the queue, is what has been pushed:
every step keeps this, whatever threads are asleep or woken in between. The queue
never holds more than its capacity, and a dequeue gives up only on an empty queue
that is marked done. If the mark is set after the last push, everything pushed
has been handed to some consumer by then.
-/

namespace Meguro

open Transition

namespace QueueLabel

variable {τ α : Type*}

/-- The value the step gives to `enqueue`. -/
def given? : QueueLabel τ α → Option α
  | .call _ (.enqueue value) => some value
  | _ => none

/-- The value the step pushes. -/
def pushed? : QueueLabel τ α → Option α
  | .push _ value => some value
  | _ => none

/-- The value the step pops. -/
def popped? : QueueLabel τ α → Option α
  | .pop _ value => some value
  | _ => none

/-- The step calls `enqueue`. -/
def IsEnqueueCall (l : QueueLabel τ α) : Prop := ∃ thread value, l = .call thread (.enqueue value)

end QueueLabel

section Traces

variable {τ α : Type*}

/-- The values given to `enqueue` in a run, in the order of the calls. -/
def given (ls : List (QueueLabel τ α)) : List α := ls.filterMap QueueLabel.given?

/-- The values pushed by a run, in the order of the critical sections. -/
def pushed (ls : List (QueueLabel τ α)) : List α := ls.filterMap QueueLabel.pushed?

/-- The values popped by a run, in the order of the critical sections. -/
def popped (ls : List (QueueLabel τ α)) : List α := ls.filterMap QueueLabel.popped?

theorem pushed_append (ls ms : List (QueueLabel τ α)) :
    pushed (ls ++ ms) = pushed ls ++ pushed ms :=
  List.filterMap_append

@[simp] theorem given_snoc (ls : List (QueueLabel τ α)) (l : QueueLabel τ α) :
    given (ls ++ [l]) = given ls ++ l.given?.toList :=
  filterMap_snoc ..

@[simp] theorem pushed_snoc (ls : List (QueueLabel τ α)) (l : QueueLabel τ α) :
    pushed (ls ++ [l]) = pushed ls ++ l.pushed?.toList :=
  filterMap_snoc ..

@[simp] theorem popped_snoc (ls : List (QueueLabel τ α)) (l : QueueLabel τ α) :
    popped (ls ++ [l]) = popped ls ++ l.popped?.toList :=
  filterMap_snoc ..

end Traces

namespace QueueState

variable {τ α : Type*} [DecidableEq τ] [DecidableEq α] {capacity : Nat}

/-! ## One step -/

/-- A step appends what it pushes and removes what it pops from the front. -/
theorem step_data {s u : QueueState τ α} {l : QueueLabel τ α} (h : s.step capacity l = some u) :
    s.data ++ l.pushed?.toList = l.popped?.toList ++ u.data := by
  obtain ⟨henabled, rfl⟩ := step_eq_some_iff.mp h
  cases l with
  | pop thread value =>
    obtain ⟨rest, hrest⟩ := List.head?_eq_some_iff.mp henabled.2
    simp [QueueLabel.pushed?, QueueLabel.popped?, effect, hrest]
  | _ => simp [QueueLabel.pushed?, QueueLabel.popped?, effect, goto]

/-- A push waits until there is room. -/
theorem step_bounded {s u : QueueState τ α} {l : QueueLabel τ α} (hcap : 0 < capacity)
    (hs : s.data.length ≤ capacity) (h : s.step capacity l = some u) :
    u.data.length ≤ capacity := by
  obtain ⟨henabled, rfl⟩ := step_eq_some_iff.mp h
  cases l with
  | push thread value =>
    have hroom : s.data.length ≠ capacity := fun hfull => henabled.2 ⟨hcap, hfull⟩
    simp only [effect, List.length_append, List.length_singleton]
    omega
  | pop =>
    simp only [effect, List.length_tail]
    omega
  | _ => exact hs

/-- A dequeue gives up only on an empty queue that is marked done. -/
theorem step_throwEmpty {s u : QueueState τ α} {thread : τ}
    (h : s.step capacity (.throwEmpty thread) = some u) : s.done_ = true ∧ s.data = [] :=
  (step_eq_some_iff.mp h).1.2.symm

/-- Without a call of `enqueue`, no thread comes before a push. -/
theorem step_noneEnqueues {s u : QueueState τ α} {l : QueueLabel τ α}
    (hs : ∀ t, (s.pc t).enqueues = false) (hl : ¬ l.IsEnqueueCall)
    (h : s.step capacity l = some u) : ∀ t, (u.pc t).enqueues = false := by
  obtain ⟨henabled, rfl⟩ := step_eq_some_iff.mp h
  intro t
  rw [effect_pc]
  split
  · cases l with
    | call thread op =>
      cases op with
      | enqueue value => exact absurd ⟨thread, value, rfl⟩ hl
      | _ => rfl
    | sleepFull thread value =>
      have hthread := hs thread
      rw [henabled.1] at hthread
      cases hthread
    | spurious => rw [QueueLabel.arrive, QueuePc.enqueues_woken, hs t]
    | _ => rfl
  · cases l with
    | broadcastEmpty => rw [QueueLabel.wake, QueuePc.enqueues_wakeEmpty, hs t]
    | broadcastFull => rw [QueueLabel.wake, QueuePc.enqueues_wakeFull, hs t]
    | _ => exact hs t

/-- Only a thread before its push pushes. -/
theorem step_pushed? {s u : QueueState τ α} {l : QueueLabel τ α}
    (hs : ∀ t, (s.pc t).enqueues = false) (h : s.step capacity l = some u) :
    l.pushed? = none := by
  cases l with
  | push thread value =>
    have hthread := hs thread
    rw [(step_eq_some_iff.mp h).1.1] at hthread
    cases hthread
  | _ => rfl

/-- The queue is marked done, or a thread is about to mark it. -/
def DoneCalled (s : QueueState τ α) : Prop := s.done_ = true ∨ ∃ t, s.pc t = .done true

/-- Only a call of `done(true)` leads to the mark. -/
theorem step_doneCalled {s u : QueueState τ α} {l : QueueLabel τ α}
    (h : s.step capacity l = some u) (hu : u.DoneCalled) :
    s.DoneCalled ∨ ∃ t, l = .call t (.done true) := by
  obtain ⟨henabled, rfl⟩ := step_eq_some_iff.mp h
  rcases hu with hdone | ⟨t, ht⟩
  · cases l with
    | setDone thread flag =>
      obtain rfl : flag = true := hdone
      exact .inl (.inr ⟨thread, henabled⟩)
    | _ => exact .inl (.inl hdone)
  · rw [effect_pc] at ht
    by_cases he : t = l.thread
    · subst t
      rw [if_pos rfl] at ht
      cases l with
      | call thread op =>
        cases op with
        | done flag =>
          obtain rfl : flag = true := by simpa [QueueLabel.arrive, QueuePc.ofCall] using ht
          exact .inr ⟨thread, rfl⟩
        | _ => cases ht
      | spurious => exact absurd ht (QueuePc.woken_ne rfl henabled)
      | _ => cases ht
    · rw [if_neg he] at ht
      exact .inl (.inr ⟨t, QueueLabel.eq_of_wake_eq rfl ht⟩)

/-! ## Runs -/

section Runs

variable {ls : List (QueueLabel τ α)} {s : QueueState τ α}

/-- What has been popped, then what is in the queue, is what has been pushed. -/
theorem run_fifo (h : run (step capacity) start ls = some s) :
    popped ls ++ s.data = pushed ls := by
  refine run_history (I := fun ls s => popped ls ++ s.data = pushed ls) rfl ?_ h
  intro past t l u ht hstep
  rw [popped_snoc, pushed_snoc, List.append_assoc, ← step_data hstep, ← List.append_assoc, ht]

/-- The queue holds no more than its capacity. -/
theorem run_bounded (hcap : 0 < capacity) (h : run (step capacity) start ls = some s) :
    s.data.length ≤ capacity :=
  run_invariant (I := fun s => s.data.length ≤ capacity) (step_bounded hcap) (Nat.zero_le _) h

/-- A queue marked done has had a call of `done(true)`. -/
theorem run_doneCalled (h : run (step capacity) start ls = some s) (hs : s.DoneCalled) :
    ∃ t, .call t (.done true) ∈ ls := by
  refine run_history (I := fun ls s => s.DoneCalled → ∃ t, .call t (.done true) ∈ ls) ?_ ?_ h hs
  · rintro (hdone | ⟨t, ht⟩)
    · cases hdone
    · cases ht
  · intro past t l u ht hstep hu
    rcases step_doneCalled hstep hu with hold | ⟨thread, rfl⟩
    · obtain ⟨thread, hmem⟩ := ht hold
      exact ⟨thread, List.mem_append_left _ hmem⟩
    · exact ⟨thread, by simp⟩

/-- Once no enqueue is before its push and none is called any more, nothing is pushed. -/
theorem run_pushed_eq_nil {u : QueueState τ α} (hs : ∀ t, (s.pc t).enqueues = false)
    (hcalls : ∀ l ∈ ls, ¬ l.IsEnqueueCall) (h : run (step capacity) s ls = some u) :
    pushed ls = [] := by
  induction ls generalizing s with
  | nil => rfl
  | cons l ls ih =>
    obtain ⟨t, hl, hrest⟩ := run_cons.mp h
    have ht := step_noneEnqueues hs (hcalls l (by simp)) hl
    have hnil := ih ht (fun m hm => hcalls m (List.mem_cons_of_mem _ hm)) hrest
    simpa [pushed, step_pushed? hs hl] using hnil

end Runs

end QueueState

/-! ## The queue's contract -/

section Contract

variable {τ α : Type*} [DecidableEq τ] [DecidableEq α]

/-- Every call of `done(true)` comes when no enqueue is before its push, and none
is called after it. -/
def DoneAfterEnqueues (capacity : Nat) (ls : List (QueueLabel τ α)) : Prop :=
  ∀ past future t, ls = past ++ .call t (.done true) :: future →
    (∀ l ∈ future, ¬ l.IsEnqueueCall) ∧
      ∀ s, run (QueueState.step capacity) QueueState.start past = some s →
        ∀ u, (s.pc u).enqueues = false

/-- What the queue promises of a run that leads to this state. -/
structure BoundedFifo (capacity : Nat) (ls : List (QueueLabel τ α)) (s : QueueState τ α) :
    Prop where
  bounded : s.data.length ≤ capacity
  /-- Nothing is lost, duplicated or reordered. -/
  fifo : popped ls ++ s.data = pushed ls
  /-- A dequeue throws only in a state where the queue is empty and marked done. -/
  throws : ∀ past future t, ls = past ++ .throwEmpty t :: future →
    ∃ v, run (QueueState.step capacity) QueueState.start past = some v ∧
      v.done_ = true ∧ v.data = []
  /-- With the mark set after the enqueues, everything has been handed out by then. -/
  handedOut : DoneAfterEnqueues capacity ls → ∀ past future t,
    ls = past ++ .throwEmpty t :: future → popped past = pushed ls

/-- The queue is a bounded FIFO with exactly-once delivery, in every run. -/
theorem boundedFifo_run {capacity : Nat} (hcap : 0 < capacity) {ls : List (QueueLabel τ α)}
    {s : QueueState τ α} (h : run (QueueState.step capacity) QueueState.start ls = some s) :
    BoundedFifo capacity ls s := by
  have hthrows : ∀ past future t, ls = past ++ .throwEmpty t :: future →
      ∃ v, run (QueueState.step capacity) QueueState.start past = some v ∧
        v.done_ = true ∧ v.data = [] := by
    rintro past future t rfl
    obtain ⟨v, w, hpast, hstep, -⟩ := run_split h
    exact ⟨v, hpast, QueueState.step_throwEmpty hstep⟩
  refine ⟨QueueState.run_bounded hcap h, QueueState.run_fifo h, hthrows, ?_⟩
  intro hafter past future t hls
  obtain ⟨v, hpast, hdone, hempty⟩ := hthrows past future t hls
  obtain ⟨u, hcall⟩ := QueueState.run_doneCalled hpast (.inl hdone)
  obtain ⟨before, between, rfl⟩ := List.append_of_mem hcall
  have hsplit : ls = before ++ .call u (.done true) :: (between ++ .throwEmpty t :: future) := by
    rw [hls]
    simp
  obtain ⟨hcalls, hnone⟩ := hafter _ _ _ hsplit
  obtain ⟨w, x, hbefore, hstep, hrest⟩ := run_split (hsplit ▸ h)
  have hx := QueueState.step_noneEnqueues (hnone w hbefore) (fun ⟨_, _, he⟩ => by cases he) hstep
  have hrest := QueueState.run_pushed_eq_nil hx hcalls hrest
  have hfifo := QueueState.run_fifo hpast
  rw [hempty, List.append_nil] at hfifo
  rw [pushed_append, List.append_eq_nil_iff] at hrest
  calc
    _ = _ := hfifo
    _ = _ ++ pushed (.throwEmpty t :: future) := by rw [hrest.2, List.append_nil]
    _ = pushed ls := by rw [hls, ← pushed_append]

end Contract

/-- The consumer `true` sleeps, is woken by an enqueue of `false` and gets its value;
its next dequeue finds the queue done. -/
def handoverRun : List (QueueLabel Bool Nat) :=
  [.call true .dequeue, .sleepEmpty true, .call false (.enqueue 7), .push false 7,
    .broadcastEmpty false, .call false (.done true), .pop true 7, .broadcastFull true 7,
    .call true .dequeue, .setDone false true, .throwEmpty true]

theorem handoverRun_isSome :
    (run (QueueState.step 1) QueueState.start handoverRun).isSome = true := by
  decide

theorem boundedFifo_handoverRun : BoundedFifo 1 handoverRun
    ((run (QueueState.step 1) QueueState.start handoverRun).get handoverRun_isSome) :=
  boundedFifo_run (by decide) (Option.some_get _).symm

end Meguro
