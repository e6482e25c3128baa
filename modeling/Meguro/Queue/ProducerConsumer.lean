import Meguro.Queue.Fifo

/-!
# One producer and its workers

The two masters use the queue alike: the master thread calls `enqueue` any number
of times and then `done(true)`, and every worker calls `dequeue` until it throws.
Under this discipline the mark is set once, after the last push, and a worker that
has left its loop has left an empty queue behind.
-/

namespace Meguro

open Transition

/-- The master (`none`) and the worker threads. -/
abbrev Thread (n : Nat) := Option (Fin n)

/-- The queue, whether the master has called `done(true)`, and the workers that
have left their loop. -/
@[ext]
structure WorkState (n : Nat) (α : Type*) where
  queue : QueueState (Thread n) α
  closing : Bool
  finished : Fin n → Bool

namespace WorkState

variable {n : Nat} {α : Type*}

/-- A new queue that the master fills. -/
def start : WorkState n α := ⟨QueueState.start, false, fun _ => false⟩

/-- The calls the masters and workers make. -/
def Permits (s : WorkState n α) : QueueLabel (Thread n) α → Prop
  | .call none (.enqueue _) => s.closing = false
  | .call none (.done flag) => s.closing = false ∧ flag = true
  | .call (some w) .dequeue => s.finished w = false
  | .call _ _ => False
  | _ => True

/-- The master's call of `done` is its last, and an exception ends a worker's loop. -/
def effect (s : WorkState n α) (l : QueueLabel (Thread n) α) : WorkState n α :=
  { queue := s.queue.effect l
    closing := match l with
      | .call none (.done _) => true
      | _ => s.closing
    finished := match l with
      | .throwEmpty (some w) => Function.update s.finished w true
      | _ => s.finished }

/-! ## Where the threads are -/

/-- Where the master is: it produces before its call of `done`, then sets the
mark and comes back. -/
def masterAt : (closing done_ : Bool) → QueuePc α → Bool
  | false, false, .idle | false, false, .enqueue _ | false, false, .waitFull _
  | false, false, .signalEmpty => true
  | true, false, .done true => true
  | true, true, .signalEmpty | true, true, .idle => true
  | _, _, _ => false

theorem masterAt_wake {τ : Type*} (closing done_ : Bool) (l : QueueLabel τ α) (pc : QueuePc α) :
    masterAt closing done_ (l.wake pc) = masterAt closing done_ pc := by
  cases pc with
  | waitFull | waitEmpty => cases l <;> cases closing <;> cases done_ <;> rfl
  | _ => rw [QueueLabel.wake_of_awake l rfl]

theorem masterAt_woken (closing done_ : Bool) (pc : QueuePc α) :
    masterAt closing done_ pc.woken = masterAt closing done_ pc := by
  cases pc with
  | waitFull | waitEmpty => cases closing <;> cases done_ <;> rfl
  | _ => rfl

/-- A sleeping master waits on `cond_full`, before its last call. -/
theorem masterAt_asleep {closing done_ : Bool} {pc : QueuePc α}
    (hm : masterAt closing done_ pc = true) (hasleep : pc.asleep = true) :
    done_ = false ∧ ∃ value, pc = .waitFull value := by
  cases pc with
  | waitFull value =>
    cases closing <;> cases done_ <;>
      first | exact ⟨rfl, value, rfl⟩ | exact absurd hm Bool.false_ne_true
  | waitEmpty => cases closing <;> cases done_ <;> exact absurd hm Bool.false_ne_true
  | _ => exact absurd hasleep Bool.false_ne_true

/-- Apart from its calls and the mark, the master moves within its phase. -/
theorem masterAt_arrive {τ : Type*} {closing done_ : Bool} {pc : QueuePc α} {l : QueueLabel τ α}
    (hm : masterAt closing done_ pc = true) (hleaves : l.Leaves pc)
    (hcall : ∀ t op, l ≠ .call t op) (hset : ∀ t flag, l ≠ .setDone t flag) :
    masterAt closing done_ (l.arrive pc) = true := by
  cases l with
  | call t op => exact absurd rfl (hcall t op)
  | setDone t flag => exact absurd rfl (hset t flag)
  | push | sleepFull | pop | sleepEmpty | throwEmpty | broadcastEmpty | broadcastFull =>
    rw [hleaves] at hm
    cases closing <;> cases done_ <;> first | rfl | cases hm
  | spurious => rw [QueueLabel.arrive, masterAt_woken, hm]

/-- What the discipline keeps true. -/
structure Disciplined (s : WorkState n α) : Prop where
  master : masterAt s.closing s.queue.done_ (s.queue.pc none) = true
  worker : ∀ w, (s.queue.pc (some w)).consuming = true
  /-- A finished worker leaves nothing behind. -/
  finished : ∀ w, s.finished w = true →
    s.queue.pc (some w) = .idle ∧ s.queue.done_ = true ∧ s.queue.data = []

theorem disciplined_start : Disciplined (start : WorkState n α) :=
  ⟨rfl, fun _ => rfl, fun _ h => (nomatch h)⟩

section Enabled

variable {capacity : Nat} {s : WorkState n α}

/-- Only the master sets the mark, and only once. -/
theorem Disciplined.of_setDone (hs : s.Disciplined) {t : Thread n} {flag : Bool}
    (h : s.queue.Enabled capacity (.setDone t flag)) :
    t = none ∧ flag = true ∧ s.closing = true ∧ s.queue.done_ = false := by
  have hpc : s.queue.pc t = .done flag := h
  cases t with
  | some w =>
    have hw := hs.worker w
    rw [hpc] at hw
    cases hw
  | none =>
    have hm := hs.master
    rw [hpc] at hm
    cases hclosing : s.closing <;> cases hdone : s.queue.done_ <;> cases flag <;>
      rw [hclosing, hdone] at hm <;> first | exact ⟨rfl, rfl, rfl, rfl⟩ | cases hm

/-- Only the master pushes, before its last call. -/
theorem Disciplined.of_push (hs : s.Disciplined) {t : Thread n} {value : α}
    (h : s.queue.Enabled capacity (.push t value)) :
    t = none ∧ s.closing = false ∧ s.queue.done_ = false := by
  have hpc : s.queue.pc t = .enqueue value := h.1
  cases t with
  | some w =>
    have hw := hs.worker w
    rw [hpc] at hw
    cases hw
  | none =>
    have hm := hs.master
    rw [hpc] at hm
    cases hclosing : s.closing <;> cases hdone : s.queue.done_ <;>
      rw [hclosing, hdone] at hm <;> first | exact ⟨rfl, rfl, rfl⟩ | cases hm

/-- After its last call the master has nothing to push. -/
theorem Disciplined.enqueuing_of_closing (hs : s.Disciplined) (hclosing : s.closing = true) :
    (s.queue.pc none).enqueuing = none := by
  have hm := hs.master
  rw [hclosing] at hm
  cases hpc : s.queue.pc none with
  | enqueue | waitFull =>
    cases hdone : s.queue.done_ <;> rw [hpc, hdone] at hm <;> cases hm
  | _ => rfl

/-- The master is never inside `dequeue`. -/
theorem Disciplined.of_dequeue (hs : s.Disciplined) {t : Thread n}
    (h : s.queue.pc t = .dequeue) : t ≠ none := by
  rintro rfl
  have hm := hs.master
  rw [h] at hm
  cases hclosing : s.closing <;> cases hdone : s.queue.done_ <;> rw [hclosing, hdone] at hm <;>
    cases hm

/-- An empty queue that is marked done stays so. -/
theorem Disciplined.effect_drained {l : QueueLabel (Thread n) α} (hs : s.Disciplined)
    (h : s.queue.Enabled capacity l) (hdone : s.queue.done_ = true)
    (hempty : s.queue.data = []) :
    (s.queue.effect l).done_ = true ∧ (s.queue.effect l).data = [] := by
  cases l with
  | setDone =>
    have hopen := (hs.of_setDone h).2.2.2
    rw [hdone] at hopen
    cases hopen
  | push =>
    have hopen := (hs.of_push h).2.2
    rw [hdone] at hopen
    cases hopen
  | pop =>
    have hhead := h.2
    rw [hempty] at hhead
    cases hhead
  | _ => exact ⟨hdone, hempty⟩

/-- A finished worker makes no call. -/
theorem permits_finished {l : QueueLabel (Thread n) α} {w : Fin n} (hpermits : s.Permits l)
    (hw : s.finished w = true) : l.isCall = false ∨ some w ≠ l.thread := by
  cases l with
  | call t op =>
    right
    rintro rfl
    cases op with
    | dequeue =>
      have hopen : s.finished w = false := hpermits
      rw [hw] at hopen
      cases hopen
    | _ => cases hpermits
  | _ => exact .inl rfl

end Enabled

variable [DecidableEq α] {capacity : Nat}

instance (s : WorkState n α) : DecidablePred s.Permits
  | .call none (.enqueue _) => inferInstanceAs (Decidable (_ = _))
  | .call none (.done _) => inferInstanceAs (Decidable (_ ∧ _))
  | .call (some _) .dequeue => inferInstanceAs (Decidable (_ = _))
  | .call none .dequeue | .call (some _) (.enqueue _) | .call (some _) (.done _) =>
    inferInstanceAs (Decidable False)
  | .push .. | .sleepFull .. | .pop .. | .sleepEmpty _ | .throwEmpty _ | .setDone ..
  | .broadcastEmpty _ | .broadcastFull .. | .spurious _ => inferInstanceAs (Decidable True)

/-- The steps of the queue under the discipline. -/
def step (capacity : Nat) (s : WorkState n α) (l : QueueLabel (Thread n) α) :
    Option (WorkState n α) :=
  if s.Permits l ∧ s.queue.Enabled capacity l then some (s.effect l) else none

theorem step_eq_some_iff {s u : WorkState n α} {l : QueueLabel (Thread n) α} :
    s.step capacity l = some u ↔
      (s.Permits l ∧ s.queue.Enabled capacity l) ∧ s.effect l = u := by
  simp only [step, Option.ite_none_right_eq_some, Option.some.injEq]

section Steps

variable {s u : WorkState n α} {l : QueueLabel (Thread n) α}

theorem step_worker (hs : s.Disciplined) (h : s.step capacity l = some u) (w : Fin n) :
    (u.queue.pc (some w)).consuming = true := by
  obtain ⟨⟨hpermits, henabled⟩, rfl⟩ := step_eq_some_iff.mp h
  have hw := hs.worker w
  change ((s.queue.effect l).pc (some w)).consuming = true
  rw [QueueState.effect_pc]
  by_cases he : some w = l.thread
  · rw [if_pos he]
    have hleaves := henabled.leaves
    rw [← he] at hleaves
    cases l with
    | call t op =>
      obtain rfl : some w = t := he
      cases op with
      | dequeue => rfl
      | _ => cases hpermits
    | push | sleepFull | setDone | broadcastEmpty =>
      rw [hleaves] at hw
      cases hw
    | spurious => rw [QueueLabel.arrive, QueuePc.consuming_woken, hw]
    | _ => rfl
  · rw [if_neg he, QueueLabel.consuming_wake, hw]

theorem step_master (hs : s.Disciplined) (h : s.step capacity l = some u) :
    masterAt u.closing u.queue.done_ (u.queue.pc none) = true := by
  obtain ⟨⟨hpermits, henabled⟩, rfl⟩ := step_eq_some_iff.mp h
  have hm := hs.master
  change masterAt _ (s.queue.effect l).done_ ((s.queue.effect l).pc none) = true
  rw [QueueState.effect_pc]
  by_cases he : none = l.thread
  · rw [if_pos he]
    have hleaves := henabled.leaves
    rw [← he] at hleaves
    cases l with
    | call t op =>
      obtain rfl : none = t := he
      rw [hleaves] at hm
      cases op with
      | enqueue value =>
        change masterAt s.closing s.queue.done_ (.enqueue value) = true
        rw [show s.closing = false from hpermits] at hm ⊢
        cases hdone : s.queue.done_ <;> rw [hdone] at hm <;> first | rfl | cases hm
      | dequeue => cases hpermits
      | done flag =>
        obtain ⟨hclosing, rfl⟩ := hpermits
        change masterAt true s.queue.done_ (.done true) = true
        rw [hclosing] at hm
        cases hdone : s.queue.done_ <;> rw [hdone] at hm <;> first | rfl | cases hm
    | setDone t flag =>
      obtain ⟨-, rfl, hclosing, hdone⟩ := hs.of_setDone henabled
      change masterAt s.closing true .signalEmpty = true
      rw [hclosing]
      rfl
    | _ => exact masterAt_arrive hm hleaves (fun _ _ => nofun) (fun _ _ => nofun)
  · rw [if_neg he, masterAt_wake]
    cases l with
    | setDone t flag => exact absurd (hs.of_setDone henabled).1.symm he
    | call t op =>
      cases t with
      | none => exact absurd rfl he
      | some w => exact hm
    | _ => exact hm

theorem step_finished (hs : s.Disciplined) (h : s.step capacity l = some u) (w : Fin n)
    (hw : u.finished w = true) :
    u.queue.pc (some w) = .idle ∧ u.queue.done_ = true ∧ u.queue.data = [] := by
  obtain ⟨⟨hpermits, henabled⟩, rfl⟩ := step_eq_some_iff.mp h
  by_cases hold : s.finished w = true
  · obtain ⟨hidle, hdone, hempty⟩ := hs.finished w hold
    exact ⟨QueueState.effect_pc_of_idle henabled hidle (permits_finished hpermits hold),
      hs.effect_drained henabled hdone hempty⟩
  · cases l with
    | throwEmpty t =>
      cases t with
      | none => exact absurd hw hold
      | some v =>
        by_cases hv : w = v
        · subst v
          exact ⟨Function.update_self .., henabled.2.2, henabled.2.1⟩
        · exact absurd ((Function.update_of_ne hv ..).symm.trans hw) hold
    | _ => exact absurd hw hold

/-- A step keeps the discipline. -/
theorem step_disciplined (hs : s.Disciplined) (h : s.step capacity l = some u) :
    u.Disciplined :=
  ⟨step_master hs h, step_worker hs h, step_finished hs h⟩

/-- What is pushed has been given to `enqueue`, except for what is on its way. -/
theorem step_given (hs : s.Disciplined) (h : s.step capacity l = some u) :
    (s.queue.pc none).enqueuing.toList ++ l.given?.toList =
      l.pushed?.toList ++ (u.queue.pc none).enqueuing.toList := by
  obtain ⟨⟨hpermits, henabled⟩, rfl⟩ := step_eq_some_iff.mp h
  change _ = _ ++ ((s.queue.effect l).pc none).enqueuing.toList
  rw [QueueState.effect_pc]
  by_cases he : none = l.thread
  · rw [if_pos he]
    have hleaves := henabled.leaves
    rw [← he] at hleaves
    cases l with
    | call t op =>
      obtain rfl : none = t := he
      rw [hleaves]
      cases op with
      | dequeue => cases hpermits
      | _ => rfl
    | spurious => rw [QueueLabel.arrive, QueuePc.enqueuing_woken]; exact List.append_nil _
    | _ =>
      rw [hleaves]
      rfl
  · rw [if_neg he, QueueLabel.enqueuing_wake]
    cases l with
    | push => exact absurd (hs.of_push henabled).1.symm he
    | call t op =>
      cases t with
      | none => exact absurd rfl he
      | some w =>
        cases op with
        | dequeue => exact List.append_nil _
        | _ => cases hpermits
    | _ => exact List.append_nil _

/-- The discipline only leaves steps of the queue out. -/
theorem step_queue (h : s.step capacity l = some u) :
    s.queue.step capacity l = some u.queue := by
  obtain ⟨⟨-, henabled⟩, rfl⟩ := step_eq_some_iff.mp h
  exact QueueState.step_eq_some_iff.mpr ⟨henabled, rfl⟩

end Steps

section Runs

variable {s : WorkState n α} {ls : List (QueueLabel (Thread n) α)}

theorem run_disciplined (h : run (step capacity) start ls = some s) : s.Disciplined :=
  run_invariant step_disciplined disciplined_start h

/-- The values pushed are the values given to `enqueue`, up to the one on its way. -/
theorem run_given (h : run (step capacity) start ls = some s) :
    given ls = pushed ls ++ (s.queue.pc none).enqueuing.toList := by
  refine (run_history (I := fun ls s => s.Disciplined ∧
    given ls = pushed ls ++ (s.queue.pc none).enqueuing.toList) ⟨disciplined_start, rfl⟩ ?_ h).2
  rintro past t l u ⟨hs, ht⟩ hstep
  refine ⟨step_disciplined hs hstep, ?_⟩
  rw [given_snoc, pushed_snoc, ht, List.append_assoc, List.append_assoc, step_given hs hstep]

end Runs

end WorkState

end Meguro
