import Meguro.Core.Transition
import Mathlib.Logic.Function.Basic

/-!
# The work queue

`ThreadSafeQueue` as a transition system over any set of threads. The section
under the mutex of each method is one step, and so is every broadcast, which the
code makes after the unlock. A thread in a condition wait has given up the mutex;
a broadcast on its condition or a spurious wakeup sends it back to the lock, where
it tests its condition again.
-/

namespace Meguro

/-- A call of one of the queue's methods. -/
inductive QueueCall (α : Type*)
  | enqueue (value : α)
  | dequeue
  | done (flag : Bool)
  deriving DecidableEq

/-- Where a thread is in a call: outside, at the lock of a method, asleep on
`cond_full` or `cond_empty`, or past the unlock with a broadcast to make. -/
inductive QueuePc (α : Type*)
  | idle
  | enqueue (value : α)
  | waitFull (value : α)
  | dequeue
  | waitEmpty
  | done (flag : Bool)
  | signalEmpty
  | signalFull (value : α)
  deriving DecidableEq

namespace QueuePc

variable {α : Type*}

/-- The lock of the called method. -/
def ofCall : QueueCall α → QueuePc α
  | .enqueue value => .enqueue value
  | .dequeue => .dequeue
  | .done flag => .done flag

/-- The effect of a broadcast on `cond_empty`. -/
def wakeEmpty : QueuePc α → QueuePc α
  | .waitEmpty => .dequeue
  | pc => pc

/-- The effect of a broadcast on `cond_full`. -/
def wakeFull : QueuePc α → QueuePc α
  | .waitFull value => .enqueue value
  | pc => pc

/-- In a condition wait. -/
def asleep : QueuePc α → Bool
  | .waitFull _ | .waitEmpty => true
  | _ => false

/-- Back at the lock after a wakeup. -/
def woken (pc : QueuePc α) : QueuePc α := pc.wakeEmpty.wakeFull

/-- About to take the lock of `enqueue` or `dequeue`. -/
def atLock : QueuePc α → Bool
  | .enqueue _ | .dequeue => true
  | _ => false

/-- A sleeper is woken to take the lock again, and nowhere else. -/
theorem woken_ne {pc q : QueuePc α} (hq : q.atLock = false) (h : pc.asleep = true) :
    pc.woken ≠ q := by
  have hlock : pc.woken.atLock = true := by
    cases pc <;> first | rfl | cases h
  rintro rfl
  rw [hq] at hlock
  cases hlock

/-- In a call of `enqueue`, before its push. -/
def enqueues : QueuePc α → Bool
  | .enqueue _ | .waitFull _ => true
  | _ => false

@[simp] theorem enqueues_wakeEmpty (pc : QueuePc α) : pc.wakeEmpty.enqueues = pc.enqueues := by
  cases pc <;> rfl

@[simp] theorem enqueues_wakeFull (pc : QueuePc α) : pc.wakeFull.enqueues = pc.enqueues := by
  cases pc <;> rfl

@[simp] theorem enqueues_woken (pc : QueuePc α) : pc.woken.enqueues = pc.enqueues := by
  simp [woken]

/-- The value a call of `enqueue` is still to push. -/
def enqueuing : QueuePc α → Option α
  | .enqueue value | .waitFull value => some value
  | _ => none

@[simp] theorem enqueuing_woken (pc : QueuePc α) : pc.woken.enqueuing = pc.enqueuing := by
  cases pc <;> rfl

/-- Outside or in a call of `dequeue`. -/
def consuming : QueuePc α → Bool
  | .idle | .dequeue | .waitEmpty | .signalFull _ => true
  | _ => false

/-- A sleeping consumer waits on `cond_empty`. -/
theorem eq_waitEmpty {pc : QueuePc α} (hasleep : pc.asleep = true) (hpc : pc.consuming = true) :
    pc = .waitEmpty := by
  cases pc <;>
    first | rfl | exact absurd hasleep Bool.false_ne_true | exact absurd hpc Bool.false_ne_true

@[simp] theorem consuming_woken (pc : QueuePc α) : pc.woken.consuming = pc.consuming := by
  cases pc <;> rfl

end QueuePc

/-- The fields of the queue that change, and the place of every thread. -/
structure QueueState (τ α : Type*) where
  data : List α
  done_ : Bool
  pc : τ → QueuePc α

/-- One atomic step of a thread, with the value it pushes, pops or returns. -/
inductive QueueLabel (τ α : Type*)
  | call (thread : τ) (op : QueueCall α)
  | push (thread : τ) (value : α)
  | sleepFull (thread : τ) (value : α)
  | pop (thread : τ) (value : α)
  | sleepEmpty (thread : τ)
  | throwEmpty (thread : τ)
  | setDone (thread : τ) (flag : Bool)
  | broadcastEmpty (thread : τ)
  | broadcastFull (thread : τ) (value : α)
  | spurious (thread : τ)
  deriving DecidableEq

namespace QueueLabel

variable {τ α : Type*}

/-- The thread that makes the step. -/
def thread : QueueLabel τ α → τ
  | .call thread _ | .push thread _ | .sleepFull thread _ | .pop thread _ | .sleepEmpty thread
  | .throwEmpty thread | .setDone thread _ | .broadcastEmpty thread | .broadcastFull thread _
  | .spurious thread => thread

/-- The step calls a method. -/
def isCall : QueueLabel τ α → Bool
  | .call .. => true
  | _ => false

/-- Where the step finds its thread. -/
def Leaves (pc : QueuePc α) : QueueLabel τ α → Prop
  | .call .. => pc = .idle
  | .push _ value | .sleepFull _ value => pc = .enqueue value
  | .pop .. | .sleepEmpty _ | .throwEmpty _ => pc = .dequeue
  | .setDone _ flag => pc = .done flag
  | .broadcastEmpty _ => pc = .signalEmpty
  | .broadcastFull _ value => pc = .signalFull value
  | .spurious _ => pc.asleep = true

theorem Leaves.ne_idle {l : QueueLabel τ α} {pc : QueuePc α} (h : l.Leaves pc)
    (hcall : l.isCall = false) : pc ≠ .idle := by
  rintro rfl
  cases l with
  | call => cases hcall
  | _ => cases h

/-- Where the step takes its thread. -/
def arrive (pc : QueuePc α) : QueueLabel τ α → QueuePc α
  | .call _ op => .ofCall op
  | .push .. | .setDone .. => .signalEmpty
  | .sleepFull _ value => .waitFull value
  | .pop _ value => .signalFull value
  | .sleepEmpty _ => .waitEmpty
  | .throwEmpty _ | .broadcastEmpty _ | .broadcastFull .. => .idle
  | .spurious _ => pc.woken

/-- Where the step takes another thread. -/
def wake (pc : QueuePc α) : QueueLabel τ α → QueuePc α
  | .broadcastEmpty _ => pc.wakeEmpty
  | .broadcastFull .. => pc.wakeFull
  | _ => pc

@[simp] theorem enqueuing_wake (l : QueueLabel τ α) (pc : QueuePc α) :
    (l.wake pc).enqueuing = pc.enqueuing := by
  cases l <;> cases pc <;> rfl

@[simp] theorem consuming_wake (l : QueueLabel τ α) (pc : QueuePc α) :
    (l.wake pc).consuming = pc.consuming := by
  cases l <;> cases pc <;> rfl

/-- A thread that is not asleep stays where it is while others step. -/
theorem wake_of_awake (l : QueueLabel τ α) {pc : QueuePc α} (h : pc.asleep = false) :
    l.wake pc = pc := by
  cases l <;> cases pc <;> first | rfl | cases h

/-- Away from the locks, a step of another thread leads from nowhere else. -/
theorem eq_of_wake_eq {l : QueueLabel τ α} {pc q : QueuePc α} (hq : q.atLock = false)
    (h : l.wake pc = q) : pc = q := by
  subst q
  cases l <;> cases pc <;> first | rfl | cases hq

end QueueLabel

namespace QueueState

variable {τ α : Type*} [DecidableEq τ]

/-- A new queue, every thread outside. -/
def start : QueueState τ α := ⟨[], false, fun _ => .idle⟩

/-- A thread moves on. -/
def goto (s : QueueState τ α) (thread : τ) (pc : QueuePc α) : QueueState τ α :=
  { s with pc := Function.update s.pc thread pc }

/-- The loop condition of `enqueue`; a queue of capacity 0 has no bound. -/
def Full (capacity : Nat) (s : QueueState τ α) : Prop := 0 < capacity ∧ s.data.length = capacity

instance (capacity : Nat) (s : QueueState τ α) : Decidable (s.Full capacity) :=
  inferInstanceAs (Decidable (_ ∧ _))

/-- When a step is possible. -/
def Enabled (capacity : Nat) (s : QueueState τ α) : QueueLabel τ α → Prop
  | .call thread _ => s.pc thread = .idle
  | .push thread value => s.pc thread = .enqueue value ∧ ¬ s.Full capacity
  | .sleepFull thread value => s.pc thread = .enqueue value ∧ s.Full capacity
  | .pop thread value => s.pc thread = .dequeue ∧ s.data.head? = some value
  | .sleepEmpty thread => s.pc thread = .dequeue ∧ s.data = [] ∧ s.done_ = false
  | .throwEmpty thread => s.pc thread = .dequeue ∧ s.data = [] ∧ s.done_ = true
  | .setDone thread flag => s.pc thread = .done flag
  | .broadcastEmpty thread => s.pc thread = .signalEmpty
  | .broadcastFull thread value => s.pc thread = .signalFull value
  | .spurious thread => (s.pc thread).asleep = true

/-- What a step does: `throwEmpty` leaves `dequeue` with a `QueueEmptyException`,
`broadcastFull` returns its value from it. -/
def effect (s : QueueState τ α) : QueueLabel τ α → QueueState τ α
  | .call thread op => s.goto thread (.ofCall op)
  | .push thread value => { s.goto thread .signalEmpty with data := s.data ++ [value] }
  | .sleepFull thread value => s.goto thread (.waitFull value)
  | .pop thread value => { s.goto thread (.signalFull value) with data := s.data.tail }
  | .sleepEmpty thread => s.goto thread .waitEmpty
  | .throwEmpty thread => s.goto thread .idle
  | .setDone thread flag => { s.goto thread .signalEmpty with done_ := flag }
  | .broadcastEmpty thread => { s with pc := fun u => (s.pc u).wakeEmpty }.goto thread .idle
  | .broadcastFull thread _ => { s with pc := fun u => (s.pc u).wakeFull }.goto thread .idle
  | .spurious thread => s.goto thread (s.pc thread).woken

omit [DecidableEq τ] in
theorem Enabled.leaves {capacity : Nat} {s : QueueState τ α} {l : QueueLabel τ α}
    (h : s.Enabled capacity l) : l.Leaves (s.pc l.thread) := by
  cases l with
  | push | sleepFull | pop | sleepEmpty | throwEmpty => exact h.1
  | _ => exact h

/-- A step moves its thread and wakes the sleepers it broadcasts to. -/
theorem effect_pc (s : QueueState τ α) (l : QueueLabel τ α) (t : τ) : (s.effect l).pc t =
    if t = l.thread then l.arrive (s.pc t) else l.wake (s.pc t) := by
  by_cases h : t = l.thread
  · subst t
    cases l <;> simp [effect, goto, QueueLabel.thread, QueueLabel.arrive]
  · rw [if_neg h]
    cases l <;> exact Function.update_of_ne h ..

/-- A thread outside the queue stays outside, unless it makes a call. -/
theorem effect_pc_of_idle {capacity : Nat} {s : QueueState τ α} {l : QueueLabel τ α} {t : τ}
    (h : s.Enabled capacity l) (ht : s.pc t = .idle) (hcall : l.isCall = false ∨ t ≠ l.thread) :
    (s.effect l).pc t = .idle := by
  rw [effect_pc]
  by_cases he : t = l.thread
  · have hleaves := h.leaves
    rw [← he, ht] at hleaves
    exact absurd rfl (hleaves.ne_idle (hcall.resolve_right (not_not.mpr he)))
  · rw [if_neg he, ht, QueueLabel.wake_of_awake l rfl]

variable [DecidableEq α]

instance (capacity : Nat) (s : QueueState τ α) : DecidablePred (s.Enabled capacity)
  | .call .. | .setDone .. | .broadcastEmpty .. | .broadcastFull .. | .spurious .. =>
    inferInstanceAs (Decidable (_ = _))
  | .push .. | .sleepFull .. | .pop .. | .sleepEmpty .. | .throwEmpty .. =>
    inferInstanceAs (Decidable (_ ∧ _))

/-- The steps of `enqueue`, `dequeue` and `done`. -/
def step (capacity : Nat) (s : QueueState τ α) (l : QueueLabel τ α) : Option (QueueState τ α) :=
  if s.Enabled capacity l then some (s.effect l) else none

theorem step_eq_some_iff {capacity : Nat} {s u : QueueState τ α} {l : QueueLabel τ α} :
    s.step capacity l = some u ↔ s.Enabled capacity l ∧ s.effect l = u := by
  simp only [step, Option.ite_none_right_eq_some, Option.some.injEq]

end QueueState

end Meguro
