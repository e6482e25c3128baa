import Meguro.Core.Generator
import Meguro.Queue.ProducerConsumer
import Meguro.Store.Hdb

/-!
# A master and its worker threads

`map_master` and `reduce_master` run the same program over different parts. The
master creates the worker threads, opens the output, reads items and enqueues
them, calls `done(true)`, joins the workers and closes the output. A worker
constructs its script handle, then dequeues items and calls the script on each,
until `dequeue` throws. The parts are: how the next item is read, what the
script's calls back into the program do to the output, and whether a failed
attempt is caught.
-/

namespace Meguro

variable {n : Nat} {α σ A E : Type*}

/-- The parts of a phase: `σ` is the state of its reading loop, `A` the steps the
script's callbacks make, `E` the data they make them on. -/
structure PhaseParts (n : Nat) (α σ A E : Type*) where
  /-- The capacity of the queue. -/
  capacity : Nat
  /-- The reading loop of `begin`. -/
  firstRead : σ
  read : σ → Produce σ α
  /-- The output file, opened at the start of `begin` and closed in `end`. -/
  openOut : E → Option E
  closeOut : E → E
  /-- A step of a callback in a worker's script, and whether it throws an
  exception that nothing catches. -/
  act : E → Fin n → A → Option E
  fatal : A → Bool
  /-- The worker catches the exception of a failed attempt. -/
  catches : Bool
  /-- The output's handle, and that a worker is outside the callbacks. -/
  status : E → HandleStatus
  quiet : E → Fin n → Bool
  status_openOut : ∀ {e e'}, openOut e = some e' → status e' = .opened
  status_act : ∀ {e w a e'}, act e w a = some e' → status e' = status e
  quiet_openOut : ∀ {e e'}, openOut e = some e' → ∀ w, quiet e' w = quiet e w
  quiet_act : ∀ {e w a e'}, act e w a = some e' → ∀ v, v ≠ w → quiet e' v = quiet e v
  quiet_closeOut : ∀ {e w}, quiet (closeOut e) w = quiet e w

/-- Where the master is: creating threads (and opening the output after the last
one), reading, joining threads (and closing the output after the last one), or
past its phase. -/
inductive MasterPc (σ : Type*)
  | create (next : Nat)
  | loop (pos : σ)
  | join (next : Nat)
  | ended
  deriving DecidableEq

/-- Where a worker is: not yet created, constructing its handle, in `next`, before
or inside the script's call on an item, or past its loop. -/
inductive WorkerPc (α : Type*)
  | absent
  | starting
  | loop
  | got (item : α)
  | busy (item : α)
  | finished
  deriving DecidableEq

/-- Inside the script's call. -/
def WorkerPc.isBusy : WorkerPc α → Bool
  | .busy _ => true
  | _ => false

/-- Past its loop. -/
def WorkerPc.isFinished : WorkerPc α → Bool
  | .finished => true
  | _ => false

/-- The master's call of `done` is behind it. -/
def MasterPc.closing : MasterPc σ → Bool
  | .join _ | .ended => true
  | _ => false

/-- A phase under way; an uncaught exception terminates the whole process. -/
structure PhaseState (n : Nat) (α σ E : Type*) where
  master : MasterPc σ
  worker : Fin n → WorkerPc α
  queue : QueueState (Thread n) α
  env : E
  terminated : Bool

/-- One step of a phase: `pthread_create`, a worker's handle constructed or not,
the open, a turn of the reading loop, a step inside the queue, a worker's call of
`next`, an attempt of the script on an item (which fails before the script runs),
a step of a callback, the script's return, a `pthread_join`, the close. -/
inductive PhaseLabel (n : Nat) (α σ A : Type*)
  | create (w : Fin n)
  | started (w : Fin n) (ok : Bool)
  | openOut
  | read (pos : σ) (out : Produce σ α)
  | queue (l : QueueLabel (Thread n) α)
  | next (w : Fin n)
  | attempt (w : Fin n) (item : α) (ok : Bool)
  | act (w : Fin n) (a : A)
  | returned (w : Fin n) (item : α)
  | join (w : Fin n)
  | closeOut
  deriving DecidableEq

namespace PhaseState

/-- The start of a phase. -/
def start (env : E) : PhaseState n α σ E :=
  ⟨.create 0, fun _ => .absent, QueueState.start, env, false⟩

/-- A worker moves on. -/
def goto (s : PhaseState n α σ E) (w : Fin n) (pc : WorkerPc α) : PhaseState n α σ E :=
  { s with worker := Function.update s.worker w pc }

/-- What leaving `dequeue` does to a worker: an exception ends its loop, a value
is the next item. -/
def leaveQueue (worker : Fin n → WorkerPc α) : QueueLabel (Thread n) α → Fin n → WorkerPc α
  | .throwEmpty (some w) => Function.update worker w .finished
  | .broadcastFull (some w) item => Function.update worker w (.got item)
  | _ => worker

variable (P : PhaseParts n α σ A E)

/-- When a step is possible. -/
def Enabled (s : PhaseState n α σ E) : PhaseLabel n α σ A → Prop
  | .create w => s.master = .create w ∧ s.worker w = .absent
  | .started w _ => s.worker w = .starting
  | .openOut => s.master = .create n ∧ (P.openOut s.env).isSome = true
  | .read pos out => s.master = .loop pos ∧ P.read pos = out ∧ s.queue.pc none = .idle
  | .queue l => l.isCall = false ∧ s.queue.Enabled P.capacity l
  | .next w => s.worker w = .loop ∧ s.queue.pc (some w) = .idle
  | .attempt w item _ => s.worker w = .got item
  | .act w a => (s.worker w).isBusy = true ∧ (P.act s.env w a).isSome = true
  | .returned w item => s.worker w = .busy item ∧ P.quiet s.env w = true
  | .join w => s.master = .join w ∧ s.worker w = .finished ∧ s.queue.pc none = .idle
  | .closeOut => s.master = .join n ∧ s.queue.pc none = .idle

/-- What a step does. -/
def effect (s : PhaseState n α σ E) : PhaseLabel n α σ A → PhaseState n α σ E
  | .create w => { s.goto w .starting with master := .create (w + 1) }
  | .started w ok => { s.goto w .loop with terminated := !ok }
  | .openOut => { s with master := .loop P.firstRead, env := (P.openOut s.env).getD s.env }
  | .read _ (.silent next) => { s with master := .loop next }
  | .read _ (.item value next) =>
    { s with master := .loop next, queue := s.queue.effect (.call none (.enqueue value)) }
  | .read _ .stop =>
    { s with master := .join 0, queue := s.queue.effect (.call none (.done true)) }
  | .queue l => { s with queue := s.queue.effect l, worker := leaveQueue s.worker l }
  | .next w => { s with queue := s.queue.effect (.call (some w) .dequeue) }
  | .attempt w item ok =>
    { s.goto w (if ok then .busy item else .loop) with terminated := !ok && !P.catches }
  | .act w a => { s with env := (P.act s.env w a).getD s.env, terminated := P.fatal a }
  | .returned w _ => s.goto w .loop
  | .join w => { s with master := .join (w + 1) }
  | .closeOut => { s with master := .ended, env := P.closeOut s.env }

variable [DecidableEq α] [DecidableEq σ]

instance (s : PhaseState n α σ E) : DecidablePred (s.Enabled P)
  | .started .. | .attempt .. => inferInstanceAs (Decidable (_ = _))
  | .create _ | .openOut | .read .. | .queue _ | .next _ | .act .. | .returned .. | .join _
  | .closeOut => inferInstanceAs (Decidable (_ ∧ _))

/-- The steps of a phase, as long as the process lives. -/
def step (s : PhaseState n α σ E) (l : PhaseLabel n α σ A) : Option (PhaseState n α σ E) :=
  if s.terminated = false ∧ s.Enabled P l then some (s.effect P l) else none

theorem step_eq_some_iff {s u : PhaseState n α σ E} {l : PhaseLabel n α σ A} :
    s.step P l = some u ↔ (s.terminated = false ∧ s.Enabled P l) ∧ s.effect P l = u := by
  simp only [step, Option.ite_none_right_eq_some, Option.some.injEq]

end PhaseState

end Meguro
