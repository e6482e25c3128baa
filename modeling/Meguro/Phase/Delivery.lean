import Meguro.Core.Interleaving
import Meguro.Phase.Order

/-!
# Every item is attempted once

An item the master reads goes through the queue to exactly one worker, which
attempts it before it dequeues again. So when the master has joined the workers,
the attempts are the items of the reading loop, each once, and every worker has
made its attempts in the order of the loop; an attempt that fails costs nothing
but itself.
-/

namespace Meguro

open Transition Interleaving Generator

variable {n : Nat} {α σ A E : Type*}

namespace PhaseLabel

/-- The item a worker attempts. -/
def attempt? : PhaseLabel n α σ A → Option (Fin n × α)
  | .attempt w item _ => some (w, item)
  | _ => none

/-- The item the queue hands to a worker. -/
def handed? : PhaseLabel n α σ A → Option (Fin n × α)
  | .queue (.pop (some w) item) => some (w, item)
  | _ => none

end PhaseLabel

/-- The attempts of a run, with their workers. -/
def attempted (ls : List (PhaseLabel n α σ A)) : List (Fin n × α) :=
  ls.filterMap PhaseLabel.attempt?

/-- The items handed out in a run, with the workers that got them. -/
def handed (ls : List (PhaseLabel n α σ A)) : List (Fin n × α) :=
  ls.filterMap PhaseLabel.handed?

@[simp] theorem attempted_snoc (ls : List (PhaseLabel n α σ A)) (l : PhaseLabel n α σ A) :
    attempted (ls ++ [l]) = attempted ls ++ l.attempt?.toList :=
  filterMap_snoc ..

@[simp] theorem handed_snoc (ls : List (PhaseLabel n α σ A)) (l : PhaseLabel n α σ A) :
    handed (ls ++ [l]) = handed ls ++ l.handed?.toList :=
  filterMap_snoc ..

/-- The item a worker has been handed and not attempted. -/
def holding : WorkerPc α → QueuePc α → Option α
  | .got item, _ => some item
  | .loop, .signalFull item => some item
  | _, _ => none

theorem holding_idle {pc : WorkerPc α} (h : ∀ item, pc ≠ .got item) : holding pc .idle = none := by
  cases pc with
  | got item => exact absurd rfl (h item)
  | _ => rfl

theorem holding_wake {τ : Type*} (pc : WorkerPc α) (l : QueueLabel τ α) (q : QueuePc α) :
    holding pc (l.wake q) = holding pc q := by
  cases q with
  | waitFull | waitEmpty => cases l <;> cases pc <;> rfl
  | _ => rw [QueueLabel.wake_of_awake l rfl]

namespace PhaseState

/-- The same, as an entry of its worker. -/
def held (s : PhaseState n α σ E) (w : Fin n) : List (Fin n × α) :=
  ((holding (s.worker w) (s.queue.pc (some w))).map (w, ·)).toList

variable {P : PhaseParts n α σ A E} {s u : PhaseState n α σ E} {l : PhaseLabel n α σ A}

theorem held_of_idle {w : Fin n} (hq : s.queue.pc (some w) = .idle)
    (hw : ∀ item, s.worker w ≠ .got item) : s.held w = [] := by
  rw [held, hq, holding_idle hw]
  rfl

/-- Others' steps leave what a worker holds alone. -/
theorem held_of_frame {w : Fin n} (hworker : (s.effect P l).worker w = s.worker w)
    (hqueue : ∀ k, l.onQueue = some k → some w ≠ k.thread) :
    (s.effect P l).held w = s.held w := by
  rw [held, held, hworker, effect_queue]
  cases hk : l.onQueue with
  | none => rfl
  | some k =>
    change ((holding _ ((s.queue.effect k).pc (some w))).map (w, ·)).toList = _
    rw [QueueState.effect_pc, if_neg (hqueue k hk), holding_wake]

theorem leaveQueue_of_ne {worker : Fin n → WorkerPc α} {k : QueueLabel (Thread n) α} {w : Fin n}
    (h : some w ≠ k.thread) : leaveQueue worker k w = worker w := by
  cases k with
  | throwEmpty t | broadcastFull t =>
    cases t with
    | none => rfl
    | some v => exact Function.update_of_ne (fun he => h (congrArg some he)) ..
  | _ => rfl

/-- A worker's own step in the queue: it takes what it is handed and leaves with it. -/
theorem step_held_own (hs : s.Ordered P) {k : QueueLabel (Thread n) α}
    (h : s.Enabled P (.queue k)) {w : Fin n} (hw : k.thread = some w) :
    s.held w ++ ofOwner w (PhaseLabel.handed? (.queue k : PhaseLabel n α σ A)).toList =
      (s.effect P (.queue k)).held w := by
  obtain ⟨hcall, hk⟩ := h
  have hleaves := hk.leaves
  rw [hw] at hleaves
  have hloop := hs.loop_of_ne_idle (hleaves.ne_idle hcall)
  have hconsuming : (s.queue.pc (some w)).consuming = true := hs.disciplined.worker w
  have hpc : (s.effect P (.queue k)).queue.pc (some w) = k.arrive (s.queue.pc (some w)) :=
    (QueueState.effect_pc ..).trans (if_pos hw.symm)
  have hworker : (s.effect P (.queue k)).worker w = leaveQueue s.worker k w := rfl
  rw [held, held, hpc, hworker, hloop]
  cases k with
  | call => cases hcall
  | push | sleepFull | setDone | broadcastEmpty =>
    rw [hleaves] at hconsuming
    cases hconsuming
  | pop t item =>
    cases hw
    change _ = ((holding (s.worker w) _).map (w, ·)).toList
    rw [hleaves, hloop]
    exact ofOwner_self w item
  | sleepEmpty t =>
    change _ = ((holding (s.worker w) _).map (w, ·)).toList
    rw [hleaves, hloop]
    rfl
  | throwEmpty t =>
    cases hw
    rw [hleaves, leaveQueue, Function.update_self]
    rfl
  | broadcastFull t item =>
    cases hw
    rw [hleaves, leaveQueue, Function.update_self]
    rfl
  | spurious t =>
    cases hw
    change _ = ((holding (s.worker w) _).map (w, ·)).toList
    rw [QueuePc.eq_waitEmpty hk hconsuming, hloop]
    rfl

/-- A step outside the queue that attempts nothing leaves what is held alone. -/
theorem held_of_quiet (hs : s.Ordered P) (h : s.Enabled P l) (hqueue : l.onQueue = none)
    (hattempt : l.attempt? = none) (w : Fin n) : (s.effect P l).held w = s.held w := by
  rcases worker_effect hs h w with hsame | ⟨old, new, hold, hnew, hmove⟩
  · exact held_of_frame hsame fun k hk => nomatch hqueue.symm.trans hk
  have hidle : old ≠ .loop → (∀ item, old ≠ .got item) → (∀ item, new ≠ .got item) →
      (s.effect P l).held w = s.held w := by
    intro hloop hgot hgot'
    have hpc := hs.outside w (hold ▸ hloop)
    have hpc' : (s.effect P l).queue.pc (some w) = .idle := by
      rw [effect_queue, hqueue]
      exact hpc
    rw [held_of_idle hpc (hold ▸ hgot), held_of_idle hpc' (hnew ▸ hgot')]
  cases hmove with
  | create | started | returned => exact hidle nofun nofun nofun
  | threw | took => cases hqueue
  | attempt => cases hattempt

/-- A step in the queue: its worker takes what it is handed, the others hold on. -/
theorem step_held_queue (hs : s.Ordered P) {k : QueueLabel (Thread n) α}
    (h : s.Enabled P (.queue k)) (w : Fin n) :
    s.held w ++ ofOwner w (PhaseLabel.handed? (.queue k : PhaseLabel n α σ A)).toList =
      (s.effect P (.queue k)).held w := by
  by_cases hk : k.thread = some w
  · exact step_held_own hs h hk
  have hframe : (s.effect P (.queue k)).held w = s.held w := by
    have hworker : (s.effect P (.queue k)).worker w = s.worker w :=
      leaveQueue_of_ne (Ne.symm hk)
    apply held_of_frame hworker
    intro _ hk'
    cases hk'
    exact Ne.symm hk
  rw [hframe]
  cases k with
  | pop t item =>
    cases t with
    | none => exact List.append_nil _
    | some v =>
      have hv : v ≠ w := fun he => hk (congrArg some he)
      change s.held w ++ ofOwner w [(v, item)] = _
      rw [ofOwner_of_ne hv, List.append_nil]
  | _ => exact List.append_nil _

/-- A worker that calls `next` holds nothing. -/
theorem held_next {v : Fin n} (h : s.Enabled P (.next v)) (w : Fin n) :
    (s.effect P (.next v)).held w = s.held w := by
  by_cases hv : w = v
  · subst v
    have hpc : (s.effect P (.next w)).queue.pc (some w) = .dequeue := Function.update_self ..
    have hworker : (s.effect P (.next w)).worker w = .loop := h.1
    rw [held, held, hpc, hworker, h.1, h.2]
    rfl
  · apply held_of_frame rfl
    intro _ hk he
    cases hk
    exact hv (Option.some.inj he)

/-- An attempt is made on the item its worker holds. -/
theorem held_attempt (hs : s.Ordered P) {v : Fin n} {item : α} {ok : Bool}
    (h : s.Enabled P (.attempt v item ok)) (w : Fin n) :
    s.held w = ofOwner w [(v, item)] ++ (s.effect P (.attempt v item ok)).held w := by
  by_cases hv : w = v
  · subst v
    have hw : s.worker w = .got item := h
    have hworker : (s.effect P (.attempt w item ok)).worker w =
        if ok then .busy item else .loop := Function.update_self ..
    have hpc : (s.effect P (.attempt w item ok)).queue.pc (some w) = .idle :=
      hs.outside w (by rw [hw]; nofun)
    have hnew : (s.effect P (.attempt w item ok)).held w = [] := by
      apply held_of_idle hpc
      rw [hworker]
      cases ok <;> nofun
    rw [hnew, List.append_nil, held, hw]
    exact (ofOwner_self w item).symm
  · have hframe : (s.effect P (.attempt v item ok)).held w = s.held w :=
      held_of_frame (Function.update_of_ne hv ..) nofun
    rw [hframe, ofOwner_of_ne (Ne.symm hv), List.nil_append]

/-- An item handed to a worker is held until it is attempted. -/
theorem step_held (hs : s.Ordered P) (h : s.Enabled P l) (w : Fin n) :
    s.held w ++ ofOwner w l.handed?.toList =
      ofOwner w l.attempt?.toList ++ (s.effect P l).held w := by
  cases l with
  | queue k => exact step_held_queue hs h w
  | attempt v item ok => exact (List.append_nil _).trans (held_attempt hs h w)
  | read pos out =>
    refine (List.append_nil _).trans (Eq.symm ?_)
    cases out with
    | silent next => exact held_of_quiet hs h rfl rfl w
    | item | stop =>
      apply held_of_frame rfl
      intro _ hk
      cases hk
      nofun
  | next v => exact (List.append_nil _).trans (held_next h w).symm
  | _ => exact (List.append_nil _).trans (held_of_quiet hs h rfl rfl w).symm

/-! ## Runs -/

section Runs

variable [DecidableEq α] [DecidableEq σ] {env : E} {ls : List (PhaseLabel n α σ A)}

/-- What each worker has been handed it has attempted, in order, up to what it holds. -/
theorem run_held (henv : ∀ w, P.quiet env w = true)
    (h : run (step P) (start env) ls = some s) (w : Fin n) :
    ofOwner w (handed ls) = ofOwner w (attempted ls) ++ s.held w := by
  refine (run_history (I := fun ls s => s.Ordered P ∧
    ofOwner w (handed ls) = ofOwner w (attempted ls) ++ s.held w)
    ⟨ordered_start henv, rfl⟩ ?_ h).2
  rintro past t l u ⟨hs, ht⟩ hstep
  refine ⟨step_ordered hs hstep, ?_⟩
  obtain ⟨⟨-, henabled⟩, rfl⟩ := (step_eq_some_iff P).mp hstep
  rw [handed_snoc, attempted_snoc, ofOwner_append, ofOwner_append, ht, List.append_assoc,
    List.append_assoc, step_held hs henabled w]

/-- The items handed out are the items popped. -/
theorem run_popped (henv : ∀ w, P.quiet env w = true)
    (h : run (step P) (start env) ls = some s) :
    popped (ls.filterMap PhaseLabel.onQueue) = (handed ls).map Prod.snd := by
  refine (run_history (I := fun ls s => s.Ordered P ∧
    popped (ls.filterMap PhaseLabel.onQueue) = (handed ls).map Prod.snd)
    ⟨ordered_start henv, rfl⟩ ?_ h).2
  rintro past t l u ⟨hs, ht⟩ hstep
  refine ⟨step_ordered hs hstep, ?_⟩
  obtain ⟨⟨-, henabled⟩, -⟩ := (step_eq_some_iff P).mp hstep
  have hpopped : (l.onQueue.bind QueueLabel.popped?).toList = l.handed?.toList.map Prod.snd := by
    cases l with
    | read pos out => cases out <;> rfl
    | queue k =>
      cases k with
      | pop t item =>
        cases t with
        | some w => rfl
        | none => exact absurd rfl (hs.disciplined.of_dequeue henabled.2.1)
      | _ => rfl
    | _ => rfl
  rw [popped, filterMap_filterMap_snoc, handed_snoc, List.map_append, ← ht, ← hpopped]
  rfl

/-- The items the reading loop has enqueued, and how far it is. -/
def ReadSoFar (P : PhaseParts n α σ A E) (items : List α) : MasterPc σ → Prop
  | .create _ => items = []
  | .loop pos => ∀ rest, Yields P.read pos rest → Yields P.read P.firstRead (items ++ rest)
  | .join _ | .ended => Yields P.read P.firstRead items

/-- A step gives to `enqueue` what a turn of the reading loop hands out. -/
theorem step_readSoFar {items : List α} (hs : ReadSoFar P items s.master)
    (h : s.step P l = some u) :
    ReadSoFar P (items ++ (l.onQueue.bind QueueLabel.given?).toList) u.master := by
  obtain ⟨⟨-, henabled⟩, rfl⟩ := (step_eq_some_iff P).mp h
  cases l with
  | read pos out =>
    obtain ⟨hmaster, hread, -⟩ := henabled
    rw [hmaster] at hs
    cases out with
    | silent next =>
      intro rest hrest
      rw [List.append_assoc]
      exact hs rest (.silent hread hrest)
    | item value next =>
      intro rest hrest
      rw [List.append_assoc]
      exact hs (value :: rest) (.item hread hrest)
    | stop => exact hs [] (.stop hread)
  | create w =>
    rw [henabled.1] at hs
    exact (List.append_nil _).trans hs
  | openOut =>
    rw [henabled.1] at hs
    intro rest hrest
    rw [show items = [] from hs]
    exact hrest
  | queue k =>
    have hk : k.given? = none := by
      cases k with
      | call => cases henabled.1
      | _ => rfl
    change ReadSoFar P (items ++ k.given?.toList) s.master
    rw [hk]
    exact (List.append_nil _).symm ▸ hs
  | join | closeOut =>
    rw [henabled.1] at hs
    exact (List.append_nil _).symm ▸ hs
  | _ => exact (List.append_nil _).symm ▸ hs

/-- The master enqueues what its reading loop hands out. -/
theorem run_readSoFar (h : run (step P) (start env) ls = some s) :
    ReadSoFar P (given (ls.filterMap PhaseLabel.onQueue)) s.master := by
  have hstart : ReadSoFar P [] (start env : PhaseState n α σ E).master := rfl
  refine run_history (I := fun ls (s : PhaseState n α σ E) =>
    ReadSoFar P (given (ls.filterMap PhaseLabel.onQueue)) s.master) hstart ?_ h
  intro past t l u ht hstep
  rw [given, filterMap_filterMap_snoc]
  exact step_readSoFar ht hstep

/-- The master has joined all workers. -/
def Joined (s : PhaseState n α σ E) : Prop := s.master = .join n ∨ s.master = .ended

/-- When the workers are joined, the reading loop has ended, and what it handed
out has been attempted, each item once and by each worker in this order. -/
theorem run_joined (hn : 0 < n) (henv : ∀ w, P.quiet env w = true)
    (h : run (step P) (start env) ls = some s) (hjoined : s.Joined) :
    Yields P.read P.firstRead ((handed ls).map Prod.snd) ∧
      ∀ w, ofOwner w (attempted ls) = ofOwner w (handed ls) := by
  have hs := run_ordered henv h
  have hfinished : ∀ w, s.worker w = .finished := by
    intro w
    apply hs.joined w
    rcases hjoined with hm | hm <;> rw [hm] <;> exact w.isLt
  have hclosing : s.work.closing = true := by
    rcases hjoined with hm | hm <;> exact congrArg MasterPc.closing hm
  constructor
  · have hempty : s.queue.data = [] :=
      (hs.disciplined.finished ⟨0, hn⟩ (congrArg WorkerPc.isFinished (hfinished _))).2.2
    have hgiven := WorkState.run_given (run_work h).1
    rw [hs.disciplined.enqueuing_of_closing hclosing, Option.toList_none, List.append_nil] at hgiven
    have hfifo := QueueState.run_fifo (run_queue h)
    rw [hempty, List.append_nil, run_popped henv h, ← hgiven] at hfifo
    rw [hfifo]
    have hread := run_readSoFar h
    rcases hjoined with hm | hm <;> rw [hm] at hread <;> exact hread
  · intro w
    have hheld : s.held w = [] :=
      held_of_idle (hs.outside w (by rw [hfinished]; nofun)) (by rw [hfinished]; nofun)
    rw [run_held henv h w, hheld, List.append_nil]

end Runs

end PhaseState

end Meguro
