import Meguro.Core.Potential
import Meguro.Phase.Order
import Meguro.Queue.Progress

/-!
# A phase goes on and ends

Until it is over, a living phase has a step other than a spurious wakeup: the
master or a worker can move, or, were they all asleep or through, the queue would
be stuck. And only finitely many such steps fit in a run: the place of every
thread, the items in the queue and the turns left in the reading loop carry a
weight, every step lowers the sum, and a spurious wakeup adds one. The steps of
the callbacks are not weighed: how long a script runs is its own affair.
-/

namespace Meguro

open Transition Generator Potential

variable {n : Nat} {α σ A E : Type*}

namespace PhaseLabel

/-- A spurious wakeup. -/
def isSpurious : PhaseLabel n α σ A → Bool
  | .queue (.spurious _) => true
  | _ => false

/-- A step of the program itself: neither a spurious wakeup nor inside a callback. -/
def isWork : PhaseLabel n α σ A → Bool
  | .queue (.spurious _) | .act .. => false
  | _ => true

theorem isSpurious_of_isWork {l : PhaseLabel n α σ A} (h : l.isWork = true) :
    l.isSpurious = false := by
  cases l with
  | queue k =>
    cases k with
    | spurious => cases h
    | _ => rfl
  | _ => rfl

/-- A step of a run in which the scripts' handles are constructed, the attempts that fail are
those on bad items, and no callback throws an exception that nothing catches. -/
def Follows (P : PhaseParts n α σ A E) (bad : α → Bool) : PhaseLabel n α σ A → Prop
  | .started _ ok => ok = true
  | .attempt _ item ok => ok = !bad item
  | .act _ a => P.fatal a = false
  | _ => True

instance (P : PhaseParts n α σ A E) (bad : α → Bool) :
    DecidablePred (Follows P bad : PhaseLabel n α σ A → Prop)
  | .started .. | .attempt .. | .act .. => inferInstanceAs (Decidable (_ = _))
  | .create _ | .openOut | .read .. | .queue _ | .next _ | .returned .. | .join _ | .closeOut =>
    inferInstanceAs (Decidable True)

end PhaseLabel

/-! ## Weights -/

/-- The weight of a thread at a place of the queue; a broadcast pays for the sleepers it
wakes, a push for the item it leaves. -/
def QueuePc.weight (n : Nat) : QueuePc α → Nat
  | .waitEmpty => 0
  | .dequeue => 1
  | .idle => 2
  | .signalEmpty => n + 4
  | .done _ => n + 5
  | .signalFull _ => n + 6
  | .waitFull _ => 2 * n + 10
  | .enqueue _ => 2 * n + 11

/-- The weight of a worker. -/
def WorkerPc.weight : WorkerPc α → Nat
  | .finished => 0
  | .loop => 2
  | .starting | .busy _ => 3
  | .absent | .got _ => 4

/-- The weight of the master: its joins, or the turns left in its loop. -/
noncomputable def PhaseParts.masterWeight (P : PhaseParts n α σ A E) : MasterPc σ → Nat
  | .create _ => (2 * n + 10) * stepsLeft P.read P.firstRead + 1
  | .loop pos => (2 * n + 10) * stepsLeft P.read pos
  | .join next => n - next + 1
  | .ended => 0

/-- What a step of the queue takes off its load, and what it adds: the exception of `dequeue` is
paid for by the end of its worker's loop, a value by the broadcast in front of it. -/
def QueueLabel.paid {τ : Type*} : QueueLabel τ α → Nat
  | .broadcastFull .. => 3
  | .throwEmpty _ | .spurious _ => 0
  | _ => 1

def QueueLabel.owed {τ : Type*} : QueueLabel τ α → Nat
  | .throwEmpty _ | .spurious _ => 1
  | _ => 0

/-- What a broadcast adds to each sleeper it wakes. -/
def QueueLabel.gain {τ : Type*} : QueueLabel τ α → Nat
  | .broadcastEmpty _ | .broadcastFull .. => 1
  | _ => 0

theorem QueueLabel.weight_wake {τ : Type*} (n : Nat) (l : QueueLabel τ α) (pc : QueuePc α) :
    (l.wake pc).weight n ≤ pc.weight n + l.gain := by
  cases pc with
  | waitFull | waitEmpty => cases l <;> simp [wake, gain, QueuePc.wakeEmpty, QueuePc.wakeFull,
      QueuePc.weight]
  | _ => rw [wake_of_awake l rfl]; exact Nat.le_add_right ..

/-- A spurious wakeup adds one. -/
theorem QueuePc.weight_woken (n : Nat) (pc : QueuePc α) : pc.woken.weight n ≤ pc.weight n + 1 := by
  cases pc <;> simp [woken, wakeEmpty, wakeFull, weight]

namespace PhaseState

variable (P : PhaseParts n α σ A E) {s u : PhaseState n α σ E} {l : PhaseLabel n α σ A}

/-- The weight of the threads in the queue. -/
def threadsWeight (q : QueueState (Thread n) α) : Nat := ∑ t, (q.pc t).weight n

/-- The weight of the threads in the queue and of its items. -/
def load (q : QueueState (Thread n) α) : Nat := threadsWeight q + (n + 6) * q.data.length

/-- The weight of all workers. -/
def workersWeight (worker : Fin n → WorkerPc α) : Nat := ∑ w, (worker w).weight

/-- The potential of a phase. -/
noncomputable def potential (s : PhaseState n α σ E) : Nat :=
  P.masterWeight s.master + load s.queue + workersWeight s.worker

/-- A step in the queue changes the weight of its thread, and a broadcast that of the sleepers. -/
theorem threadsWeight_effect (q : QueueState (Thread n) α) (k : QueueLabel (Thread n) α) :
    threadsWeight (q.effect k) + (q.pc k.thread).weight n ≤
      threadsWeight q + (k.arrive (q.pc k.thread)).weight n + n * k.gain := by
  have hmove := sum_move (f := fun t => (q.pc t).weight n)
    (g := fun t => ((q.effect k).pc t).weight n) k.thread k.gain fun t ht => by
      rw [QueueState.effect_pc, if_neg ht]
      exact k.weight_wake n (q.pc t)
  rw [QueueState.effect_pc, if_pos rfl] at hmove
  rwa [Fintype.card_option, Fintype.card_fin, Nat.add_sub_cancel] at hmove

/-- A step inside the queue pays for itself. -/
theorem load_effect {capacity : Nat} {q : QueueState (Thread n) α} {k : QueueLabel (Thread n) α}
    (h : q.Enabled capacity k) (hcall : k.isCall = false) :
    load (q.effect k) + k.paid ≤ load q + k.owed := by
  have hmove := threadsWeight_effect q k
  have hleaves := h.leaves
  have hsame : (q.effect k).data = q.data →
      threadsWeight (q.effect k) + k.paid ≤ threadsWeight q + k.owed →
      load (q.effect k) + k.paid ≤ load q + k.owed := by
    intro hdata hsum
    rw [load, load, hdata]
    omega
  cases k with
  | call => cases hcall
  | push t value =>
    have hdata : (q.effect (.push t value)).data.length = q.data.length + 1 :=
      List.length_append
    rw [hleaves] at hmove
    simp only [QueuePc.weight, QueueLabel.arrive, QueueLabel.gain] at hmove
    simp only [load, hdata, Nat.mul_succ, QueueLabel.paid, QueueLabel.owed]
    omega
  | pop t value =>
    have hdata : q.data.length = (q.effect (.pop t value)).data.length + 1 := by
      obtain ⟨rest, hrest⟩ := List.head?_eq_some_iff.mp h.2
      change _ = q.data.tail.length + 1
      rw [hrest]
      rfl
    rw [hleaves] at hmove
    simp only [QueuePc.weight, QueueLabel.arrive, QueueLabel.gain] at hmove
    simp only [load, hdata, Nat.mul_succ, QueueLabel.paid, QueueLabel.owed]
    omega
  | spurious t =>
    apply hsame rfl
    have hwoken := QueuePc.weight_woken n (q.pc t)
    simp only [QueueLabel.thread, QueueLabel.arrive, QueueLabel.gain] at hmove
    simp only [QueueLabel.paid, QueueLabel.owed]
    omega
  | _ =>
    apply hsame rfl
    rw [hleaves] at hmove
    simp only [QueuePc.weight, QueueLabel.arrive, QueueLabel.gain] at hmove
    simp only [QueueLabel.paid, QueueLabel.owed]
    omega

/-- A worker that moves changes its own weight. -/
theorem workersWeight_update (worker : Fin n → WorkerPc α) (w : Fin n) (pc : WorkerPc α) :
    workersWeight (Function.update worker w pc) + (worker w).weight ≤
      workersWeight worker + pc.weight := by
  have hmove := sum_move (f := fun v => (worker v).weight)
    (g := fun v => (Function.update worker w pc v).weight) w 0 fun v hv => by
      rw [Function.update_of_ne hv]
      exact Nat.le_refl _
  rwa [Function.update_self, Nat.mul_zero, Nat.add_zero] at hmove

/-! ## Where the master and the workers are -/

/-- What holds of a phase whose reading loop ends, beyond its order. -/
structure Steady (s : PhaseState n α σ E) : Prop where
  ordered : s.Ordered P
  wakeup : s.queue.NoLostWakeup P.capacity
  /-- What is left of the reading loop ends. -/
  reading : ∀ pos, s.master = .loop pos → ∃ rest, Yields P.read pos rest
  /-- The master creates the workers from the first to the last. -/
  absent : ∀ w, s.worker w = .absent ↔ ∃ next, s.master = .create next ∧ next ≤ w.val
  creates : ∀ next, s.master = .create next → next ≤ n
  joins : ∀ next, s.master = .join next → next ≤ n

variable {P}

theorem steady_start {env : E} (henv : ∀ w, P.quiet env w = true) :
    Steady P (start env : PhaseState n α σ E) where
  ordered := ordered_start henv
  wakeup := QueueState.noLostWakeup_start
  reading _ h := nomatch h
  absent w := ⟨fun _ => ⟨0, rfl, Nat.zero_le _⟩, fun _ => rfl⟩
  creates next h := by
    cases h
    exact Nat.zero_le n
  joins _ h := nomatch h

/-- Only its creation makes a worker present. -/
theorem effect_absent (hs : s.Ordered P) (h : s.Enabled P l) {w : Fin n} (hl : l ≠ .create w) :
    (s.effect P l).worker w = .absent ↔ s.worker w = .absent := by
  rcases worker_effect hs h w with hsame | ⟨old, new, hold, hnew, hmove⟩
  · rw [hsame]
  · rw [hold, hnew]
    cases hmove with
    | create => exact absurd rfl hl
    | attempt item ok => cases ok <;> exact ⟨nofun, nofun⟩
    | _ => exact ⟨nofun, nofun⟩

/-- The master creates its workers in order. -/
theorem Steady.effect_absent (hs : s.Steady P) (h : s.Enabled P l) (w : Fin n) :
    (s.effect P l).worker w = .absent ↔
      ∃ next, (s.effect P l).master = .create next ∧ next ≤ w.val := by
  have hother : l ≠ .create w → ((s.effect P l).worker w = .absent ↔
      ∃ next, s.master = .create next ∧ next ≤ w.val) := fun hl =>
    (PhaseState.effect_absent hs.ordered h hl).trans (hs.absent w)
  cases l with
  | create v =>
    obtain ⟨hmaster, hv⟩ := h
    by_cases hw : w = v
    · subst v
      have hworker : (s.effect P (.create w)).worker w = .starting := Function.update_self ..
      rw [hworker]
      refine ⟨nofun, ?_⟩
      rintro ⟨next, hnext, hle⟩
      cases hnext
      omega
    · rw [hother fun he => hw (by cases he; rfl)]
      constructor
      · rintro ⟨next, hnext, hle⟩
        rw [hmaster] at hnext
        cases hnext
        have hne : v.val ≠ w.val := fun he => hw (Fin.ext he.symm)
        exact ⟨v.val + 1, rfl, by omega⟩
      · rintro ⟨next, hnext, hle⟩
        cases hnext
        exact ⟨v.val, hmaster, by omega⟩
  | openOut =>
    rw [hother nofun, h.1]
    have hlt := w.isLt
    refine ⟨?_, nofun⟩
    rintro ⟨next, hnext, hle⟩
    cases hnext
    omega
  | read pos out =>
    rw [hother nofun, h.1]
    cases out <;> exact ⟨nofun, nofun⟩
  | join | closeOut =>
    rw [hother nofun, h.1]
    exact ⟨nofun, nofun⟩
  | _ => exact hother nofun

/-! ## Some step is possible -/

/-- A creating master creates its next worker or opens the output. -/
theorem Steady.exists_create (hs : s.Steady P) (bad : α → Bool)
    (hopen : ∀ e, (P.openOut e).isSome = true) {next : Nat} (hmaster : s.master = .create next) :
    ∃ l : PhaseLabel n α σ A, l.isWork = true ∧ l.Follows P bad ∧ s.Enabled P l := by
  rcases Nat.lt_or_eq_of_le (hs.creates next hmaster) with hlt | rfl
  · have hw : s.worker ⟨next, hlt⟩ = .absent :=
      (hs.absent _).mpr ⟨next, hmaster, Nat.le_refl next⟩
    exact ⟨.create ⟨next, hlt⟩, rfl, trivial, hmaster, hw⟩
  · exact ⟨.openOut, rfl, trivial, hmaster, hopen s.env⟩

/-- When every thread is through, the master joins its next worker or closes the output. -/
theorem Steady.exists_join (hs : s.Steady P) (bad : α → Bool)
    (hthrough : ∀ t, s.work.Finished t) (hleft : s.master ≠ .ended) :
    ∃ l : PhaseLabel n α σ A, l.isWork = true ∧ l.Follows P bad ∧ s.Enabled P l := by
  obtain ⟨hclosing, hidle⟩ := hthrough none
  change s.master.closing = true at hclosing
  cases hmaster : s.master with
  | create | loop =>
    rw [hmaster] at hclosing
    cases hclosing
  | ended => exact absurd hmaster hleft
  | join next =>
    rcases Nat.lt_or_eq_of_le (hs.joins next hmaster) with hlt | rfl
    · have hw : s.worker ⟨next, hlt⟩ = .finished := by
        have hfinished : (s.worker ⟨next, hlt⟩).isFinished = true := hthrough (some ⟨next, hlt⟩)
        cases hpc : s.worker ⟨next, hlt⟩ with
        | finished => rfl
        | _ =>
          rw [hpc] at hfinished
          cases hfinished
      exact ⟨.join ⟨next, hlt⟩, rfl, trivial, hmaster, hw, hidle⟩
    · exact ⟨.closeOut, rfl, trivial, hmaster, hidle⟩

/-- A worker outside the queue that is not past its loop can move, or is still to be created. -/
theorem Steady.exists_worker (hs : s.Steady P) (bad : α → Bool)
    (hopen : ∀ e, (P.openOut e).isSome = true) (hquiet : ∀ e w, P.quiet e w = true) {w : Fin n}
    (hidle : s.queue.pc (some w) = .idle) (hleft : ¬ s.work.Finished (some w)) :
    ∃ l : PhaseLabel n α σ A, l.isWork = true ∧ l.Follows P bad ∧ s.Enabled P l := by
  cases hw : s.worker w with
  | absent =>
    obtain ⟨next, hmaster, -⟩ := (hs.absent w).mp hw
    exact hs.exists_create bad hopen hmaster
  | starting => exact ⟨.started w true, rfl, rfl, hw⟩
  | loop => exact ⟨.next w, rfl, trivial, hw, hidle⟩
  | got item => exact ⟨.attempt w item (!bad item), rfl, rfl, hw⟩
  | busy item => exact ⟨.returned w item, rfl, trivial, hw, hquiet s.env w⟩
  | finished => exact absurd (congrArg WorkerPc.isFinished hw) hleft

/-- Until a phase is over, it can make a step of its own. -/
theorem Steady.exists_work (hs : s.Steady P) (bad : α → Bool) (hcap : 0 < P.capacity)
    (hn : 0 < n) (hopen : ∀ e, (P.openOut e).isSome = true)
    (hquiet : ∀ e w, P.quiet e w = true) (hleft : s.master ≠ .ended) :
    ∃ l : PhaseLabel n α σ A, l.isWork = true ∧ l.Follows P bad ∧ s.Enabled P l := by
  by_cases hstuck : ∀ t, (s.queue.pc t).asleep = false → s.work.Finished t
  · exact hs.exists_join bad
      (hs.ordered.disciplined.finished_of_stuck hs.wakeup hcap hn hstuck) hleft
  · obtain ⟨t, ht⟩ := not_forall.mp hstuck
    obtain ⟨hawake, hthrough⟩ := Classical.not_imp.mp ht
    by_cases hidle : s.queue.pc t = .idle
    · cases t with
      | some w => exact hs.exists_worker bad hopen hquiet hidle hthrough
      | none =>
        cases hmaster : s.master with
        | create next => exact hs.exists_create bad hopen hmaster
        | loop pos => exact ⟨.read pos (P.read pos), rfl, trivial, hmaster, rfl, hidle⟩
        | join | ended => exact absurd ⟨congrArg MasterPc.closing hmaster, hidle⟩ hthrough
    · obtain ⟨k, hk, hcall, hspurious⟩ := WorkState.exists_enabled_of_awake hawake hidle
      refine ⟨.queue k, ?_, trivial, hcall, hk⟩
      cases k with
      | spurious v => exact absurd rfl (hspurious v)
      | _ => rfl

/-! ## A step lowers the potential -/

/-- A worker that moves to a lower place lowers the potential. -/
theorem potential_goto {w : Fin n} {old : WorkerPc α} (hw : s.worker w = old) (new : WorkerPc α)
    (hlt : new.weight < old.weight) : potential P (s.goto w new) < potential P s := by
  have hmove := workersWeight_update s.worker w new
  rw [hw] at hmove
  change P.masterWeight s.master + load s.queue +
    workersWeight (Function.update s.worker w new) < potential P s
  rw [potential]
  omega

/-- A thread outside the queue that makes a call takes the weight of its lock on. -/
theorem load_call {q : QueueState (Thread n) α} {t : Thread n} (hidle : q.pc t = .idle)
    (op : QueueCall α) :
    load (q.effect (.call t op)) + 2 ≤ load q + (QueuePc.ofCall op).weight n := by
  have hmove := threadsWeight_effect q (.call t op)
  rw [show (QueueLabel.call t op).thread = t from rfl, hidle] at hmove
  change threadsWeight (q.effect (.call t op)) + 2 ≤
    threadsWeight q + (QueuePc.ofCall op).weight n + n * 0 at hmove
  change threadsWeight (q.effect (.call t op)) + (n + 6) * q.data.length + 2 ≤
    threadsWeight q + (n + 6) * q.data.length + (QueuePc.ofCall op).weight n
  omega

/-- A turn of the reading loop lowers the potential. -/
theorem Steady.potential_read (hs : s.Steady P) {pos : σ} {out : Produce σ α}
    (h : s.Enabled P (.read pos out)) :
    potential P (s.effect P (.read pos out)) < potential P s := by
  obtain ⟨hmaster, hread, hidle⟩ := h
  obtain ⟨rest, hrest⟩ := hs.reading pos hmaster
  have hbefore : P.masterWeight s.master = (2 * n + 10) * stepsLeft P.read pos :=
    congrArg P.masterWeight hmaster
  cases out with
  | silent next =>
    have hleft := hrest.stepsLeft_eq (.inl hread)
    rw [hleft, Nat.mul_succ] at hbefore
    change (2 * n + 10) * stepsLeft P.read next + load s.queue + workersWeight s.worker <
      potential P s
    rw [potential]
    omega
  | item value next =>
    have hleft := hrest.stepsLeft_eq (.inr ⟨value, hread⟩)
    have hcall := load_call hidle (.enqueue value)
    rw [hleft, Nat.mul_succ] at hbefore
    change _ ≤ load s.queue + (2 * n + 11) at hcall
    change (2 * n + 10) * stepsLeft P.read next +
      load (s.queue.effect (.call none (.enqueue value))) + workersWeight s.worker < potential P s
    rw [potential]
    omega
  | stop =>
    have hleft : (2 * n + 10) * 1 ≤ (2 * n + 10) * stepsLeft P.read pos :=
      Nat.mul_le_mul_left _ hrest.stepsLeft_pos
    have hcall := load_call hidle (.done true)
    change _ ≤ load s.queue + (n + 5) at hcall
    change (n - 0 + 1) + load (s.queue.effect (.call none (.done true))) +
      workersWeight s.worker < potential P s
    rw [potential]
    omega

/-- What leaving the queue does to the workers' weight. -/
theorem Steady.workersWeight_leaveQueue (hs : s.Steady P) {k : QueueLabel (Thread n) α}
    (h : s.queue.Enabled P.capacity k) (hcall : k.isCall = false) :
    workersWeight (leaveQueue s.worker k) + k.owed +
        (PhaseLabel.isWork (.queue k : PhaseLabel n α σ A)).toNat ≤
      workersWeight s.worker + k.paid +
        (PhaseLabel.isSpurious (.queue k : PhaseLabel n α σ A)).toNat := by
  have hloop {w : Fin n} (hw : s.queue.pc (some w) ≠ .idle) : (s.worker w).weight = 2 := by
    rw [hs.ordered.loop_of_ne_idle hw]
    rfl
  cases k with
  | call => cases hcall
  | throwEmpty t =>
    cases t with
    | none => exact absurd rfl (hs.ordered.disciplined.of_dequeue h.1)
    | some w =>
      have hw := hloop (by rw [h.1]; nofun)
      have hworkers := workersWeight_update s.worker w .finished
      rw [hw] at hworkers
      exact hworkers
  | broadcastFull t item =>
    cases t with
    | none =>
      change workersWeight s.worker + 0 + 1 ≤ workersWeight s.worker + 3 + 0
      omega
    | some w =>
      have hpc : s.queue.pc (some w) = .signalFull item := h
      have hw := hloop (by rw [hpc]; nofun)
      have hworkers := workersWeight_update s.worker w (.got item)
      rw [hw] at hworkers
      change workersWeight (Function.update s.worker w (.got item)) + 0 + 1 ≤
        workersWeight s.worker + 3 + 0
      change _ ≤ workersWeight s.worker + 4 at hworkers
      omega
  | _ => exact Nat.le_refl _

section Steps

variable [DecidableEq α] [DecidableEq σ]

/-- A step keeps a phase steady. -/
theorem step_steady (hfirst : ∃ items, Yields P.read P.firstRead items) (hs : s.Steady P)
    (h : s.step P l = some u) : u.Steady P := by
  have hordered := step_ordered hs.ordered h
  obtain ⟨⟨-, henabled⟩, rfl⟩ := (step_eq_some_iff P).mp h
  refine ⟨hordered, ?_, ?_, hs.effect_absent henabled, ?_, ?_⟩
  · rw [effect_queue]
    cases hk : l.onQueue with
    | none => exact hs.wakeup
    | some k =>
      exact QueueState.step_noLostWakeup hs.wakeup
        (QueueState.step_eq_some_iff.mpr ⟨enabled_onQueue henabled hk, rfl⟩)
  · intro pos hpos
    cases l with
    | create | join | closeOut => cases hpos
    | openOut =>
      cases hpos
      exact hfirst
    | read pos' out =>
      obtain ⟨hmaster, hread, -⟩ := henabled
      obtain ⟨rest, hrest⟩ := hs.reading pos' hmaster
      cases out with
      | silent next =>
        cases hpos
        exact ⟨rest, hrest.of_silent hread⟩
      | item value next =>
        cases hpos
        obtain ⟨rest, -, hrest⟩ := hrest.of_item hread
        exact ⟨rest, hrest⟩
      | stop => cases hpos
    | _ => exact hs.reading pos hpos
  · intro next hnext
    cases l with
    | create w =>
      cases hnext
      exact w.isLt
    | read pos out => cases out <;> cases hnext
    | openOut | join | closeOut => cases hnext
    | _ => exact hs.creates next hnext
  · intro next hnext
    cases l with
    | join w =>
      cases hnext
      exact w.isLt
    | read pos out =>
      cases out <;> cases hnext
      exact Nat.zero_le n
    | create | openOut | closeOut => cases hnext
    | _ => exact hs.joins next hnext

/-- A step of the program lowers the potential, and a spurious wakeup raises it by one. -/
theorem step_potential (hs : s.Steady P) (h : s.step P l = some u) :
    potential P u + l.isWork.toNat ≤ potential P s + l.isSpurious.toNat := by
  obtain ⟨⟨-, henabled⟩, rfl⟩ := (step_eq_some_iff P).mp h
  cases l with
  | queue k =>
    have hload := load_effect henabled.2 henabled.1
    have hworkers := hs.workersWeight_leaveQueue henabled.2 henabled.1
    change P.masterWeight s.master + load (s.queue.effect k) +
      workersWeight (leaveQueue s.worker k) + _ ≤
      P.masterWeight s.master + load s.queue + workersWeight s.worker + _
    omega
  | create w =>
    obtain ⟨hmaster, hw⟩ := henabled
    have hworker : potential P (s.goto w .starting) < potential P s :=
      potential_goto hw .starting (Nat.lt_add_one 3)
    have hsame : P.masterWeight (.create (w.val + 1)) = P.masterWeight s.master := by
      rw [hmaster]
      rfl
    change P.masterWeight (.create (w.val + 1)) + _ + _ < _
    rw [hsame]
    exact hworker
  | started w ok => exact potential_goto henabled .loop (Nat.lt_add_one 2)
  | openOut =>
    have hmaster : P.masterWeight s.master = (2 * n + 10) * stepsLeft P.read P.firstRead + 1 :=
      congrArg P.masterWeight henabled.1
    change (2 * n + 10) * stepsLeft P.read P.firstRead + load s.queue +
      workersWeight s.worker < potential P s
    rw [potential]
    omega
  | read pos out => exact hs.potential_read henabled
  | next w =>
    have hcall : load (s.queue.effect (.call (some w) .dequeue)) + 2 ≤ load s.queue + 1 :=
      load_call henabled.2 .dequeue
    change P.masterWeight s.master + load (s.queue.effect (.call (some w) .dequeue)) +
      workersWeight s.worker < potential P s
    rw [potential]
    omega
  | attempt w item ok =>
    apply potential_goto henabled
    cases ok
    · exact Nat.lt_add_of_pos_right Nat.two_pos
    · exact Nat.lt_add_one 3
  | act w a => exact Nat.le_refl _
  | returned w item => exact potential_goto henabled.1 .loop (Nat.lt_add_one 2)
  | join w =>
    have hmaster : P.masterWeight s.master = n - w.val + 1 := congrArg P.masterWeight henabled.1
    have hlt := w.isLt
    change (n - (w.val + 1) + 1) + load s.queue + workersWeight s.worker < potential P s
    rw [potential]
    omega
  | closeOut =>
    have hmaster : P.masterWeight s.master = n - n + 1 := congrArg P.masterWeight henabled.1
    change 0 + load s.queue + workersWeight s.worker < potential P s
    rw [potential]
    omega

end Steps

end PhaseState

end Meguro
