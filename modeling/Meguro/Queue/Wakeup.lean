import Meguro.Queue.ThreadSafeQueue

/-!
# No lost wakeup

Both broadcasts are made after the unlock, so a thread may be asleep although its
condition holds already. It is never forgotten: whoever made the condition true
is past its unlock and has the broadcast still to make. This is kept by every
step, for both conditions and any set of threads.
-/

namespace Meguro

open Transition

namespace QueueState

variable {τ α : Type*} [DecidableEq τ] [DecidableEq α] {capacity : Nat} {s u : QueueState τ α}
  {l : QueueLabel τ α}

/-- Whoever could go on is about to be woken by some other thread. -/
structure NoLostWakeup (capacity : Nat) (s : QueueState τ α) : Prop where
  empty : ∀ t, s.pc t = .waitEmpty → s.data ≠ [] ∨ s.done_ = true →
    ∃ other, other ≠ t ∧ s.pc other = .signalEmpty
  full : ∀ t value, s.pc t = .waitFull value → s.data.length < capacity →
    ∃ other popped, other ≠ t ∧ s.pc other = .signalFull popped

omit [DecidableEq τ] [DecidableEq α] in
theorem noLostWakeup_start : NoLostWakeup capacity (start : QueueState τ α) :=
  ⟨fun _ h => (nomatch h), fun _ _ h => (nomatch h)⟩

/-- Only its own broadcast takes a thread past it. -/
theorem step_signalEmpty {t : τ} (h : s.step capacity l = some u) (ht : s.pc t = .signalEmpty) :
    l = .broadcastEmpty t ∨ u.pc t = .signalEmpty := by
  obtain ⟨henabled, rfl⟩ := step_eq_some_iff.mp h
  rw [effect_pc]
  by_cases he : t = l.thread
  · subst t
    have hleaves := henabled.leaves
    rw [ht] at hleaves
    cases l with
    | broadcastEmpty => exact .inl rfl
    | _ => cases hleaves
  · rw [if_neg he, ht]
    cases l <;> exact .inr rfl

theorem step_signalFull {t : τ} {value : α} (h : s.step capacity l = some u)
    (ht : s.pc t = .signalFull value) :
    l = .broadcastFull t value ∨ u.pc t = .signalFull value := by
  obtain ⟨henabled, rfl⟩ := step_eq_some_iff.mp h
  rw [effect_pc]
  by_cases he : t = l.thread
  · subst t
    have hleaves := henabled.leaves
    rw [ht] at hleaves
    cases l with
    | broadcastFull => cases hleaves; exact .inl rfl
    | _ => cases hleaves
  · rw [if_neg he, ht]
    cases l <;> exact .inr rfl

/-- A thread asleep on `cond_empty` was asleep before, or has just found the
queue empty and not done; either way nobody has broadcast. -/
theorem step_waitEmpty {t : τ} (h : s.step capacity l = some u) (hu : u.pc t = .waitEmpty) :
    (∀ other, l ≠ .broadcastEmpty other) ∧
      (s.pc t = .waitEmpty ∨ u.data = [] ∧ u.done_ = false) := by
  obtain ⟨henabled, rfl⟩ := step_eq_some_iff.mp h
  rw [effect_pc] at hu
  by_cases he : t = l.thread
  · subst t
    rw [if_pos rfl] at hu
    cases l with
    | sleepEmpty => exact ⟨fun _ he => (nomatch he), .inr henabled.2⟩
    | call _ op => cases op <;> cases hu
    | spurious => exact absurd hu (QueuePc.woken_ne rfl henabled)
    | _ => cases hu
  · rw [if_neg he] at hu
    have hsame := QueueLabel.eq_of_wake_eq rfl hu
    refine ⟨?_, .inl hsame⟩
    rintro other rfl
    rw [hsame] at hu
    cases hu

theorem step_waitFull {t : τ} {value : α} (h : s.step capacity l = some u)
    (hu : u.pc t = .waitFull value) : (∀ other popped, l ≠ .broadcastFull other popped) ∧
      (s.pc t = .waitFull value ∨ u.data.length = capacity) := by
  obtain ⟨henabled, rfl⟩ := step_eq_some_iff.mp h
  rw [effect_pc] at hu
  by_cases he : t = l.thread
  · subst t
    rw [if_pos rfl] at hu
    cases l with
    | sleepFull => exact ⟨fun _ _ he => (nomatch he), .inr henabled.2.2⟩
    | call _ op => cases op <;> cases hu
    | spurious => exact absurd hu (QueuePc.woken_ne rfl henabled)
    | _ => cases hu
  · rw [if_neg he] at hu
    have hsame := QueueLabel.eq_of_wake_eq rfl hu
    refine ⟨?_, .inl hsame⟩
    rintro other popped rfl
    rw [hsame] at hu
    cases hu

/-- Whoever makes the queue non-empty or done has the broadcast still to make. -/
theorem step_ready (h : s.step capacity l = some u) (hs : ¬ (s.data ≠ [] ∨ s.done_ = true))
    (hu : u.data ≠ [] ∨ u.done_ = true) : u.pc l.thread = .signalEmpty := by
  obtain ⟨henabled, rfl⟩ := step_eq_some_iff.mp h
  rw [effect_pc, if_pos rfl]
  cases l with
  | push | setDone => rfl
  | pop _ value =>
    obtain ⟨rest, hrest⟩ := List.head?_eq_some_iff.mp henabled.2
    exact absurd (.inl (by simp [hrest])) hs
  | _ => exact absurd hu hs

/-- Whoever makes room has the broadcast still to make. -/
theorem step_room (h : s.step capacity l = some u) (hs : ¬ s.data.length < capacity)
    (hu : u.data.length < capacity) : ∃ popped, u.pc l.thread = .signalFull popped := by
  obtain ⟨henabled, rfl⟩ := step_eq_some_iff.mp h
  rw [effect_pc, if_pos rfl]
  cases l with
  | pop _ value => exact ⟨value, rfl⟩
  | push thread value =>
    have hlen : (s.data ++ [value]).length < capacity := hu
    rw [List.length_append] at hlen
    omega
  | _ => exact absurd hu hs

/-- A step loses no wakeup. -/
theorem step_noLostWakeup (hs : s.NoLostWakeup capacity) (h : s.step capacity l = some u) :
    u.NoLostWakeup capacity := by
  refine ⟨fun t ht hready => ?_, fun t value ht hroom => ?_⟩
  · obtain ⟨hquiet, hold | ⟨hempty, hdone⟩⟩ := step_waitEmpty h ht
    · by_cases hbefore : s.data ≠ [] ∨ s.done_ = true
      · obtain ⟨other, hne, hother⟩ := hs.empty t hold hbefore
        exact ⟨other, hne, (step_signalEmpty h hother).resolve_left (hquiet other)⟩
      · have hthread := step_ready h hbefore hready
        refine ⟨l.thread, ?_, hthread⟩
        rintro rfl
        rw [ht] at hthread
        cases hthread
    · rcases hready with hdata | hflag
      · exact absurd hempty hdata
      · rw [hdone] at hflag
        cases hflag
  · obtain ⟨hquiet, hold | hfull⟩ := step_waitFull h ht
    · by_cases hbefore : s.data.length < capacity
      · obtain ⟨other, popped, hne, hother⟩ := hs.full t value hold hbefore
        exact ⟨other, popped, hne, (step_signalFull h hother).resolve_left (hquiet other popped)⟩
      · obtain ⟨popped, hthread⟩ := step_room h hbefore hroom
        refine ⟨l.thread, popped, ?_, hthread⟩
        rintro rfl
        rw [ht] at hthread
        cases hthread
    · omega

/-- In no reachable state has a wakeup been lost. -/
theorem run_noLostWakeup {ls : List (QueueLabel τ α)}
    (h : run (step capacity) start ls = some s) : s.NoLostWakeup capacity :=
  run_invariant step_noLostWakeup noLostWakeup_start h

end QueueState

end Meguro
