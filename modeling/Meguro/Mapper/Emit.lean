import Meguro.Core.Interleaving
import Meguro.Core.Occurrence
import Meguro.Core.Transition
import Meguro.ShadowKey.ShadowKeyMap
import Meguro.Store.Hdb
import Mathlib.Data.Fintype.Basic

/-!
# Concurrent emits

`Mapper::emit` runs in two steps that other threads may separate: under the
mutex it increments the count of its key and takes the shadow key, and after the
unlock it puts its value under that shadow key. `Mapper::set` puts under the
plain key. The whole effect of a run is read off its word: the count of a key is
the number of its locked increments, the records are the puts in the order they
landed, and what has landed is what was issued, up to the puts still under way.
-/

namespace Meguro

/-- The state the emitting threads share, and the put each has under way. -/
structure MapperState (τ : Type*) where
  shadowKeyMap : ShadowKeyMap
  mapOut : Hdb CString
  pending : τ → Option (CString × CString)

/-- One atomic step of a thread inside `emit` or `set`, with what it obtains:
the locked section of an emit and the shadow key it is issued, the locked
section of a set, or the put of a record key and whether it succeeded. -/
inductive MapperLabel (τ : Type*)
  | emitLocked (thread : τ) (key value shadowKey : CString)
  | setLocked (thread : τ) (key value : CString)
  | put (thread : τ) (recordKey value : CString) (ok : Bool)
  deriving DecidableEq

/-- The thread that makes the step. -/
def MapperLabel.thread {τ : Type*} : MapperLabel τ → τ
  | .emitLocked thread .. | .setLocked thread .. | .put thread .. => thread

namespace MapperState

variable {τ : Type*} [DecidableEq τ]

/-- A new map and a map output just opened with these records in it. -/
def startOn (records : Records CString) : MapperState τ :=
  ⟨OrderedMap.empty, ⟨.opened, records⟩, fun _ => none⟩

/-- A new map and an open, truncated map output. -/
def start : MapperState τ := startOn ∅

/-- The steps of `Mapper::emit` and `Mapper::set`. A put fails on a handle that
is not open; a failed put throws and leaves the file as it is. -/
def step (s : MapperState τ) : MapperLabel τ → Option (MapperState τ)
  | .emitLocked thread key value shadowKey =>
    let issued := s.shadowKeyMap.incrementAndReturnShadowKey key
    if s.pending thread = none ∧ issued.2 = shadowKey then
      some { s with
        shadowKeyMap := issued.1
        pending := Function.update s.pending thread (some (shadowKey, value)) }
    else none
  | .setLocked thread key value =>
    if s.pending thread = none then
      some { s with pending := Function.update s.pending thread (some (key, value)) }
    else none
  | .put thread recordKey value ok =>
    if s.pending thread = some (recordKey, value) ∧ (ok = true → s.mapOut.status = .opened) then
      some { s with
        mapOut := if ok then s.mapOut.put recordKey value else s.mapOut
        pending := Function.update s.pending thread none }
    else none

/-- No emit or set is between its unlock and its put. -/
def AllDone (s : MapperState τ) : Prop := ∀ thread, s.pending thread = none

instance [Fintype τ] (s : MapperState τ) : Decidable s.AllDone :=
  inferInstanceAs (Decidable (∀ thread, s.pending thread = none))

theorem step_emitLocked {s t : MapperState τ} {thread : τ} {key value shadowKey : CString}
    (h : s.step (.emitLocked thread key value shadowKey) = some t) :
    s.pending thread = none ∧
      shadowKey = (s.shadowKeyMap.increment key).currentShadowKey key ∧
      t = { s with
        shadowKeyMap := s.shadowKeyMap.increment key
        pending := Function.update s.pending thread (some (shadowKey, value)) } := by
  simp only [step, Option.ite_none_right_eq_some, Option.some.injEq] at h
  exact ⟨h.1.1, h.1.2.symm, h.2.symm⟩

theorem step_setLocked {s t : MapperState τ} {thread : τ} {key value : CString}
    (h : s.step (.setLocked thread key value) = some t) :
    s.pending thread = none ∧
      t = { s with pending := Function.update s.pending thread (some (key, value)) } := by
  simp only [step, Option.ite_none_right_eq_some, Option.some.injEq] at h
  exact ⟨h.1, h.2.symm⟩

theorem step_put {s t : MapperState τ} {thread : τ} {recordKey value : CString} {ok : Bool}
    (h : s.step (.put thread recordKey value ok) = some t) :
    s.pending thread = some (recordKey, value) ∧
      t = { s with
        mapOut := if ok then s.mapOut.put recordKey value else s.mapOut
        pending := Function.update s.pending thread none } := by
  simp only [step, Option.ite_none_right_eq_some, Option.some.injEq] at h
  exact ⟨h.1.1, h.2.symm⟩

/-- No step opens or closes the map output. -/
theorem step_status {s t : MapperState τ} {l : MapperLabel τ} (h : s.step l = some t) :
    t.mapOut.status = s.mapOut.status := by
  cases l with
  | emitLocked => rw [(step_emitLocked h).2.2]
  | setLocked => rw [(step_setLocked h).2]
  | put _ _ _ ok => rw [(step_put h).2]; cases ok <;> rfl

/-- A step of one thread leaves the puts of the others alone. -/
theorem step_pending {s t : MapperState τ} {l : MapperLabel τ} (h : s.step l = some t) {v : τ}
    (hv : v ≠ l.thread) : t.pending v = s.pending v := by
  cases l with
  | emitLocked => rw [(step_emitLocked h).2.2]; exact Function.update_of_ne hv ..
  | setLocked => rw [(step_setLocked h).2]; exact Function.update_of_ne hv ..
  | put => rw [(step_put h).2]; exact Function.update_of_ne hv ..

end MapperState

/-! ## What a run has issued and landed -/

/-- An emit: its key, its value and the shadow key it was issued. -/
structure Emit where
  key : CString
  value : CString
  shadowKey : CString
  deriving DecidableEq

namespace MapperLabel

variable {τ : Type*}

/-- The emit whose locked section this label is. -/
def emit? : MapperLabel τ → Option Emit
  | .emitLocked _ key value shadowKey => some ⟨key, value, shadowKey⟩
  | _ => none

/-- The put a locked section leaves to its thread. -/
def request? : MapperLabel τ → Option (τ × CString × CString)
  | .emitLocked thread _ value shadowKey => some (thread, shadowKey, value)
  | .setLocked thread key value => some (thread, key, value)
  | .put .. => none

/-- The put this label makes, successful or not. -/
def attempt? : MapperLabel τ → Option (τ × CString × CString)
  | .put thread recordKey value _ => some (thread, recordKey, value)
  | _ => none

/-- The record this label lands in the file. -/
def land? : MapperLabel τ → Option (CString × CString)
  | .put _ recordKey value true => some (recordKey, value)
  | _ => none

/-- A step of an emit all of whose puts succeed. -/
def OfSuccessfulEmit : MapperLabel τ → Prop
  | .emitLocked .. => True
  | .setLocked .. => False
  | .put _ _ _ ok => ok = true

instance : (l : MapperLabel τ) → Decidable l.OfSuccessfulEmit
  | .emitLocked .. => isTrue trivial
  | .setLocked .. => isFalse not_false
  | .put _ _ _ ok => inferInstanceAs (Decidable (ok = true))

end MapperLabel

section Traces

variable {τ : Type*}

/-- The emits of a run, in the order of their locked increments. -/
def emits (ls : List (MapperLabel τ)) : List Emit := ls.filterMap MapperLabel.emit?

/-- The emitted keys, in the order of their locked increments. -/
def emittedKeys (ls : List (MapperLabel τ)) : List CString := (emits ls).map Emit.key

/-- The puts a run has left to its threads. -/
def requests (ls : List (MapperLabel τ)) : List (τ × CString × CString) :=
  ls.filterMap MapperLabel.request?

/-- The puts a run has made, successful or not. -/
def attempts (ls : List (MapperLabel τ)) : List (τ × CString × CString) :=
  ls.filterMap MapperLabel.attempt?

/-- The records of a run, in the order in which they landed. -/
def landed (ls : List (MapperLabel τ)) : List (CString × CString) :=
  ls.filterMap MapperLabel.land?

/-- The run makes only emits, and every put succeeds. -/
def SuccessfulEmits (ls : List (MapperLabel τ)) : Prop := ∀ l ∈ ls, l.OfSuccessfulEmit

instance (ls : List (MapperLabel τ)) : Decidable (SuccessfulEmits ls) :=
  inferInstanceAs (Decidable (∀ l ∈ ls, l.OfSuccessfulEmit))

@[simp] theorem emits_snoc (ls : List (MapperLabel τ)) (l : MapperLabel τ) :
    emits (ls ++ [l]) = emits ls ++ l.emit?.toList :=
  Transition.filterMap_snoc ..

@[simp] theorem emittedKeys_snoc (ls : List (MapperLabel τ)) (l : MapperLabel τ) :
    emittedKeys (ls ++ [l]) = emittedKeys ls ++ (l.emit?.map Emit.key).toList := by
  cases h : l.emit? <;> simp [emittedKeys, h]

@[simp] theorem requests_snoc (ls : List (MapperLabel τ)) (l : MapperLabel τ) :
    requests (ls ++ [l]) = requests ls ++ l.request?.toList :=
  Transition.filterMap_snoc ..

@[simp] theorem attempts_snoc (ls : List (MapperLabel τ)) (l : MapperLabel τ) :
    attempts (ls ++ [l]) = attempts ls ++ l.attempt?.toList :=
  Transition.filterMap_snoc ..

theorem landed_append (ls ms : List (MapperLabel τ)) :
    landed (ls ++ ms) = landed ls ++ landed ms :=
  List.filterMap_append

@[simp] theorem landed_snoc (ls : List (MapperLabel τ)) (l : MapperLabel τ) :
    landed (ls ++ [l]) = landed ls ++ l.land?.toList :=
  Transition.filterMap_snoc ..

/-- In a run of successful emits every emit leaves one put, of its value under
its shadow key. -/
theorem map_requests {ls : List (MapperLabel τ)} (hs : SuccessfulEmits ls) :
    (requests ls).map Prod.snd = (emits ls).map fun e => (e.shadowKey, e.value) := by
  induction ls with
  | nil => rfl
  | cons l ls ih =>
    have hrest := ih fun m hm => hs m (List.mem_cons_of_mem _ hm)
    have hl := hs l (by simp)
    cases l with
    | emitLocked _ _ value shadowKey => exact congrArg ((shadowKey, value) :: ·) hrest
    | setLocked => exact False.elim hl
    | put => exact hrest

/-- In a run of successful emits every put lands. -/
theorem map_attempts {ls : List (MapperLabel τ)} (hs : SuccessfulEmits ls) :
    (attempts ls).map Prod.snd = landed ls := by
  induction ls with
  | nil => rfl
  | cons l ls ih =>
    have hrest := ih fun m hm => hs m (List.mem_cons_of_mem _ hm)
    have hl := hs l (by simp)
    cases l with
    | emitLocked => exact hrest
    | setLocked => exact False.elim hl
    | put thread recordKey value ok =>
      obtain rfl : ok = true := hl
      exact congrArg ((recordKey, value) :: ·) hrest

/-- A put that landed was made. -/
theorem exists_attempt_of_landed {ls : List (MapperLabel τ)} {w : CString × CString}
    (hw : w ∈ landed ls) : ∃ thread, (thread, w) ∈ attempts ls := by
  obtain ⟨l, hl, hland⟩ := List.mem_filterMap.mp hw
  cases l with
  | emitLocked | setLocked => cases hland
  | put thread recordKey value ok =>
    cases ok with
    | false => cases hland
    | true =>
      refine ⟨thread, List.mem_filterMap.mpr ⟨_, hl, ?_⟩⟩
      exact congrArg (fun x => some (thread, x)) (Option.some.inj hland)

/-- The step is no put that fails. -/
def MapperLabel.Lands : MapperLabel τ → Prop
  | .emitLocked .. | .setLocked .. => True
  | .put _ _ _ ok => ok = true

instance : DecidablePred (MapperLabel.Lands : MapperLabel τ → Prop)
  | .emitLocked .. | .setLocked .. => inferInstanceAs (Decidable True)
  | .put _ _ _ ok => inferInstanceAs (Decidable (ok = true))

end Traces

section Runs

open Transition Occurrence LastWrite Interleaving MapperState

variable {τ : Type*} [DecidableEq τ] {records : Records CString} {s : MapperState τ}
  {ls : List (MapperLabel τ)}

/-- The map has been incremented once for each emit. -/
theorem run_shadowKeyMap (h : run step (startOn records) ls = some s) :
    s.shadowKeyMap = incrementAll (emittedKeys ls) := by
  refine run_history (I := fun ls s => s.shadowKeyMap = incrementAll (emittedKeys ls)) rfl ?_ h
  intro past t l u ht hstep
  rw [emittedKeys_snoc]
  cases l with
  | emitLocked thread key value shadowKey =>
    rw [(step_emitLocked hstep).2.2]
    exact ht ▸ (incrementAll_snoc _ key).symm
  | setLocked =>
    rw [(step_setLocked hstep).2]
    simpa [MapperLabel.emit?] using ht
  | put =>
    rw [(step_put hstep).2]
    simpa [MapperLabel.emit?] using ht

/-- The `n`-th emit of a key is issued the shadow key with count `n - 1`. -/
theorem run_issued (h : run step (startOn records) ls = some s) :
    (emits ls).map (fun e => (e.key, e.shadowKey)) =
      (ranked (emittedKeys ls)).map fun p => (p.1, generateShadowKey p.1 (UInt32.ofNat p.2)) := by
  induction ls using List.reverseRecOn generalizing s with
  | nil => rfl
  | append_singleton ls l ih =>
    obtain ⟨t, hls, hl⟩ := run_snoc.mp h
    have hpast := ih hls
    cases l with
    | emitLocked thread key value shadowKey =>
      have hkey := (step_emitLocked hl).2.1
      rw [run_shadowKeyMap hls, ← incrementAll_snoc, currentShadowKey_incrementAll] at hkey
      simp [MapperLabel.emit?, ranked_snoc, hpast, hkey]
    | setLocked => simpa [MapperLabel.emit?] using hpast
    | put => simpa [MapperLabel.emit?] using hpast

theorem run_shadowKeys (h : run step (startOn records) ls = some s) :
    (emits ls).map Emit.shadowKey =
      (ranked (emittedKeys ls)).map fun p => generateShadowKey p.1 (UInt32.ofNat p.2) := by
  simpa [Function.comp_def] using congrArg (List.map Prod.snd) (run_issued h)

/-- The file holds what has landed in it, in this order. -/
theorem run_records (h : run step (startOn records) ls = some s) :
    s.mapOut.records = writes records (landed ls) := by
  refine run_history (I := fun ls s => s.mapOut.records = writes records (landed ls)) rfl ?_ h
  intro past t l u ht hstep
  rw [landed_snoc, writes_append, ← ht]
  cases l with
  | emitLocked => rw [(step_emitLocked hstep).2.2]; rfl
  | setLocked => rw [(step_setLocked hstep).2]; rfl
  | put thread recordKey value ok =>
    rw [(step_put hstep).2]
    cases ok <;> rfl

/-- The put a thread has under way, as an entry of its thread. -/
def underWay (s : MapperState τ) (thread : τ) : List (τ × CString × CString) :=
  ((s.pending thread).map (thread, ·)).toList

/-- A put left to a thread is under way until the thread makes it. -/
theorem step_underWay {s t : MapperState τ} {l : MapperLabel τ} (h : s.step l = some t)
    (thread : τ) : underWay s thread ++ ofOwner thread l.request?.toList =
      ofOwner thread l.attempt?.toList ++ underWay t thread := by
  by_cases hthread : thread = l.thread
  · subst thread
    cases l with
    | emitLocked i key value shadowKey =>
      obtain ⟨hidle, -, rfl⟩ := step_emitLocked h
      simp [underWay, MapperLabel.thread, MapperLabel.request?, MapperLabel.attempt?, hidle,
        ofOwner_self]
    | setLocked i key value =>
      obtain ⟨hidle, rfl⟩ := step_setLocked h
      simp [underWay, MapperLabel.thread, MapperLabel.request?, MapperLabel.attempt?, hidle,
        ofOwner_self]
    | put i recordKey value ok =>
      obtain ⟨hbusy, rfl⟩ := step_put h
      simp [underWay, MapperLabel.thread, MapperLabel.request?, MapperLabel.attempt?, hbusy,
        ofOwner_self]
  · have hframe : underWay t thread = underWay s thread := by
      rw [underWay, underWay, step_pending h hthread]
    have hother (x : CString × CString) : ofOwner thread [(l.thread, x)] = [] :=
      ofOwner_of_ne (Ne.symm hthread) x
    rw [hframe]
    cases l with
    | emitLocked | setLocked => exact (congrArg _ (hother _)).trans (List.append_nil _)
    | put => exact (List.append_nil _).trans (congrArg (· ++ _) (hother _)).symm

/-- Each thread has made the puts left to it, in order, up to the one under way. -/
theorem run_requests (h : run step (startOn records) ls = some s) (thread : τ) :
    ofOwner thread (requests ls) = ofOwner thread (attempts ls) ++ underWay s thread := by
  refine run_history (I := fun ls s => ofOwner thread (requests ls) =
    ofOwner thread (attempts ls) ++ underWay s thread) rfl ?_ h
  intro past t l u ht hstep
  rw [requests_snoc, attempts_snoc, ofOwner_append, ofOwner_append, ht, List.append_assoc,
    List.append_assoc, step_underWay hstep]

/-- When no put is under way, the puts made are the puts left, in some order. -/
theorem attempts_perm_requests (h : run step (startOn records) ls = some s) (hdone : s.AllDone) :
    (attempts ls).Perm (requests ls) := by
  apply perm_of_ofOwner_eq
  intro thread
  rw [run_requests h thread, underWay, hdone thread]
  exact (List.append_nil _).symm

/-- After successful emits, what landed is what was issued, in some order. -/
theorem landed_perm (h : run step (startOn records) ls = some s) (hs : SuccessfulEmits ls)
    (hdone : s.AllDone) : (landed ls).Perm ((emits ls).map fun e => (e.shadowKey, e.value)) := by
  rw [← map_attempts hs, ← map_requests hs]
  exact (attempts_perm_requests h hdone).map Prod.snd

end Runs

end Meguro
