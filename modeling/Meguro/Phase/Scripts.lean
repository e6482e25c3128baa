import Meguro.Phase.Callbacks
import Meguro.Phase.Delivery

/-!
# What the scripts call

A worker's script makes its calls between the attempt of an item and its return.
When the master has joined the workers, every script that started has returned,
so the calls of the phase are those of the attempts that succeeded: each worker
has made them attempt after attempt, and the workers interleave.
-/

namespace Meguro

open Transition Interleaving

variable {n : Nat} {α σ A E : Type*}

/-- The item of an attempt that did not fail. -/
def PhaseLabel.success? : PhaseLabel n α σ A → Option (Fin n × α)
  | .attempt w item true => some (w, item)
  | _ => none

/-- The worker whose script a step starts, ends or makes a call of. -/
def PhaseLabel.scriptOf : PhaseLabel n α σ A → Option (Fin n)
  | .attempt w _ _ | .act w _ | .returned w _ => some w
  | _ => none

/-- The items of the attempts that did not fail, with their workers. -/
def succeeded (ls : List (PhaseLabel n α σ A)) : List (Fin n × α) :=
  ls.filterMap PhaseLabel.success?

/-- The calls the script under way in each worker has made, and the scripts that
have returned: worker, item and calls. -/
structure CallLog (n : Nat) (α A : Type*) where
  current : Fin n → List A
  returned : List (Fin n × α × List A)

namespace CallLog

/-- What a step adds to the log. -/
def record (log : CallLog n α A) : PhaseLabel n α σ A → CallLog n α A
  | .attempt w _ _ => { log with current := Function.update log.current w [] }
  | .act w a => { log with current := Function.update log.current w (log.current w ++ [a]) }
  | .returned w item =>
    ⟨Function.update log.current w [], log.returned ++ [(w, item, log.current w)]⟩
  | _ => log

end CallLog

/-- The log of a run. -/
def callLog (ls : List (PhaseLabel n α σ A)) : CallLog n α A :=
  ls.foldl CallLog.record ⟨fun _ => [], []⟩

theorem callLog_snoc (ls : List (PhaseLabel n α σ A)) (l : PhaseLabel n α σ A) :
    callLog (ls ++ [l]) = (callLog ls).record l := by
  rw [callLog, List.foldl_append]
  rfl

/-- The scripts of the phase behave: what a script has called when it returns
is what it may call on its item. -/
def Follows (script : α → List A → Prop) (ls : List (PhaseLabel n α σ A)) : Prop :=
  ∀ c ∈ (callLog ls).returned, script c.2.1 c.2.2

/-- The calls of the returned scripts, each with its worker. -/
def returnedCalls (cs : List (Fin n × α × List A)) : List (Fin n × A) :=
  cs.flatMap fun c => c.2.2.map (c.1, ·)

/-- The items of the returned scripts, each with its worker. -/
def returnedItems (cs : List (Fin n × α × List A)) : List (Fin n × α) :=
  cs.map fun c => (c.1, c.2.1)

theorem returnedCalls_append (cs ds : List (Fin n × α × List A)) :
    returnedCalls (cs ++ ds) = returnedCalls cs ++ returnedCalls ds :=
  List.flatMap_append

theorem returnedItems_append (cs ds : List (Fin n × α × List A)) :
    returnedItems (cs ++ ds) = returnedItems cs ++ returnedItems ds :=
  List.map_append

/-- The item of the script a worker is inside. -/
def WorkerPc.inside : WorkerPc α → Option α
  | .busy item => some item
  | _ => none

namespace PhaseState

variable {P : PhaseParts n α σ A E} {s u : PhaseState n α σ E} {l : PhaseLabel n α σ A}

/-- What a log says about a worker: the calls in the run are those of the
returned scripts and those of the script under way, and the attempts that
succeeded are the returned items and the one under way. -/
structure Logged (ls : List (PhaseLabel n α σ A)) (s : PhaseState n α σ E) (w : Fin n) :
    Prop where
  calls : ofOwner w (acts ls) =
    ofOwner w (returnedCalls (callLog ls).returned) ++ ((callLog ls).current w).map (w, ·)
  items : ofOwner w (succeeded ls) =
    ofOwner w (returnedItems (callLog ls).returned) ++ ((s.worker w).inside.map (w, ·)).toList
  /-- Outside the scripts nothing is under way. -/
  outside : (s.worker w).inside = none → (callLog ls).current w = []

theorem acts_snoc (ls : List (PhaseLabel n α σ A)) (l : PhaseLabel n α σ A) :
    acts (ls ++ [l]) = acts ls ++ l.act?.toList :=
  filterMap_snoc ..

theorem succeeded_snoc (ls : List (PhaseLabel n α σ A)) (l : PhaseLabel n α σ A) :
    succeeded (ls ++ [l]) = succeeded ls ++ l.success?.toList :=
  filterMap_snoc ..

variable {ls : List (PhaseLabel n α σ A)} {w : Fin n}

/-- Only a worker's own attempts and returns change which script it is inside. -/
theorem inside_effect (hs : s.Ordered P) (h : s.Enabled P l) (hother : l.scriptOf ≠ some w) :
    ((s.effect P l).worker w).inside = (s.worker w).inside := by
  rcases worker_effect hs h w with hsame | ⟨old, new, hold, hnew, hmove⟩
  · rw [hsame]
  rw [hold, hnew]
  cases hmove with
  | attempt | returned => exact absurd rfl hother
  | _ => rfl

/-- A step that is not made for the script of a worker leaves its part of the log alone. -/
theorem Logged.other (hlog : Logged ls s w) (hs : s.Ordered P) (h : s.Enabled P l)
    (hother : l.scriptOf ≠ some w) : Logged (ls ++ [l]) (s.effect P l) w := by
  have hinside := inside_effect hs h hother
  have hcalls : ofOwner w l.act?.toList = [] := by
    cases l with
    | act v a => exact ofOwner_of_ne (fun he => hother (congrArg some he)) a
    | _ => rfl
  have hitems : ofOwner w l.success?.toList = [] := by
    cases l with
    | attempt v item ok =>
      cases ok with
      | false => rfl
      | true => exact ofOwner_of_ne (fun he => hother (congrArg some he)) item
    | _ => rfl
  have hcurrent : (callLog (ls ++ [l])).current w = (callLog ls).current w := by
    rw [callLog_snoc]
    cases l with
    | act | attempt | returned =>
      exact Function.update_of_ne (fun he => hother (congrArg some he.symm)) ..
    | _ => rfl
  obtain ⟨cs, hreturned, hcs⟩ : ∃ cs, (callLog (ls ++ [l])).returned =
      (callLog ls).returned ++ cs ∧ ∀ c ∈ cs, c.1 ≠ w := by
    rw [callLog_snoc]
    cases l with
    | returned v item =>
      refine ⟨[_], rfl, fun c hc => ?_⟩
      rw [List.mem_singleton.mp hc]
      exact fun he => hother (congrArg some he)
    | _ => exact ⟨[], (List.append_nil _).symm, fun c hc => absurd hc List.not_mem_nil⟩
  have hcalls' : ofOwner w (returnedCalls cs) = [] := by
    apply List.filter_eq_nil_iff.mpr
    intro p hp
    obtain ⟨c, hc, hp⟩ := List.mem_flatMap.mp hp
    obtain ⟨a, -, rfl⟩ := List.mem_map.mp hp
    simpa using hcs c hc
  have hitems' : ofOwner w (returnedItems cs) = [] := by
    apply List.filter_eq_nil_iff.mpr
    intro p hp
    obtain ⟨c, hc, rfl⟩ := List.mem_map.mp hp
    simpa using hcs c hc
  refine ⟨?_, ?_, ?_⟩
  · rw [acts_snoc, ofOwner_append, hcalls, List.append_nil, hlog.calls, hcurrent, hreturned,
      returnedCalls_append, ofOwner_append, hcalls', List.append_nil]
  · rw [succeeded_snoc, ofOwner_append, hitems, List.append_nil, hlog.items, hinside, hreturned,
      returnedItems_append, ofOwner_append, hitems', List.append_nil]
  · rw [hinside, hcurrent]
    exact hlog.outside

/-- A call goes to the script its worker is inside. -/
theorem Logged.act {a : A} (hlog : Logged ls s w) (h : s.Enabled P (.act w a)) :
    Logged (ls ++ [.act w a]) (s.effect P (.act w a)) w := by
  have hcurrent : (callLog (ls ++ [.act w a])).current w = (callLog ls).current w ++ [a] := by
    rw [callLog_snoc]
    exact Function.update_self ..
  have hreturned : (callLog (ls ++ [.act w a])).returned = (callLog ls).returned := by
    rw [callLog_snoc]
    rfl
  refine ⟨?_, ?_, fun houtside => ?_⟩
  · rw [acts_snoc, ofOwner_append, hlog.calls, hcurrent, hreturned, List.map_append,
      ← List.append_assoc]
    exact congrArg _ (ofOwner_self w a)
  · rw [succeeded_snoc, hreturned]
    exact (congrArg _ (List.append_nil _)).trans hlog.items
  · have hbusy : (s.worker w).isBusy = true := h.1
    have hnone : (s.worker w).inside = none := houtside
    cases hpc : s.worker w with
    | busy item =>
      rw [hpc] at hnone
      cases hnone
    | _ =>
      rw [hpc] at hbusy
      cases hbusy

/-- An attempt starts with no calls, and its item is under way unless it fails. -/
theorem Logged.attempt {item : α} {ok : Bool} (hlog : Logged ls s w)
    (h : s.Enabled P (.attempt w item ok)) :
    Logged (ls ++ [.attempt w item ok]) (s.effect P (.attempt w item ok)) w := by
  have hgot : s.worker w = .got item := h
  have hinside : (s.worker w).inside = none := by rw [hgot]; rfl
  have hworker : (s.effect P (.attempt w item ok)).worker w = if ok then .busy item else .loop :=
    Function.update_self ..
  have hnone := hlog.outside hinside
  have hcurrent : (callLog (ls ++ [.attempt w item ok])).current w = [] := by
    rw [callLog_snoc]
    exact Function.update_self ..
  have hreturned : (callLog (ls ++ [.attempt w item ok])).returned = (callLog ls).returned := by
    rw [callLog_snoc]
    rfl
  have hacts : acts (ls ++ [.attempt w item ok]) = acts ls := by
    rw [acts_snoc]
    exact List.append_nil _
  refine ⟨?_, ?_, fun _ => hcurrent⟩
  · rw [hacts, hcurrent, hreturned, hlog.calls, hnone]
  · have hitems := hlog.items
    rw [hinside] at hitems
    rw [succeeded_snoc, ofOwner_append, hitems, hreturned, hworker]
    cases ok with
    | false => exact List.append_nil _
    | true => simp [PhaseLabel.success?, WorkerPc.inside, ofOwner_self]

/-- A return hands its calls over to the returned scripts. -/
theorem Logged.returned {item : α} (hlog : Logged ls s w) (h : s.Enabled P (.returned w item)) :
    Logged (ls ++ [.returned w item]) (s.effect P (.returned w item)) w := by
  have hinside : (s.worker w).inside = some item := by rw [h.1]; rfl
  have hworker : (s.effect P (.returned w item)).worker w = .loop := Function.update_self ..
  have hcurrent : (callLog (ls ++ [.returned w item])).current w = [] := by
    rw [callLog_snoc]
    exact Function.update_self ..
  have hreturned : (callLog (ls ++ [.returned w item])).returned =
      (callLog ls).returned ++ [(w, item, (callLog ls).current w)] := by
    rw [callLog_snoc]
    rfl
  have hown : ofOwner w (((callLog ls).current w).map (w, ·)) =
      ((callLog ls).current w).map (w, ·) := by
    apply List.filter_eq_self.mpr
    intro p hp
    obtain ⟨a, -, rfl⟩ := List.mem_map.mp hp
    simp
  have hacts : acts (ls ++ [.returned w item]) = acts ls := by
    rw [acts_snoc]
    exact List.append_nil _
  have hsucceeded : succeeded (ls ++ [.returned w item]) = succeeded ls := by
    rw [succeeded_snoc]
    exact List.append_nil _
  refine ⟨?_, ?_, fun _ => hcurrent⟩
  · rw [hacts, hcurrent, hreturned, returnedCalls_append, ofOwner_append, hlog.calls]
    simp [returnedCalls, hown]
  · have hitems := hlog.items
    rw [hinside] at hitems
    rw [hsucceeded, hitems, hreturned, returnedItems_append, ofOwner_append, hworker]
    simp [returnedItems, WorkerPc.inside, ofOwner_self]

/-- Every step keeps the log of every worker. -/
theorem step_logged (hs : s.Ordered P) (h : s.Enabled P l) (hlog : Logged ls s w) :
    Logged (ls ++ [l]) (s.effect P l) w := by
  by_cases hother : l.scriptOf = some w
  · cases l with
    | act v a =>
      cases hother
      exact hlog.act h
    | attempt v item ok =>
      cases hother
      exact hlog.attempt h
    | returned v item =>
      cases hother
      exact hlog.returned h
    | _ => cases hother
  · exact hlog.other hs h hother

/-- The attempts that succeed are attempts. -/
theorem succeeded_sublist (ls : List (PhaseLabel n α σ A)) :
    (succeeded ls).Sublist (attempted ls) := by
  induction ls with
  | nil => exact .slnil
  | cons l ls ih =>
    cases l with
    | attempt w item ok =>
      cases ok with
      | false => exact ih.cons _
      | true => exact ih.cons_cons _
    | _ => exact ih

/-- Where no attempt fails, the attempts that succeed are all. -/
theorem succeeded_eq_attempted (h : ∀ w item, .attempt w item false ∉ ls) :
    succeeded ls = attempted ls := by
  apply List.filterMap_congr
  intro l hl
  cases l with
  | attempt w item ok =>
    cases ok with
    | false => exact absurd hl (h w item)
    | true => rfl
  | _ => rfl

/-! ## Runs -/

variable [DecidableEq α] [DecidableEq σ] {env : E}

/-- In every run the log accounts for the calls and the attempts of every worker. -/
theorem run_logged (henv : ∀ w, P.quiet env w = true)
    (h : run (step P) (start env) ls = some s) (w : Fin n) : Logged ls s w := by
  have hstart : Logged ([] : List (PhaseLabel n α σ A)) (start env : PhaseState n α σ E) w :=
    ⟨rfl, rfl, fun _ => rfl⟩
  refine (run_history (I := fun ls s => s.Ordered P ∧ Logged ls s w)
    ⟨ordered_start henv, hstart⟩ ?_ h).2
  rintro past t l u ⟨hs, ht⟩ hstep
  refine ⟨step_ordered hs hstep, ?_⟩
  obtain ⟨⟨-, henabled⟩, rfl⟩ := (step_eq_some_iff P).mp hstep
  exact step_logged hs henabled ht

/-- When the workers are joined, every script that started has returned: the
calls are those of the returned scripts and their items those of the attempts
that succeeded, in the order of each worker. -/
theorem joined_logged (henv : ∀ w, P.quiet env w = true)
    (h : run (step P) (start env) ls = some s) (hjoined : s.Joined) (w : Fin n) :
    ofOwner w (acts ls) = ofOwner w (returnedCalls (callLog ls).returned) ∧
      ofOwner w (succeeded ls) = ofOwner w (returnedItems (callLog ls).returned) := by
  have hlog := run_logged henv h w
  have hfinished : s.worker w = .finished := by
    apply (run_ordered henv h).joined w
    rcases hjoined with hm | hm <;> rw [hm] <;> exact w.isLt
  have houtside : (s.worker w).inside = none := by rw [hfinished]; rfl
  have hcalls := hlog.calls
  have hitems := hlog.items
  rw [hlog.outside houtside, List.map_nil, List.append_nil] at hcalls
  rw [houtside, Option.map_none, Option.toList_none, List.append_nil] at hitems
  exact ⟨hcalls, hitems⟩

/-- The calls of a phase, in some order, are those of its returned scripts. -/
theorem acts_perm (henv : ∀ w, P.quiet env w = true)
    (h : run (step P) (start env) ls = some s) (hjoined : s.Joined) :
    ((acts ls).map Prod.snd).Perm ((callLog ls).returned.flatMap fun c => c.2.2) := by
  have hperm := (perm_of_ofOwner_eq fun w => (joined_logged henv h hjoined w).1).map Prod.snd
  have hcalls : (returnedCalls (callLog ls).returned).map Prod.snd =
      (callLog ls).returned.flatMap fun c => c.2.2 := by
    rw [returnedCalls, List.map_flatMap]
    simp [Function.comp_def]
  rwa [hcalls] at hperm

/-- The items of the returned scripts, in some order, are those of the attempts
that succeeded. -/
theorem succeeded_perm (henv : ∀ w, P.quiet env w = true)
    (h : run (step P) (start env) ls = some s) (hjoined : s.Joined) :
    ((succeeded ls).map Prod.snd).Perm ((callLog ls).returned.map fun c => c.2.1) := by
  have hperm := (perm_of_ofOwner_eq fun w => (joined_logged henv h hjoined w).2).map Prod.snd
  have hitems : (returnedItems (callLog ls).returned).map Prod.snd =
      (callLog ls).returned.map fun c => c.2.1 := by
    rw [returnedItems, List.map_map]
    rfl
  rwa [hitems] at hperm

/-- Where scripts compute their calls from their item, the calls of a phase are,
in some order, what they compute from the items of the attempts that succeeded. -/
theorem computed_perm {B : Type*} (henv : ∀ w, P.quiet env w = true)
    (h : run (step P) (start env) ls = some s) (hjoined : s.Joined) {read : A → Option B}
    {script : α → List B}
    (hscript : Follows (fun item calls => calls.filterMap read = script item) ls) :
    (((acts ls).map Prod.snd).filterMap read).Perm
      (((succeeded ls).map Prod.snd).flatMap script) := by
  have hcalls := (acts_perm henv h hjoined).filterMap read
  have hitems := (succeeded_perm henv h hjoined).flatMap_right script
  have hsame : ((callLog ls).returned.flatMap fun c => c.2.2).filterMap read =
      ((callLog ls).returned.map fun c => c.2.1).flatMap script := by
    rw [List.filterMap_flatMap, List.flatMap_map]
    exact List.flatMap_congr fun c hc => hscript c hc
  rw [hsame] at hcalls
  exact hcalls.trans hitems.symm

/-- An attempt that fails where nothing catches it ends the process, so in a
phase whose workers are joined there is none. -/
theorem succeeds_of_joined (hcatches : P.catches = false)
    (h : run (step P) (start env) ls = some s) (henv : ∀ w, P.quiet env w = true)
    (hjoined : s.Joined) (w : Fin n) (item : α) : .attempt w item false ∉ ls := by
  intro hmem
  obtain ⟨past, future, rfl⟩ := List.append_of_mem hmem
  obtain ⟨t, u, -, hstep, hfuture⟩ := run_split h
  obtain ⟨-, hu⟩ := (step_eq_some_iff P).mp hstep
  have hterminated : u.terminated = true := by
    rw [← hu]
    change (!false && !P.catches) = true
    rw [hcatches]
    rfl
  cases future with
  | nil =>
    have hsu : u = s := Option.some.inj hfuture
    have hfinished : s.worker w = .finished := by
      apply (run_ordered henv h).joined w
      rcases hjoined with hm | hm <;> rw [hm] <;> exact w.isLt
    have hloop : s.worker w = .loop := by
      rw [← hsu, ← hu]
      exact Function.update_self ..
    rw [hloop] at hfinished
    cases hfinished
  | cons l future =>
    obtain ⟨v, hl, -⟩ := run_cons.mp hfuture
    rw [((step_eq_some_iff P).mp hl).1.1] at hterminated
    cases hterminated

/-- The output of a phase whose workers are joined has been opened. -/
theorem openOut_of_joined (h : run (step P) (start env) ls = some s) (hjoined : s.Joined) :
    ∃ e, (P.openOut e).isSome = true := by
  have hmem : .openOut ∈ ls := by
    apply run_openOut h
    intro next hnext
    rcases hjoined with hm | hm <;> rw [hm] at hnext <;> cases hnext
  obtain ⟨past, future, rfl⟩ := List.append_of_mem hmem
  obtain ⟨t, u, -, hstep, -⟩ := run_split h
  exact ⟨t.env, ((step_eq_some_iff P).mp hstep).1.2.2⟩

end PhaseState

end Meguro
