import Meguro.Phase.Callbacks
import Meguro.Program
import Meguro.Reducer.Direct

/-!
# Map and reduce together

Put together, the two phases compute what a map-reduce run is for. The emits of
the map scripts are a complete run on a new map and an empty output, the reduce
master reads the map and the output after the last of them, and its workers
attempt each of its pairs once: every emitted key is reduced once, with the
values the emits left under its shadow keys.
-/

namespace Meguro

open Transition Interleaving MapperState

variable {n : Nat}

/-! ## The emits of the map phase -/

/-- The calls the map scripts make, step by step. -/
def mapCalls (ls : List (ProgramLabel n)) : List (MapperLabel (Fin n)) :=
  (acts (ls.filterMap ProgramLabel.onMap)).map Prod.snd

/-- The attempts of the reduce workers. -/
def reduceAttempts (ls : List (ProgramLabel n)) : List (Fin n × KeyValueListPair CString) :=
  attempted (ls.filterMap ProgramLabel.onReduce)

/-- A script's calls are made in its own thread. -/
theorem run_step_of_run_act {incremental : Bool} {file : Option (Records CString)}
    {keyPattern : Option CString} {paths : List InputPath} {s t : MapperState (Fin n)}
    {calls : List (Fin n × MapperLabel (Fin n))}
    (h : run (mapParts n incremental file keyPattern paths).actStep s calls = some t) :
    run MapperState.step s (calls.map Prod.snd) = some t := by
  have hsim : Simulates (mapParts n incremental file keyPattern paths).actStep MapperState.step
      (fun call => some call.2) Eq := by
    rintro s ⟨w, a⟩ u _ rfl hstep
    exact ⟨u, (Option.ite_none_right_eq_some.mp hstep).2, rfl⟩
  obtain ⟨_, ht, rfl⟩ := hsim.run rfl h
  rwa [List.filterMap_eq_map'] at ht

variable {env : MeguroEnvironment} {s : ProgramState n} {ls : List (ProgramLabel n)}

/-- When a truncating map phase has ended, its emits and sets are a complete run
from a new map and an empty output. -/
theorem run_mapCalls (hmap : env.incrementalMap = false)
    (h : run (ProgramState.step env) ProgramState.start ls = some s)
    (hended : s.map.master = .ended) :
    ∃ t, run MapperState.step MapperState.start (mapCalls ls) = some t ∧ t.AllDone ∧
      s.map.env.shadowKeyMap = t.shadowKeyMap ∧ s.map.env.mapOut.records = t.mapOut.records := by
  have hopened : (env.mapParts n).openOut MapperState.unopened = some MapperState.start := by
    change (tchdbopen env.mapOutFile (openMode env.incrementalMap)).map _ = _
    rw [hmap]
    rfl
  have hordered := ProgramState.run_map_ordered h
  obtain ⟨t, ht, htracks⟩ := PhaseState.run_acts (fun _ => rfl) hopened (ProgramState.run_map h)
  unfold PhaseState.Tracks at htracks
  rw [hended] at htracks
  have henv : s.map.env = { t with mapOut := { t.mapOut with status := .closed } } := htracks
  refine ⟨t, run_step_of_run_act ht, fun w => ?_, by rw [henv], by rw [henv]⟩
  have hquiet := hordered.quiet w (by rw [hordered.finished_of_ended hended w]; rfl)
  rw [henv] at hquiet
  exact Option.isNone_iff_eq_none.mp hquiet

/-! ## The pairs of the reduce phase -/

variable {r : PhaseState n (KeyValueListPair CString) (BeginState CString) (Hdb CString)}

/-- When the reduce workers are joined, the pairs of `Reducer::begin` have been
attempted, each once and by each worker in this order. -/
theorem reduced_once (hn : 0 < n)
    (h : run (ProgramState.step env) ProgramState.start ls = some s)
    (hr : s.reduce = some r) (hjoined : r.Joined) :
    ∃ dealt : List (Fin n × KeyValueListPair CString),
      Enqueues s.map.env.shadowKeyMap s.map.env.mapOut.records env.capAmount
        (dealt.map Prod.snd) ∧
      (reduceAttempts ls).Perm dealt ∧ ∀ w, ofOwner w (reduceAttempts ls) = ofOwner w dealt := by
  obtain ⟨-, hreduce⟩ := ProgramState.run_reduce_some h hr
  obtain ⟨hread, howner⟩ := PhaseState.run_joined hn (fun _ => rfl) hreduce hjoined
  exact ⟨_, hread, perm_of_ofOwner_eq howner, howner⟩

/-- A run whose scripts only emit, on a truncated map output and without a cap,
reduces every emitted key once, with the values left under its shadow keys. -/
theorem mapReduce_delivers (hn : 0 < n) (hmap : env.incrementalMap = false)
    (hcap : env.capAmount = 0) (h : run (ProgramState.step env) ProgramState.start ls = some s)
    (hr : s.reduce = some r) (hjoined : r.Joined) (hemits : SuccessfulEmits (mapCalls ls))
    (hcount : ∀ key, (emittedKeys (mapCalls ls)).count key < 2 ^ 31) :
    ∃ dealt : List (Fin n × KeyValueListPair CString), (reduceAttempts ls).Perm dealt ∧
      dealt.map (·.2.key) = (emittedKeys (mapCalls ls)).eraseDups ∧
      ∀ p ∈ dealt, Delivered (mapCalls ls) p.2 := by
  obtain ⟨dealt, henqueues, hperm, -⟩ := reduced_once hn h hr hjoined
  obtain ⟨hended, -⟩ := ProgramState.run_reduce_some h hr
  obtain ⟨t, ht, hdone, hshadow, hrecords⟩ := run_mapCalls hmap h hended
  rw [hshadow, hrecords, hcap] at henqueues
  obtain ⟨hkeys, hdelivered⟩ := delivered_of_enqueues ht hemits hdone hcount henqueues
  rw [List.map_map] at hkeys
  exact ⟨dealt, hperm, hkeys, fun p hp => hdelivered p.2 (List.mem_map_of_mem hp)⟩

end Meguro
