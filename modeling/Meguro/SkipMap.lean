import Meguro.Reducer.SkipMap
import Meguro.Sequential

/-!
# One process maps, another one reduces

With `--skip-map` the first input file is the map output of an earlier process,
and `main` rebuilds the shadow key map from it before it calls `reduce_master`.
When no emitted key contains the separator, the two processes together leave
what one process would, whatever order the file lists its records in and
however many workers each process has.
-/

namespace Meguro

open Transition LastWrite Grouping MapperState

/-- What `main` does with `--skip-map` before it calls `reduce_master`: the map, or
the message it exits with. -/
def skipMap (doReduce : Bool) (file : MapFile) : Except String ShadowKeyMap :=
  if doReduce then (load file).mapError fun skme => "Error: " ++ skme.what ++ "\n"
  else .error "You must specify a reduce function in your .js\n"

/-- The parts of the `reduce_master` that follows. -/
def MeguroEnvironment.skipMapParts (env : MeguroEnvironment) (n : Nat) (map : ShadowKeyMap)
    (file : Records CString) :
    PhaseParts n (KeyValueListPair CString) (BeginState CString) ReducerLabel (Hdb CString) :=
  Meguro.reduceParts n env.capAmount env.incrementalReduce env.reduceOutFile map file

theorem skipMap_ok {doReduce : Bool} {order : List CString} {map : ShadowKeyMap}
    (h : skipMap doReduce (.records order) = .ok map) : map = loadKeys order := by
  cases doReduce with
  | false => cases h
  | true =>
    cases h
    rfl

/-- A key that looks like a shadow key contains the separator. -/
theorem noLookalike_of_not_hasSeparator {keys : List CString}
    (h : ∀ key ∈ keys, ¬ HasSeparator key) : NoLookalike keys := by
  intro key hkey root count _ _ hsame
  exact h key hkey ⟨root.bytes, Decimal.decimal count, hsame.symm⟩

/-- Pairs with different keys are different. -/
theorem Enqueues.nodup {V : Type*} {map : ShadowKeyMap} {records : Records V}
    {capAmount : UInt64} {pairs : List (KeyValueListPair V)}
    (h : Enqueues map records capAmount pairs) (hkeys : map.keys.Nodup) : pairs.Nodup := by
  rw [← h.map_key] at hkeys
  exact hkeys.of_map

section TwoProcesses

variable {n n' : Nat} {env env' : MeguroEnvironment} {s : ProgramState n}
  {ls : List (ProgramLabel n)} {order : List CString} {map : ShadowKeyMap}
  {r : PhaseState n' (KeyValueListPair CString) (BeginState CString) (Hdb CString)}
  {ls' : List (PhaseLabel n' (KeyValueListPair CString) (BeginState CString) ReducerLabel)}
  {f : Script}

/-- The pairs of the second process are the groups of the emits of the first one. -/
theorem skipMap_groups (hn' : 0 < n') (hmap : env.incrementalMap = false)
    (hcap : env'.capAmount = 0) (h : run (ProgramState.step env) ProgramState.start ls = some s)
    (hended : s.map.master = .ended) (hemits : SuccessfulEmits (mapCalls ls))
    (hcount : ∀ key, (emittedKeys (mapCalls ls)).count key < 2 ^ 31)
    (hsep : ∀ key ∈ emittedKeys (mapCalls ls), ¬ HasSeparator key)
    (hlists : Lists order s.map.env.mapOut.records)
    (h' : run (PhaseState.step (env'.skipMapParts n' (loadKeys order) s.map.env.mapOut.records))
      (.start ⟨.unopened, ∅⟩) ls' = some r) (hjoined : r.Joined) :
    (((attempted ls').map Prod.snd).map fun pair => (pair.key, pair.valueList)).Perm
      (groups ((emits (mapCalls ls)).map fun e => (e.key, e.value))) := by
  obtain ⟨t, ht, hdone, -, hrecords⟩ := run_mapCalls hmap h hended
  rw [hrecords] at hlists h'
  obtain ⟨loaded, direct, skipped, hload, hdirect, hskipped, hsame⟩ :=
    skipMapAgrees_of_not_hasSeparator ht hemits hdone hcount hsep hlists
  cases hload
  unfold MeguroEnvironment.skipMapParts at h'
  obtain ⟨hread, howner⟩ := PhaseState.run_joined hn' (fun _ => rfl) h' hjoined
  have hperm := (Interleaving.perm_of_ofOwner_eq howner).map Prod.snd
  have hhanded : (handed ls').map Prod.snd = skipped := by
    rw [hcap] at hread
    exact Generator.Yields.unique hread hskipped
  have hkeys : t.shadowKeyMap.keys.Nodup := t.shadowKeyMap.nodup_keys
  have hpairs : skipped.Perm direct :=
    (List.perm_ext_iff_of_nodup (hskipped.nodup (loadKeys order).nodup_keys)
      (hdirect.nodup hkeys)).mpr fun pair => (hsame pair).symm
  rw [hhanded] at hperm
  have hown := ownsShadowKeys_of_noLookalike ht hemits hcount (noLookalike_of_not_hasSeparator hsep)
  rw [← groups_of_owned ht hdone hcount hown hdirect]
  exact (hperm.trans hpairs).map _

/-- The saves of the second process are in some order what the reduce function saves
for the groups of the emits of the first one. -/
theorem skipMap_saved (hn' : 0 < n') (hmap : env.incrementalMap = false)
    (hcap : env'.capAmount = 0) (h : run (ProgramState.step env) ProgramState.start ls = some s)
    (hended : s.map.master = .ended) (hf : f.MapRunBy (ls.filterMap ProgramLabel.onMap))
    (hcount : ∀ key, (((mapped ls).flatMap f.map).map Prod.fst).count key < 2 ^ 31)
    (hsep : ∀ key ∈ ((mapped ls).flatMap f.map).map Prod.fst, ¬ HasSeparator key)
    (hlists : Lists order s.map.env.mapOut.records)
    (h' : run (PhaseState.step (env'.skipMapParts n' (loadKeys order) s.map.env.mapOut.records))
      (.start ⟨.unopened, ∅⟩) ls' = some r) (hjoined : r.Joined) (hf' : f.ReduceRunBy ls') :
    ∃ emitted saved opened, emitted.Perm ((mapped ls).flatMap f.map) ∧
      saved.Perm ((groups emitted).flatMap fun g => f.reduce g.1 g.2) ∧
      tchdbopen env'.reduceOutFile (openMode env'.incrementalReduce) = some opened ∧
      r.env.records = writes opened saved := by
  have hemitted := emitted_perm hf.calls h hended
  have hkeys := emittedKeys_perm hf.calls h hended
  have hcount' : ∀ key, (emittedKeys (mapCalls ls)).count key < 2 ^ 31 := fun key =>
    (hkeys.count_eq key).symm ▸ hcount key
  have hsep' : ∀ key ∈ emittedKeys (mapCalls ls), ¬ HasSeparator key := fun key hkey =>
    hsep key (hkeys.mem_iff.mp hkey)
  have hgroups := skipMap_groups hn' hmap hcap h hended hf.emits hcount' hsep' hlists h' hjoined
  obtain ⟨opened, saved, hopened, hrecords, hsaved⟩ := saved_perm hf' h' hjoined
  refine ⟨_, saved, opened, hemitted, hsaved.trans ?_, hopened, hrecords⟩
  have hreduced := hgroups.flatMap_right fun g => f.reduce g.1 g.2
  rwa [List.flatMap_map] at hreduced

/-- Whatever the schedules, a process that maps and one that reduces its output leave
what one thread would. -/
theorem skipMap_sequential (hn : 0 < n) (hn' : 0 < n') (hmap : env.incrementalMap = false)
    (hcap : env'.capAmount = 0) (h : run (ProgramState.step env) ProgramState.start ls = some s)
    (hended : s.map.master = .ended) (hf : f.MapRunBy (ls.filterMap ProgramLabel.onMap))
    (hcount : ∀ key, (((mapped ls).flatMap f.map).map Prod.fst).count key < 2 ^ 31)
    (hsep : ∀ key ∈ ((mapped ls).flatMap f.map).map Prod.fst, ¬ HasSeparator key)
    (hlists : Lists order s.map.env.mapOut.records)
    (hload : skipMap env'.doReduce (.records order) = .ok map)
    (h' : run (PhaseState.step (env'.skipMapParts n' map s.map.env.mapOut.records))
      (.start ⟨.unopened, ∅⟩) ls' = some r) (hjoined : r.Joined) (hf' : f.ReduceRunBy ls') :
    (mapped ls).Subperm (selectedPairs env.keyPattern env.inputPaths) ∧
      ∃ emitted saved opened, emitted.Perm ((mapped ls).flatMap f.map) ∧
        saved.Perm ((groups emitted).flatMap fun g => f.reduce g.1 g.2) ∧
        tchdbopen env'.reduceOutFile (openMode env'.incrementalReduce) = some opened ∧
        r.env.records = writes opened saved := by
  rw [skipMap_ok hload] at h'
  exact ⟨mapped_subperm hn h hended,
    skipMap_saved hn' hmap hcap h hended hf hcount hsep hlists h' hjoined hf'⟩

/-- Without failed attempts, a reduce function that ignores the order of its values
and saves every key once makes the two processes leave what one process leaves. -/
theorem skipMap_deterministic (hn : 0 < n) (hn' : 0 < n') (hmap : env.incrementalMap = false)
    (hcap : env'.capAmount = 0) (h : run (ProgramState.step env) ProgramState.start ls = some s)
    (hended : s.map.master = .ended) (hf : f.MapRunBy (ls.filterMap ProgramLabel.onMap))
    (hfail : ∀ w pair, .map (.attempt w pair false) ∉ ls) (hblind : OrderBlind f.reduce)
    (hcount : ∀ key, (((selectedPairs env.keyPattern env.inputPaths).flatMap f.map).map
      Prod.fst).count key < 2 ^ 31)
    (hsep : ∀ key ∈ ((selectedPairs env.keyPattern env.inputPaths).flatMap f.map).map Prod.fst,
      ¬ HasSeparator key)
    (hnodup : ((mapReduce f.map f.reduce (selectedPairs env.keyPattern env.inputPaths)).map
      Prod.fst).Nodup)
    (hlists : Lists order s.map.env.mapOut.records)
    (hload : skipMap env'.doReduce (.records order) = .ok map)
    (h' : run (PhaseState.step (env'.skipMapParts n' map s.map.env.mapOut.records))
      (.start ⟨.unopened, ∅⟩) ls' = some r) (hjoined : r.Joined) (hf' : f.ReduceRunBy ls') :
    ∃ opened, tchdbopen env'.reduceOutFile (openMode env'.incrementalReduce) = some opened ∧
      r.env.records = writes opened
        (mapReduce f.map f.reduce (selectedPairs env.keyPattern env.inputPaths)) := by
  rw [skipMap_ok hload] at h'
  have hmapped := (mapped_perm hn h hended hfail).flatMap_right f.map
  have hkeys := hmapped.map Prod.fst
  obtain ⟨emitted, saved, opened, hemitted, hsaved, hopened, hrecords⟩ :=
    skipMap_saved hn' hmap hcap h hended hf (fun key => (hkeys.count_eq key).symm ▸ hcount key)
      (fun key hkey => hsep key (hkeys.mem_iff.mp hkey)) hlists h' hjoined hf'
  have hsame := hsaved.trans (reduce_groups_perm hblind (hemitted.trans hmapped))
  refine ⟨opened, hopened, ?_⟩
  rw [hrecords]
  exact writes_perm _ ((hsame.symm.map Prod.fst).nodup hnodup) hsame

end TwoProcesses

/-! ## Two workers count the values of a key, in two processes -/

/-- The map phase of the first process. -/
def countFirst : List (ProgramLabel 2) := countMapRun.map .map

theorem countFirst_isSome :
    (run (ProgramState.step countEnvironment) ProgramState.start countFirst).isSome = true := by
  decide

/-- The state the first process ends in. -/
def countFirstEnd : ProgramState 2 :=
  (run (ProgramState.step countEnvironment) ProgramState.start countFirst).get countFirst_isSome

theorem run_countFirst :
    run (ProgramState.step countEnvironment) ProgramState.start countFirst = some countFirstEnd :=
  (Option.some_get _).symm

theorem ended_countFirst : countFirstEnd.map.master = .ended := by decide

/-- The record keys in the order of the puts. -/
def countOrder : List CString := (landed (mapCalls countFirst)).map Prod.fst

theorem lists_countOrder : Lists countOrder countFirstEnd.map.env.mapOut.records := by
  obtain ⟨t, ht, -, -, hrecords⟩ := run_mapCalls rfl run_countFirst ended_countFirst
  rw [hrecords]
  exact lists_landed ht (by decide)

theorem countSecond_isSome : (run (PhaseState.step (countEnvironment.skipMapParts 2
    (loadKeys countOrder) countFirstEnd.map.env.mapOut.records))
    (.start ⟨.unopened, ∅⟩) countReduceRun).isSome = true := by
  decide

/-- The state the second process ends in. -/
def countSecondEnd :
    PhaseState 2 (KeyValueListPair CString) (BeginState CString) (Hdb CString) :=
  (run (PhaseState.step (countEnvironment.skipMapParts 2 (loadKeys countOrder)
    countFirstEnd.map.env.mapOut.records)) (.start ⟨.unopened, ∅⟩) countReduceRun).get
    countSecond_isSome

theorem joined_countSecondEnd : countSecondEnd.Joined := .inr (by decide)

theorem countFirst_mapRunBy :
    countScript.MapRunBy (countFirst.filterMap ProgramLabel.onMap) where
  calls := by
    unfold Follows
    decide
  emits := by decide

theorem no_failure_countFirst (w : Fin 2) (pair : KeyValuePair) :
    .map (.attempt w pair false) ∉ countFirst := by
  have hfailed : ∀ l ∈ countFirst, ∀ w pair, l ≠ .map (.attempt w pair false) := by
    simp [countFirst, countMapRun, enqueueSteps, dequeueSteps, closeSteps]
  exact fun hmem => hfailed _ hmem w pair rfl

theorem skipMap_sequential_countRun :
    (mapped countFirst).Subperm (selectedPairs none countEnvironment.inputPaths) ∧
      ∃ emitted saved opened, emitted.Perm ((mapped countFirst).flatMap countScript.map) ∧
        saved.Perm ((groups emitted).flatMap fun g => countScript.reduce g.1 g.2) ∧
        tchdbopen countEnvironment.reduceOutFile (openMode false) = some opened ∧
        countSecondEnd.env.records = writes opened saved :=
  skipMap_sequential (by decide) (by decide) rfl rfl run_countFirst ended_countFirst
    countFirst_mapRunBy (fun _ => List.count_le_length.trans_lt (by decide)) (by decide)
    lists_countOrder rfl (Option.some_get _).symm joined_countSecondEnd countReduceRun_reduceRunBy

theorem skipMap_deterministic_countRun :
    ∃ opened, tchdbopen countEnvironment.reduceOutFile (openMode false) = some opened ∧
      countSecondEnd.env.records = writes opened
        (mapReduce countScript.map countScript.reduce
          (selectedPairs none countEnvironment.inputPaths)) :=
  skipMap_deterministic (by decide) (by decide) rfl rfl run_countFirst ended_countFirst
    countFirst_mapRunBy no_failure_countFirst orderBlind_countScript
    (fun _ => List.count_le_length.trans_lt (by decide)) (by decide) (by decide)
    lists_countOrder rfl (Option.some_get _).symm joined_countSecondEnd countReduceRun_reduceRunBy

end Meguro
