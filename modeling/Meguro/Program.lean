import Meguro.Mapper.Begin
import Meguro.Reducer.Save

/-!
# Map, then reduce

`main` calls `map_master` and, when it has returned, `reduce_master` on the map
and the file the first one leaves. Each output is used only while it is open, and
what `Reducer::begin` reads no emit touches any more.
-/

namespace Meguro

open Transition

/-- The settings the two phases read: what the iterators of the input paths do,
and the files that exist at the output paths. -/
structure MeguroEnvironment where
  doReduce : Bool
  capAmount : UInt64
  keyPattern : Option CString
  incrementalMap : Bool
  incrementalReduce : Bool
  inputPaths : List InputPath
  mapOutFile : Option (Records CString)
  reduceOutFile : Option (Records CString)

namespace MeguroEnvironment

variable (env : MeguroEnvironment) (n : Nat)

def mapParts : PhaseParts n KeyValuePair ReadState (MapperLabel (Fin n)) (MapperState (Fin n)) :=
  Meguro.mapParts n env.incrementalMap env.mapOutFile env.keyPattern env.inputPaths

/-- The reduce phase reads the map and the map output in this state. -/
def reduceParts (left : MapperState (Fin n)) :
    PhaseParts n (KeyValueListPair CString) (BeginState CString) ReducerLabel (Hdb CString) :=
  Meguro.reduceParts n env.capAmount env.incrementalReduce env.reduceOutFile left.shadowKeyMap
    left.mapOut.records

end MeguroEnvironment

/-- The process: the map phase, and the reduce phase once it has begun. -/
structure ProgramState (n : Nat) where
  map : PhaseState n KeyValuePair ReadState (MapperState (Fin n))
  reduce : Option (PhaseState n (KeyValueListPair CString) (BeginState CString) (Hdb CString))

/-- A step of one of the phases, or the call of `reduce_master`. -/
inductive ProgramLabel (n : Nat)
  | map (l : PhaseLabel n KeyValuePair ReadState (MapperLabel (Fin n)))
  | startReduce
  | reduce (l : PhaseLabel n (KeyValueListPair CString) (BeginState CString) ReducerLabel)

namespace ProgramLabel

variable {n : Nat}

def onMap : ProgramLabel n → Option (PhaseLabel n KeyValuePair ReadState (MapperLabel (Fin n)))
  | .map l => some l
  | _ => none

def onReduce : ProgramLabel n →
    Option (PhaseLabel n (KeyValueListPair CString) (BeginState CString) ReducerLabel)
  | .reduce l => some l
  | _ => none

theorem mem_onMap {ls : List (ProgramLabel n)}
    {l : PhaseLabel n KeyValuePair ReadState (MapperLabel (Fin n))} :
    l ∈ ls.filterMap onMap ↔ .map l ∈ ls := by
  have hmap (k : ProgramLabel n) : k.onMap = some l ↔ k = .map l := by
    cases k <;> simp [onMap]
  simp only [List.mem_filterMap, hmap, exists_eq_right]

theorem mem_onReduce {ls : List (ProgramLabel n)}
    {l : PhaseLabel n (KeyValueListPair CString) (BeginState CString) ReducerLabel} :
    l ∈ ls.filterMap onReduce ↔ .reduce l ∈ ls := by
  have hreduce (k : ProgramLabel n) : k.onReduce = some l ↔ k = .reduce l := by
    cases k <;> simp [onReduce]
  simp only [List.mem_filterMap, hreduce, exists_eq_right]

end ProgramLabel

namespace ProgramState

variable {n : Nat} {env : MeguroEnvironment} {s u : ProgramState n}

/-- The start of `map_master`. -/
def start : ProgramState n := ⟨.start MapperState.unopened, none⟩

/-- An uncaught exception in either phase ends the process. -/
def terminated (s : ProgramState n) : Bool :=
  s.map.terminated || s.reduce.any PhaseState.terminated

/-- The steps of `main` for a script with a map function. The reduce phase starts
when `map_master` has returned; nothing else keeps the phases apart. -/
def step (env : MeguroEnvironment) (s : ProgramState n) (l : ProgramLabel n) :
    Option (ProgramState n) :=
  if s.terminated then none
  else match l with
    | .map l => (s.map.step (env.mapParts n) l).map ({ s with map := · })
    | .startReduce =>
      if env.doReduce = true ∧ s.map.master = .ended ∧ s.reduce.isNone = true then
        some { s with reduce := some (.start ⟨.unopened, ∅⟩) }
      else none
    | .reduce l => s.reduce.bind fun r =>
      (r.step (env.reduceParts n s.map.env) l).map ({ s with reduce := some · })

theorem step_map {l : PhaseLabel n KeyValuePair ReadState (MapperLabel (Fin n))}
    (h : step env s (.map l) = some u) :
    s.map.step (env.mapParts n) l = some u.map ∧ u.reduce = s.reduce := by
  obtain ⟨-, h⟩ := Option.ite_none_left_eq_some.mp h
  obtain ⟨map, hmap, rfl⟩ := Option.map_eq_some_iff.mp h
  exact ⟨hmap, rfl⟩

theorem step_startReduce (h : step env s .startReduce = some u) :
    s.map.master = .ended ∧ s.reduce = none ∧
      u = { s with reduce := some (.start ⟨.unopened, ∅⟩) } := by
  obtain ⟨-, h⟩ := Option.ite_none_left_eq_some.mp h
  obtain ⟨⟨-, hended, hnone⟩, hu⟩ := Option.ite_none_right_eq_some.mp h
  exact ⟨hended, Option.isNone_iff_eq_none.mp hnone, (Option.some.inj hu).symm⟩

theorem step_reduce
    {l : PhaseLabel n (KeyValueListPair CString) (BeginState CString) ReducerLabel}
    (h : step env s (.reduce l) = some u) :
    ∃ r r', s.reduce = some r ∧ r.step (env.reduceParts n s.map.env) l = some r' ∧
      u = { s with reduce := some r' } := by
  obtain ⟨-, h⟩ := Option.ite_none_left_eq_some.mp h
  obtain ⟨r, hr, h⟩ := Option.bind_eq_some_iff.mp h
  obtain ⟨r', hr', rfl⟩ := Option.map_eq_some_iff.mp h
  exact ⟨r, r', hr, hr', rfl⟩

/-- The map phase runs on its own. -/
theorem simulates_map : Simulates (step env) (PhaseState.step (env.mapParts n)) ProgramLabel.onMap
    fun (s : ProgramState n) t => s.map = t := by
  rintro s l u _ rfl h
  cases l with
  | map l => exact ⟨u.map, (step_map h).1, rfl⟩
  | startReduce => rw [(step_startReduce h).2.2]; rfl
  | reduce l =>
    obtain ⟨r, r', -, -, rfl⟩ := step_reduce h
    rfl

/-! ## Runs -/

variable {ls : List (ProgramLabel n)}

theorem run_map (h : run (step env) start ls = some s) :
    run (PhaseState.step (env.mapParts n)) (.start MapperState.unopened)
      (ls.filterMap ProgramLabel.onMap) = some s.map := by
  obtain ⟨map, hmap, rfl⟩ := simulates_map.run rfl h
  exact hmap

theorem run_map_ordered (h : run (step env) start ls = some s) :
    s.map.Ordered (env.mapParts n) :=
  PhaseState.run_ordered (fun _ => rfl) (run_map h)

/-- Once `map_master` has returned, no callback of a map script steps, and the
map and its output stay as they are. -/
theorem run_of_ended (hs : s.map.Ordered (env.mapParts n)) (hended : s.map.master = .ended)
    (h : run (step env) s ls = some u) :
    u.map.env = s.map.env ∧ ∀ w a, .map (.act w a) ∉ ls := by
  refine (run_history (I := fun ls u => (u.map.Ordered (env.mapParts n) ∧ u.map.master = .ended) ∧
    u.map.env = s.map.env ∧ ∀ w a, .map (.act w a) ∉ ls)
    ⟨⟨hs, hended⟩, rfl, fun _ _ => List.not_mem_nil⟩ ?_ h).2
  rintro past t l v ⟨⟨ht, htended⟩, henv, hpast⟩ hstep
  cases l with
  | map l =>
    have hmap := (step_map hstep).1
    obtain ⟨hvended, hvenv, hact⟩ := PhaseState.step_of_ended ht htended hmap
    refine ⟨⟨PhaseState.step_ordered ht hmap, hvended⟩, hvenv.trans henv, fun w a hmem => ?_⟩
    rw [List.mem_append, List.mem_singleton] at hmem
    rcases hmem with hmem | hmem
    · exact hpast w a hmem
    · cases hmem
      exact hact w a rfl
  | startReduce =>
    rw [(step_startReduce hstep).2.2]
    exact ⟨⟨ht, htended⟩, henv, fun w a hmem => hpast w a (by simpa using hmem)⟩
  | reduce l =>
    obtain ⟨r, r', -, -, rfl⟩ := step_reduce hstep
    exact ⟨⟨ht, htended⟩, henv, fun w a hmem => hpast w a (by simpa using hmem)⟩

/-- The reduce phase has not begun, or it runs on what the map phase left. -/
def ReduceRuns (env : MeguroEnvironment) (ls : List (ProgramLabel n)) (s : ProgramState n) :
    Prop :=
  match s.reduce with
  | none => ls.filterMap ProgramLabel.onReduce = []
  | some r => s.map.master = .ended ∧
    run (PhaseState.step (env.reduceParts n s.map.env)) (.start ⟨.unopened, ∅⟩)
      (ls.filterMap ProgramLabel.onReduce) = some r

theorem run_reduce (h : run (step env) start ls = some s) : ReduceRuns env ls s := by
  have hstart : ReduceRuns env [] (start : ProgramState n) := rfl
  refine (run_history (I := fun ls s => s.map.Ordered (env.mapParts n) ∧ ReduceRuns env ls s)
    ⟨PhaseState.ordered_start fun _ => rfl, hstart⟩ ?_ h).2
  rintro past t l v ⟨ht, hreduce⟩ hstep
  unfold ReduceRuns at hreduce ⊢
  rw [filterMap_snoc]
  cases l with
  | map l =>
    obtain ⟨hmap, hsame⟩ := step_map hstep
    refine ⟨PhaseState.step_ordered ht hmap, ?_⟩
    rw [hsame]
    cases hr : t.reduce with
    | none =>
      rw [hr] at hreduce
      exact (List.append_nil _).trans hreduce
    | some r =>
      rw [hr] at hreduce
      obtain ⟨hended, henv, -⟩ := PhaseState.step_of_ended ht hreduce.1 hmap
      refine ⟨hended, ?_⟩
      rw [henv]
      exact (List.append_nil _).symm ▸ hreduce.2
  | startReduce =>
    obtain ⟨hended, hnone, rfl⟩ := step_startReduce hstep
    rw [hnone] at hreduce
    refine ⟨ht, hended, ?_⟩
    rw [hreduce]
    rfl
  | reduce l =>
    obtain ⟨r, r', hr, hstep', rfl⟩ := step_reduce hstep
    rw [hr] at hreduce
    exact ⟨ht, hreduce.1, run_snoc.mpr ⟨r, hreduce.2, hstep'⟩⟩

/-- A reduce phase under way has begun after the end of the map phase. -/
theorem run_reduce_some (h : run (step env) start ls = some s)
    {r : PhaseState n (KeyValueListPair CString) (BeginState CString) (Hdb CString)}
    (hr : s.reduce = some r) : s.map.master = .ended ∧
      run (PhaseState.step (env.reduceParts n s.map.env)) (.start ⟨.unopened, ∅⟩)
        (ls.filterMap ProgramLabel.onReduce) = some r := by
  have hreduce := run_reduce h
  unfold ReduceRuns at hreduce
  rwa [hr] at hreduce

end ProgramState

/-! ## The outputs are used while they are open -/

section UsedWhileOpen

open ProgramState

variable {n : Nat}

/-- The order of the two phases in a run that ends in this state. -/
structure UsedWhileOpen (env : MeguroEnvironment) (ls : List (ProgramLabel n))
    (s : ProgramState n) : Prop where
  /-- Every put of an emit or a set comes after the open of the map output and
  before its close. -/
  put : ∀ {past w thread recordKey value ok future},
    ls = past ++ .map (.act w (.put thread recordKey value ok)) :: future →
      .map .openOut ∈ past ∧ .map .closeOut ∉ past ∧
        ∃ t, run (step env) start past = some t ∧ t.map.env.mapOut.status = .opened
  /-- Every put of a save comes after the open of the reduce output and before its close. -/
  save : ∀ {past w key value ok future},
    ls = past ++ .reduce (.act w (.save key value ok)) :: future →
      .reduce .openOut ∈ past ∧ .reduce .closeOut ∉ past ∧
        ∃ t r, run (step env) start past = some t ∧ t.reduce = some r ∧ r.env.status = .opened
  /-- When the reduce phase takes a step every emit and set is complete, none
  follows, and the map and the map output are what they are at the end. -/
  reads : ∀ {past l future}, ls = past ++ .reduce l :: future →
    ∃ t, run (step env) start past = some t ∧ t.map.env.AllDone ∧ s.map.env = t.map.env ∧
      ∀ w a, .map (.act w a) ∉ future

variable {env : MeguroEnvironment} {past future : List (ProgramLabel n)} {s : ProgramState n}

/-- A callback of a map script steps while the map output is open. -/
theorem map_act_between {w : Fin n} {a : MapperLabel (Fin n)}
    (h : run (step env) start (past ++ .map (.act w a) :: future) = some s) :
    .map .openOut ∈ past ∧ .map .closeOut ∉ past ∧
      ∃ t, run (step env) start past = some t ∧ t.map.env.mapOut.status = .opened := by
  obtain ⟨t, u, hpast, -, -⟩ := run_split h
  have hmap := run_map h
  rw [List.filterMap_append, List.filterMap_cons] at hmap
  obtain ⟨hopen, hclose, t', ht', hstatus⟩ := PhaseState.act_between (fun _ => rfl) hmap
  rw [run_map hpast] at ht'
  cases ht'
  exact ⟨ProgramLabel.mem_onMap.mp hopen, fun hc => hclose (ProgramLabel.mem_onMap.mpr hc),
    t, hpast, hstatus⟩

/-- A callback of a reduce script steps while the reduce output is open. -/
theorem reduce_act_between {w : Fin n} {a : ReducerLabel}
    (h : run (step env) start (past ++ .reduce (.act w a) :: future) = some s) :
    .reduce .openOut ∈ past ∧ .reduce .closeOut ∉ past ∧
      ∃ t r, run (step env) start past = some t ∧ t.reduce = some r ∧ r.env.status = .opened := by
  obtain ⟨t, u, hpast, hstep, -⟩ := run_split h
  obtain ⟨r, r', hr, hact, -⟩ := step_reduce hstep
  have hreduce := run_reduce_some hpast hr
  have hrun := run_snoc.mpr ⟨r, hreduce.2, hact⟩
  obtain ⟨hopen, hclose, t', ht', hstatus⟩ := PhaseState.act_between (fun _ => rfl) hrun
  rw [hreduce.2] at ht'
  cases ht'
  exact ⟨ProgramLabel.mem_onReduce.mp hopen, fun hc => hclose (ProgramLabel.mem_onReduce.mpr hc),
    t, r, hpast, hr, hstatus⟩

/-- The reduce phase steps after the last step of a map script. -/
theorem reduce_after_map
    {l : PhaseLabel n (KeyValueListPair CString) (BeginState CString) ReducerLabel}
    (h : run (step env) start (past ++ .reduce l :: future) = some s) :
    ∃ t, run (step env) start past = some t ∧ t.map.env.AllDone ∧ s.map.env = t.map.env ∧
      ∀ w a, .map (.act w a) ∉ future := by
  obtain ⟨t, u, hpast, hstep, hfuture⟩ := run_split h
  obtain ⟨r, r', hr, -, rfl⟩ := step_reduce hstep
  have hreduce := run_reduce_some hpast hr
  have hordered := run_map_ordered hpast
  obtain ⟨henv, hact⟩ := run_of_ended (s := ⟨t.map, some r'⟩) hordered hreduce.1 hfuture
  refine ⟨t, hpast, fun w => ?_, henv, hact⟩
  have hbusy : (t.map.worker w).isBusy = false := by
    rw [hordered.finished_of_ended hreduce.1 w]
    rfl
  exact Option.isNone_iff_eq_none.mp (hordered.quiet w hbusy)

/-- In every run the outputs are used while they are open, and the reduce phase
comes after the map phase. -/
theorem usedWhileOpen_of_run {ls : List (ProgramLabel n)} (h : run (step env) start ls = some s) :
    UsedWhileOpen env ls s where
  put hls := map_act_between (hls ▸ h)
  save hls := reduce_act_between (hls ▸ h)
  reads hls := reduce_after_map (hls ▸ h)

/-- The settings of a run on two paths. -/
def twoPathsEnvironment : MeguroEnvironment where
  doReduce := true
  capAmount := 0
  keyPattern := some (.ofLiteral "k")
  incrementalMap := false
  incrementalReduce := false
  inputPaths := twoPaths
  mapOutFile := none
  reduceOutFile := none

/-- The first worker reduces the pair of `k`. -/
def onePairRun : List
    (PhaseLabel 2 (KeyValueListPair CString) (BeginState CString) ReducerLabel) :=
  let key := CString.ofLiteral "k"
  let pair := KeyValueListPair.mk key [CString.ofLiteral "3"]
  [.create worker₁, .create worker₂, .openOut, .started worker₁ true, .started worker₂ true,
    .read ⟨[(key, 0)], 0, []⟩ (.silent ⟨[(key, 0)], 1, pair.valueList⟩),
    .read ⟨[(key, 0)], 1, pair.valueList⟩ (.item pair ⟨[], 0, []⟩)] ++
  enqueueSteps pair ++ dequeueSteps worker₁ pair ++
  [.attempt worker₁ pair true, .act worker₁ (.save key (.ofLiteral "sum") true),
    .returned worker₁ pair] ++
  closeSteps ⟨[], 0, []⟩

/-- The workers map the two paths and reduce the one key. -/
def twoPhasesRun : List (ProgramLabel 2) :=
  twoWorkersRun.map .map ++ [.startReduce] ++ onePairRun.map .reduce

theorem twoPhasesRun_isSome :
    (run (step twoPathsEnvironment) start twoPhasesRun).isSome = true := by
  decide

theorem usedWhileOpen_twoPhasesRun : UsedWhileOpen twoPathsEnvironment twoPhasesRun
    ((run (step twoPathsEnvironment) start twoPhasesRun).get twoPhasesRun_isSome) :=
  usedWhileOpen_of_run (Option.some_get _).symm

end UsedWhileOpen

end Meguro
