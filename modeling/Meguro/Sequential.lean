import Meguro.Core.Grouping
import Meguro.MapReduce
import Meguro.Phase.Scripts

/-!
# The threads compute what one would

When the map function computes its emits from a pair, and the reduce function its
saves from a key and its values, a map-reduce run has a meaning that mentions no
threads: map the pairs one after the other, gather the values of each key, and
save what every group reduces to. Under every schedule and with any number of
workers the reduce output holds the saves of such a computation, up to the order
of the emits and of the saves; when neither order matters it is a function of
the input alone.
-/

namespace Meguro

open Transition Occurrence LastWrite Interleaving Grouping MapperState

variable {n : Nat}

/-- A script whose functions compute from their arguments: the pairs the map
function emits, and the pairs the reduce function saves. -/
structure Script where
  map : KeyValuePair → List (CString × CString)
  reduce : CString → List CString → List (CString × CString)

/-- The pair of an emit. -/
def MapperLabel.pair? {τ : Type*} (l : MapperLabel τ) : Option (CString × CString) :=
  l.emit?.map fun e => (e.key, e.value)

/-- The pair of a save. -/
def ReducerLabel.pair? : ReducerLabel → Option (CString × CString)
  | .save key value _ => some (key, value)

/-- The pairs whose attempt did not fail. -/
def mapped (ls : List (ProgramLabel n)) : List KeyValuePair :=
  (succeeded (ls.filterMap ProgramLabel.onMap)).map Prod.snd

/-- The workers of a map phase run this script, and every put succeeds. -/
structure Script.MapRunBy (f : Script)
    (ls : List (PhaseLabel n KeyValuePair ReadState (MapperLabel (Fin n)))) : Prop where
  calls : Follows (fun pair calls => calls.filterMap MapperLabel.pair? = f.map pair) ls
  emits : SuccessfulEmits ((acts ls).map Prod.snd)

/-- The workers of a reduce phase run this script, and every put succeeds. -/
structure Script.ReduceRunBy (f : Script)
    (ls : List (PhaseLabel n (KeyValueListPair CString) (BeginState CString) ReducerLabel)) :
    Prop where
  calls : Follows (fun pair calls =>
    calls.filterMap ReducerLabel.pair? = f.reduce pair.key pair.valueList) ls
  saves : ∀ key value, .save key value false ∉ (acts ls).map Prod.snd

/-- The workers of both phases run this script. -/
structure Script.RunBy (f : Script) (ls : List (ProgramLabel n)) : Prop where
  map : f.MapRunBy (ls.filterMap ProgramLabel.onMap)
  reduce : f.ReduceRunBy (ls.filterMap ProgramLabel.onReduce)

/-! ## What the map phase leaves -/

theorem filterMap_pair? {τ : Type*} (calls : List (MapperLabel τ)) :
    calls.filterMap MapperLabel.pair? = (emits calls).map fun e => (e.key, e.value) :=
  List.map_filterMap.symm

/-- Without lookalikes the shadow keys of a key are issued to no other key. -/
theorem undisturbed_of_noLookalike {τ : Type*} [DecidableEq τ] {calls : List (MapperLabel τ)}
    {t : MapperState τ} (h : run step start calls = some t)
    (hcount : ∀ key, (emittedKeys calls).count key < 2 ^ 31)
    (hlook : NoLookalike (emittedKeys calls)) (key : CString) :
    ∀ e ∈ emits calls, e.key ≠ key → ∀ j < (emittedKeys calls).count key,
      e.shadowKey ≠ generateShadowKey key (UInt32.ofNat j) := by
  intro e he hne j hj hsame
  have hissued : (e.key, e.shadowKey) ∈ (emits calls).map fun e => (e.key, e.shadowKey) :=
    List.mem_map.mpr ⟨e, he, rfl⟩
  rw [run_issued h] at hissued
  obtain ⟨⟨k, i⟩, hranked, hpair⟩ := List.mem_map.mp hissued
  obtain ⟨hk, hshadow⟩ := Prod.ext_iff.mp hpair
  have hnodup := (nodup_issuedKeys_iff hcount).mpr hlook
  rw [issuedKeys, nodup_names_iff fun key j => generateShadowKey key (UInt32.ofNat j)] at hnodup
  obtain ⟨hkk, -⟩ := hnodup k i key j (mem_ranked.mp hranked) hj (hshadow.trans hsame)
  exact hne (hk.symm.trans hkk)

/-- Where every emitted key owns its shadow keys, the pairs the driver enqueues are the
groups of the emits. -/
theorem groups_of_owned {τ : Type*} [DecidableEq τ] {calls : List (MapperLabel τ)}
    {t : MapperState τ} (h : run step start calls = some t) (hdone : t.AllDone)
    (hcount : ∀ key, (emittedKeys calls).count key < 2 ^ 31)
    (hown : ∀ key, OwnsShadowKeys calls key) {pairs : List (KeyValueListPair CString)}
    (henqueues : Enqueues t.shadowKeyMap t.mapOut.records 0 pairs) :
    pairs.map (fun pair => (pair.key, pair.valueList)) =
      groups ((emits calls).map fun e => (e.key, e.value)) := by
  have hfst : ((emits calls).map fun e => (e.key, e.value)).map Prod.fst = emittedKeys calls := by
    rw [List.map_map]
    rfl
  have hkeys : t.shadowKeyMap.entries.map Prod.fst = (emittedKeys calls).eraseDups := by
    change t.shadowKeyMap.keys = _
    rw [run_shadowKeyMap h, keys_incrementAll]
  rw [henqueues.unique (enqueues_uncapped _ (entry_lt_of_run h hcount)), groups, hfst, ← hkeys,
    List.map_map, List.map_map]
  apply List.map_congr_left
  intro e he
  have hentry := entry_of_run h he (hcount e.1)
  have hlength := length_emits_of_key h e.1
  change (e.1, valuesUpTo t.mapOut.records e.1 e.2.toNat) = (e.1, valuesOf _ e.1)
  rw [valuesUpTo_of_ownsShadowKeys h hdone (hcount e.1) (hown e.1) (by omega),
    List.take_of_length_le (by rw [List.length_map]; omega), valuesOf, List.filter_map, List.map_map]
  rfl

/-- In a complete run of emits without lookalikes every key owns its shadow keys. -/
theorem ownsShadowKeys_of_noLookalike {τ : Type*} [DecidableEq τ] {calls : List (MapperLabel τ)}
    {t : MapperState τ} (h : run step start calls = some t) (hemits : SuccessfulEmits calls)
    (hcount : ∀ key, (emittedKeys calls).count key < 2 ^ 31)
    (hlook : NoLookalike (emittedKeys calls)) (key : CString) : OwnsShadowKeys calls key :=
  ownsShadowKeys_of_emits hemits (undisturbed_of_noLookalike h hcount hlook key)

/-- Lookalikes are a matter of the emitted keys, not of their order. -/
theorem NoLookalike.perm {keys keys' : List CString} (h : NoLookalike keys)
    (hperm : keys.Perm keys') : NoLookalike keys' := by
  intro key hkey root count hpos hlt
  rw [← hperm.count_eq] at hlt
  exact h key (hperm.mem_iff.mpr hkey) root count hpos hlt

section Runs

variable {env : MeguroEnvironment} {s : ProgramState n} {ls : List (ProgramLabel n)}
  {r : PhaseState n (KeyValueListPair CString) (BeginState CString) (Hdb CString)} {f : Script}

/-- The emits of the workers, in some order, are what the map function emits for
the mapped pairs. -/
theorem emitted_perm
    (hcalls : Follows (fun pair calls => calls.filterMap MapperLabel.pair? = f.map pair)
      (ls.filterMap ProgramLabel.onMap))
    (h : run (ProgramState.step env) ProgramState.start ls = some s)
    (hended : s.map.master = .ended) :
    ((emits (mapCalls ls)).map fun e => (e.key, e.value)).Perm ((mapped ls).flatMap f.map) := by
  rw [← filterMap_pair?]
  exact PhaseState.computed_perm (fun _ => rfl) (ProgramState.run_map h) (.inr hended) hcalls

theorem emittedKeys_perm
    (hcalls : Follows (fun pair calls => calls.filterMap MapperLabel.pair? = f.map pair)
      (ls.filterMap ProgramLabel.onMap))
    (h : run (ProgramState.step env) ProgramState.start ls = some s)
    (hended : s.map.master = .ended) :
    (emittedKeys (mapCalls ls)).Perm (((mapped ls).flatMap f.map).map Prod.fst) := by
  have hperm := (emitted_perm hcalls h hended).map Prod.fst
  rw [List.map_map] at hperm
  exact hperm

/-- The attempts of the map workers are the selected pairs, in some order. -/
theorem attempted_perm (hn : 0 < n)
    (h : run (ProgramState.step env) ProgramState.start ls = some s)
    (hended : s.map.master = .ended) :
    ((attempted (ls.filterMap ProgramLabel.onMap)).map Prod.snd).Perm
      (selectedPairs env.keyPattern env.inputPaths) := by
  have hmap := ProgramState.run_map h
  obtain ⟨hread, howner⟩ := PhaseState.run_joined hn (fun _ => rfl) hmap (.inr hended)
  have hperm := (perm_of_ofOwner_eq howner).map Prod.snd
  rwa [hread.unique (yields_readStep env.keyPattern env.inputPaths)] at hperm

/-- Every mapped pair is a selected pair, and no pair is mapped more often than
it is selected. -/
theorem mapped_subperm (hn : 0 < n)
    (h : run (ProgramState.step env) ProgramState.start ls = some s)
    (hended : s.map.master = .ended) :
    (mapped ls).Subperm (selectedPairs env.keyPattern env.inputPaths) := by
  have hsub := (PhaseState.succeeded_sublist (ls.filterMap ProgramLabel.onMap)).map Prod.snd
  exact hsub.subperm.trans (attempted_perm hn h hended).subperm

/-- Where no attempt fails, the mapped pairs are the selected pairs, in some order. -/
theorem mapped_perm (hn : 0 < n) (h : run (ProgramState.step env) ProgramState.start ls = some s)
    (hended : s.map.master = .ended) (hfail : ∀ w pair, .map (.attempt w pair false) ∉ ls) :
    (mapped ls).Perm (selectedPairs env.keyPattern env.inputPaths) := by
  have hall : ∀ w pair, .attempt w pair false ∉ ls.filterMap ProgramLabel.onMap :=
    fun w pair hmem => hfail w pair (ProgramLabel.mem_onMap.mp hmem)
  rw [mapped, PhaseState.succeeded_eq_attempted hall]
  exact attempted_perm hn h hended

end Runs

/-! ## What a reduce phase saves -/

section ReducePhase

variable {capAmount : UInt64} {incremental : Bool} {file : Option (Records CString)}
  {map : ShadowKeyMap} {records : Records CString}
  {r : PhaseState n (KeyValueListPair CString) (BeginState CString) (Hdb CString)}
  {ls : List (PhaseLabel n (KeyValueListPair CString) (BeginState CString) ReducerLabel)}

/-- The records of a sequence of saves whose puts succeed. -/
theorem run_saves {calls : List (Fin n × ReducerLabel)} {db db' : Hdb CString}
    (hsaves : ∀ key value, .save key value false ∉ calls.map Prod.snd)
    (h : run (reduceParts n capAmount incremental file map records).actStep db calls = some db') :
    db'.records = writes db.records ((calls.map Prod.snd).filterMap ReducerLabel.pair?) := by
  induction calls generalizing db with
  | nil =>
    cases h
    rfl
  | cons call calls ih =>
    obtain ⟨w, key, value, ok⟩ := call
    obtain ⟨mid, hstep, hrest⟩ := run_cons.mp h
    have hok : ok = true := by
      cases ok with
      | true => rfl
      | false => exact absurd (List.mem_cons_self ..) (hsaves key value)
    subst ok
    have hmid : mid = db.put key value :=
      (Option.some.inj (Option.ite_none_right_eq_some.mp hstep).2).symm
    rw [ih (fun key value hmem => hsaves key value (List.mem_cons_of_mem _ hmem)) hrest, hmid]
    rfl

/-- When the workers are joined the output holds what the callbacks left in it. -/
theorem records_of_joined (h : run (PhaseState.step
      (reduceParts n capAmount incremental file map records)) (.start ⟨.unopened, ∅⟩) ls = some r)
    (hjoined : r.Joined) : ∃ opened db, tchdbopen file (openMode incremental) = some opened ∧
      run (reduceParts n capAmount incremental file map records).actStep ⟨.opened, opened⟩
        (acts ls) = some db ∧
      r.env.records = db.records := by
  obtain ⟨e, he⟩ := PhaseState.openOut_of_joined h hjoined
  obtain ⟨db₀, hdb₀⟩ := Option.isSome_iff_exists.mp he
  obtain ⟨opened, hopened, -⟩ := Option.map_eq_some_iff.mp hdb₀
  have hopenOut : (reduceParts n capAmount incremental file map records).openOut
      ⟨.unopened, ∅⟩ = some ⟨.opened, opened⟩ := by
    change (tchdbopen file (openMode incremental)).map _ = _
    rw [hopened]
    rfl
  obtain ⟨db, hdb, htracks⟩ := PhaseState.run_acts (fun _ => rfl) hopenOut h
  refine ⟨opened, db, hopened, hdb, ?_⟩
  unfold PhaseState.Tracks at htracks
  rcases hjoined with hm | hm
  · rw [hm] at htracks
    rw [show r.env = db from htracks]
  · rw [hm] at htracks
    rw [show r.env = { db with status := .closed } from htracks]

/-- The reduce output holds what it was opened with and the saves on top, and
the saves are in some order what the reduce function saves for the pairs. -/
theorem saved_perm {f : Script} (hf : f.ReduceRunBy ls)
    (h : run (PhaseState.step (reduceParts n capAmount incremental file map records))
      (.start ⟨.unopened, ∅⟩) ls = some r) (hjoined : r.Joined) :
    ∃ opened saved, tchdbopen file (openMode incremental) = some opened ∧
      r.env.records = writes opened saved ∧
      saved.Perm (((attempted ls).map Prod.snd).flatMap fun pair =>
        f.reduce pair.key pair.valueList) := by
  have hcomputed := PhaseState.computed_perm (fun _ => rfl) h hjoined hf.calls
  have hall := PhaseState.succeeds_of_joined rfl h (fun _ => rfl) hjoined
  rw [PhaseState.succeeded_eq_attempted hall] at hcomputed
  obtain ⟨opened, db, hopened, hdb, hrecords⟩ := records_of_joined h hjoined
  refine ⟨opened, _, hopened, ?_, hcomputed⟩
  rw [hrecords]
  exact run_saves hf.saves hdb

end ReducePhase

/-! ## The whole run -/

section Runs

variable {env : MeguroEnvironment} {s : ProgramState n} {ls : List (ProgramLabel n)}
  {r : PhaseState n (KeyValueListPair CString) (BeginState CString) (Hdb CString)} {f : Script}

/-- The pairs of the reduce phase are the groups of the emits. -/
theorem dealt_groups (hn : 0 < n) (hmap : env.incrementalMap = false) (hcap : env.capAmount = 0)
    (h : run (ProgramState.step env) ProgramState.start ls = some s) (hr : s.reduce = some r)
    (hjoined : r.Joined) (hcount : ∀ key, (emittedKeys (mapCalls ls)).count key < 2 ^ 31)
    (hown : ∀ key, OwnsShadowKeys (mapCalls ls) key) :
    (((reduceAttempts ls).map Prod.snd).map fun pair => (pair.key, pair.valueList)).Perm
      (groups ((emits (mapCalls ls)).map fun e => (e.key, e.value))) := by
  obtain ⟨dealt, henqueues, hperm, -⟩ := reduced_once hn h hr hjoined
  obtain ⟨hended, -⟩ := ProgramState.run_reduce_some h hr
  obtain ⟨t, ht, hdone, hshadow, hrecords⟩ := run_mapCalls hmap h hended
  rw [hshadow, hrecords, hcap] at henqueues
  rw [← groups_of_owned ht hdone hcount hown henqueues]
  exact (hperm.map _).map _

/-- Where every emitted key owns its shadow keys, the saves are in some order what the
reduce function saves for the groups of the emits. -/
theorem saved_groups (hn : 0 < n) (hmap : env.incrementalMap = false) (hcap : env.capAmount = 0)
    (h : run (ProgramState.step env) ProgramState.start ls = some s) (hr : s.reduce = some r)
    (hjoined : r.Joined)
    (hcalls : Follows (fun pair calls => calls.filterMap MapperLabel.pair? = f.map pair)
      (ls.filterMap ProgramLabel.onMap))
    (hreduce : f.ReduceRunBy (ls.filterMap ProgramLabel.onReduce))
    (hcount : ∀ key, (((mapped ls).flatMap f.map).map Prod.fst).count key < 2 ^ 31)
    (hown : ∀ key, OwnsShadowKeys (mapCalls ls) key) :
    ∃ emitted saved opened, emitted.Perm ((mapped ls).flatMap f.map) ∧
      saved.Perm ((groups emitted).flatMap fun g => f.reduce g.1 g.2) ∧
      tchdbopen env.reduceOutFile (openMode env.incrementalReduce) = some opened ∧
      r.env.records = writes opened saved := by
  obtain ⟨hended, hphase⟩ := ProgramState.run_reduce_some h hr
  have hkeys := emittedKeys_perm hcalls h hended
  have hcount' : ∀ key, (emittedKeys (mapCalls ls)).count key < 2 ^ 31 := fun key =>
    (hkeys.count_eq key).symm ▸ hcount key
  have hgroups := dealt_groups hn hmap hcap h hr hjoined hcount' hown
  obtain ⟨opened, saved, hopened, hrecords, hsaved⟩ := saved_perm hreduce hphase hjoined
  refine ⟨_, saved, opened, emitted_perm hcalls h hended, hsaved.trans ?_, hopened, hrecords⟩
  have hreduced := hgroups.flatMap_right fun g => f.reduce g.1 g.2
  rwa [List.flatMap_map] at hreduced

/-- A run of a script that only emits keys without lookalikes gives every key its shadow keys. -/
theorem Script.RunBy.owns (hf : f.RunBy ls) (hmap : env.incrementalMap = false)
    (h : run (ProgramState.step env) ProgramState.start ls = some s)
    (hended : s.map.master = .ended)
    (hcount : ∀ key, (((mapped ls).flatMap f.map).map Prod.fst).count key < 2 ^ 31)
    (hlook : NoLookalike (((mapped ls).flatMap f.map).map Prod.fst)) (key : CString) :
    OwnsShadowKeys (mapCalls ls) key := by
  have hkeys := emittedKeys_perm hf.map.calls h hended
  obtain ⟨t, ht, -⟩ := run_mapCalls hmap h hended
  exact ownsShadowKeys_of_noLookalike ht hf.map.emits
    (fun key => (hkeys.count_eq key).symm ▸ hcount key) (hlook.perm hkeys.symm) key

/-- Whatever the schedule, a run of map and reduce leaves what one thread would:
some of the selected pairs are mapped, each at most once, and there is an order
of what the map function emits for them, and an order of what the reduce
function saves for the groups, such that the reduce output holds these saves on
top of what it was opened with. -/
theorem mapReduce_sequential (hn : 0 < n) (hmap : env.incrementalMap = false)
    (hcap : env.capAmount = 0) (h : run (ProgramState.step env) ProgramState.start ls = some s)
    (hr : s.reduce = some r) (hjoined : r.Joined) (hf : f.RunBy ls)
    (hcount : ∀ key, (((mapped ls).flatMap f.map).map Prod.fst).count key < 2 ^ 31)
    (hlook : NoLookalike (((mapped ls).flatMap f.map).map Prod.fst)) :
    (mapped ls).Subperm (selectedPairs env.keyPattern env.inputPaths) ∧
      ∃ emitted saved opened, emitted.Perm ((mapped ls).flatMap f.map) ∧
        saved.Perm ((groups emitted).flatMap fun g => f.reduce g.1 g.2) ∧
        tchdbopen env.reduceOutFile (openMode env.incrementalReduce) = some opened ∧
        r.env.records = writes opened saved := by
  obtain ⟨hended, -⟩ := ProgramState.run_reduce_some h hr
  exact ⟨mapped_subperm hn h hended, saved_groups hn hmap hcap h hr hjoined hf.map.calls hf.reduce
    hcount (hf.owns hmap h hended hcount hlook)⟩

/-- A reduce function that ignores the order of its values and saves every key
once makes the reduce output a function of the input: without failed attempts it
holds the saves of the selected pairs, for every schedule and any number of workers. -/
theorem mapReduce_deterministic (hn : 0 < n) (hmap : env.incrementalMap = false)
    (hcap : env.capAmount = 0) (h : run (ProgramState.step env) ProgramState.start ls = some s)
    (hr : s.reduce = some r) (hjoined : r.Joined) (hf : f.RunBy ls)
    (hfail : ∀ w pair, .map (.attempt w pair false) ∉ ls) (hblind : OrderBlind f.reduce)
    (hcount : ∀ key, (((selectedPairs env.keyPattern env.inputPaths).flatMap f.map).map
      Prod.fst).count key < 2 ^ 31)
    (hlook : NoLookalike (((selectedPairs env.keyPattern env.inputPaths).flatMap f.map).map
      Prod.fst))
    (hnodup : ((mapReduce f.map f.reduce (selectedPairs env.keyPattern env.inputPaths)).map
      Prod.fst).Nodup) :
    ∃ opened, tchdbopen env.reduceOutFile (openMode env.incrementalReduce) = some opened ∧
      r.env.records = writes opened
        (mapReduce f.map f.reduce (selectedPairs env.keyPattern env.inputPaths)) := by
  obtain ⟨hended, -⟩ := ProgramState.run_reduce_some h hr
  have hmapped := (mapped_perm hn h hended hfail).flatMap_right f.map
  have hkeys := hmapped.map Prod.fst
  have hcount' : ∀ key, (((mapped ls).flatMap f.map).map Prod.fst).count key < 2 ^ 31 :=
    fun key => (hkeys.count_eq key).symm ▸ hcount key
  obtain ⟨emitted, saved, opened, hemitted, hsaved, hopened, hrecords⟩ :=
    saved_groups hn hmap hcap h hr hjoined hf.map.calls hf.reduce hcount'
      (hf.owns hmap h hended hcount' (hlook.perm hkeys.symm))
  have hsame := hsaved.trans (reduce_groups_perm hblind (hemitted.trans hmapped))
  refine ⟨opened, hopened, ?_⟩
  rw [hrecords]
  exact writes_perm _ ((hsame.symm.map Prod.fst).nodup hnodup) hsame

end Runs

/-! ## Two workers count the values of a key -/

/-- A plus sign for each of `count` values. -/
def marks (count : Nat) : CString := ⟨List.replicate count 43, by simp⟩

/-- Emit every pair as it is, and save a mark for each value of a key. -/
def countScript : Script where
  map pair := [(pair.key, pair.value)]
  reduce key values := [(key, marks values.length)]

theorem orderBlind_countScript : OrderBlind countScript.reduce := by
  intro key values values' h
  change [(key, marks values.length)] = [(key, marks values'.length)]
  rw [h.length_eq]

/-- The settings of a run on one path with two pairs of one key. -/
def countEnvironment : MeguroEnvironment where
  doReduce := true
  capAmount := 0
  keyPattern := none
  incrementalMap := false
  incrementalReduce := false
  inputPaths := [.pairs [pairOf "k" "1", pairOf "k" "3"]]
  mapOutFile := none
  reduceOutFile := none

/-- The second worker is issued the first shadow key and puts last. -/
def countMapRun : List (PhaseLabel 2 KeyValuePair ReadState (MapperLabel (Fin 2))) :=
  let first := pairOf "k" "1"
  let last := pairOf "k" "3"
  let shadowKey := CString.ofLiteral "k|m1"
  [.create worker₁, .create worker₂, .openOut, .started worker₁ true, .started worker₂ true,
    .read ⟨none, [.pairs [first, last]]⟩ (.silent ⟨some [first, last], []⟩),
    .read ⟨some [first, last], []⟩ (.item first ⟨some [last], []⟩)] ++
  enqueueSteps first ++ [.read ⟨some [last], []⟩ (.item last ⟨some [], []⟩)] ++
  enqueueSteps last ++ dequeueSteps worker₁ first ++ dequeueSteps worker₂ last ++
  [.attempt worker₁ first true, .attempt worker₂ last true,
    .act worker₂ (.emitLocked worker₂ last.key last.value last.key),
    .act worker₁ (.emitLocked worker₁ first.key first.value shadowKey),
    .act worker₁ (.put worker₁ shadowKey first.value true),
    .act worker₂ (.put worker₂ last.key last.value true),
    .returned worker₁ first, .returned worker₂ last,
    .read ⟨some [], []⟩ (.silent ⟨none, []⟩)] ++
  closeSteps ⟨none, []⟩

/-- The first worker reduces the pair of the key. -/
def countReduceRun : List
    (PhaseLabel 2 (KeyValueListPair CString) (BeginState CString) ReducerLabel) :=
  let key := CString.ofLiteral "k"
  let pair := KeyValueListPair.mk key [CString.ofLiteral "3", CString.ofLiteral "1"]
  [.create worker₁, .create worker₂, .openOut, .started worker₁ true, .started worker₂ true,
    .read ⟨[(key, 1)], 0, []⟩ (.silent ⟨[(key, 1)], 1, [CString.ofLiteral "3"]⟩),
    .read ⟨[(key, 1)], 1, [CString.ofLiteral "3"]⟩ (.silent ⟨[(key, 1)], 2, pair.valueList⟩),
    .read ⟨[(key, 1)], 2, pair.valueList⟩ (.item pair ⟨[], 0, []⟩)] ++
  enqueueSteps pair ++ dequeueSteps worker₁ pair ++
  [.attempt worker₁ pair true, .act worker₁ (.save key (marks 2) true),
    .returned worker₁ pair] ++
  closeSteps ⟨[], 0, []⟩

/-- Both phases. -/
def countRun : List (ProgramLabel 2) :=
  countMapRun.map .map ++ [.startReduce] ++ countReduceRun.map .reduce

theorem countRun_isSome :
    (run (ProgramState.step countEnvironment) ProgramState.start countRun).isSome = true := by
  decide

/-- The state the run ends in. -/
def countEnd : ProgramState 2 :=
  (run (ProgramState.step countEnvironment) ProgramState.start countRun).get countRun_isSome

theorem countReduceRun_reduceRunBy : countScript.ReduceRunBy countReduceRun where
  calls := by
    unfold Follows
    decide
  saves key value hmem := by
    have hcalls : (acts countReduceRun).map Prod.snd =
        [.save (.ofLiteral "k") (marks 2) true] := by decide
    rw [hcalls] at hmem
    cases hmem with
    | tail _ h => cases h

theorem countRun_runBy : countScript.RunBy countRun where
  map := by
    refine ⟨?_, by decide⟩
    unfold Follows
    decide
  reduce := countReduceRun_reduceRunBy

/-- A key of one byte is no shadow key. -/
theorem noLookalike_countRun : NoLookalike [CString.ofLiteral "k", CString.ofLiteral "k"] := by
  intro key hkey root count _ _ hsame
  have hlength : key.bytes.length = 1 := by
    rw [show key = CString.ofLiteral "k" by simpa using hkey]
    rfl
  rw [hsame, List.length_append, List.length_append] at hlength
  have hseparator : suffixSeparator.length = 2 := by decide
  omega

theorem no_failure_countRun (w : Fin 2) (pair : KeyValuePair) :
    .map (.attempt w pair false) ∉ countRun := by
  have hfailed : ∀ l ∈ countRun, ∀ w pair, l ≠ .map (.attempt w pair false) := by
    simp [countRun, countMapRun, countReduceRun, enqueueSteps, dequeueSteps, closeSteps]
  exact fun hmem => hfailed _ hmem w pair rfl

theorem reduce_countEnd_isSome : countEnd.reduce.isSome = true := by decide

theorem joined_countEnd : (countEnd.reduce.get reduce_countEnd_isSome).Joined :=
  .inr (by decide)

theorem mapReduce_sequential_countRun :
    (mapped countRun).Subperm (selectedPairs none countEnvironment.inputPaths) ∧
      ∃ emitted saved opened, emitted.Perm ((mapped countRun).flatMap countScript.map) ∧
        saved.Perm ((groups emitted).flatMap fun g => countScript.reduce g.1 g.2) ∧
        tchdbopen countEnvironment.reduceOutFile (openMode false) = some opened ∧
        (countEnd.reduce.get reduce_countEnd_isSome).env.records = writes opened saved :=
  mapReduce_sequential (by decide) rfl rfl (Option.some_get _).symm (Option.some_get _).symm
    joined_countEnd countRun_runBy (fun _ => List.count_le_length.trans_lt (by decide))
    noLookalike_countRun

theorem mapReduce_deterministic_countRun :
    ∃ opened, tchdbopen countEnvironment.reduceOutFile (openMode false) = some opened ∧
      (countEnd.reduce.get reduce_countEnd_isSome).env.records = writes opened
        (mapReduce countScript.map countScript.reduce
          (selectedPairs none countEnvironment.inputPaths)) :=
  mapReduce_deterministic (by decide) rfl rfl (Option.some_get _).symm (Option.some_get _).symm
    joined_countEnd countRun_runBy no_failure_countRun orderBlind_countScript
    (fun _ => List.count_le_length.trans_lt (by decide)) noLookalike_countRun (by decide)

end Meguro
