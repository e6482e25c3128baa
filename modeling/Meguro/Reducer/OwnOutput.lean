import Meguro.Phase.Survival
import Meguro.Script.Calls
import Meguro.Sequential

/-!
# Reducing what scripts have written

A pair is bad when the engine refuses its key or one of its values, or has no memory
for them. One such pair ends the process. Scripts do not write texts the engine
refuses: it takes back every text it gives out. So a run on a new map output dies of
its own pairs only when one of them does not fit the memory of the runtime, whatever
its scripts emit and set, in whatever order.
-/

namespace Meguro

open Transition LastWrite PhaseState

/-- `TraceMonkeyJSHandle::reduce` throws on a pair, where `memory` is what the runtime
has left for its objects when the pair is attempted. -/
def throwsOn (memory : KeyValueListPair CString → RuntimeMemory)
    (pair : KeyValueListPair CString) : Bool :=
  !(TraceMonkeyJSHandle.reduce (memory pair) pair.key pair.valueList).isOk

/-- There is memory for the array, the value strings and the key string of a pair. -/
def HasMemory (memory : KeyValueListPair CString → RuntimeMemory)
    (pair : KeyValueListPair CString) : Prop :=
  ∀ n < pair.valueList.length + 2, memory pair n = true

variable {memory : KeyValueListPair CString → RuntimeMemory}

theorem throwsOn_eq_false_iff {pair : KeyValueListPair CString} :
    throwsOn memory pair = false ↔
      HasMemory memory pair ∧ ∀ text ∈ pair.key :: pair.valueList, Inflatable text.bytes := by
  unfold throwsOn
  rw [Bool.not_eq_false', TraceMonkeyJSHandle.reduce_isOk]
  rfl

/-- The reduce phase survives exactly if there is memory for every pair it is given, and
every key and value consists of code points in their shortest form, no more than a
string holds. -/
theorem survives_iff_inflatable {n : Nat} (hn : 0 < n) {capAmount : UInt64} {incremental : Bool}
    {file : Option (Records CString)} {map : ShadowKeyMap} {mapOut : Records CString}
    {pairs : List (KeyValueListPair CString)} (hpairs : Enqueues map mapOut capAmount pairs)
    (hopen : (tchdbopen file (openMode incremental)).isSome = true) (env : Hdb CString) :
    Survives (reduceParts n capAmount incremental file map mapOut) (throwsOn memory) pairs env ↔
      ∀ pair ∈ pairs, HasMemory memory pair ∧
        ∀ text ∈ pair.key :: pair.valueList, Inflatable text.bytes := by
  have hopenOut : ∀ e, ((reduceParts n capAmount incremental file map mapOut).openOut e).isSome =
      true := fun _ => Option.isSome_map.trans hopen
  rw [survives_iff (by decide : 0 < 100) hn hopenOut (fun _ _ => rfl) hpairs]
  refine (or_iff_right Bool.false_ne_true).trans ?_
  exact forall₂_congr fun pair _ => throwsOn_eq_false_iff

/-! ## What the driver is given -/

/-- The values of a pair are found in the map output. -/
theorem exists_lookup_of_found {V : Type*} {records : Records V} {key : CString}
    {maxCount keyCount : UInt32} {found : List (Option V)}
    (h : Generator.Yields (lookupStep records key maxCount) keyCount found) {value : V}
    (hvalue : some value ∈ found) : ∃ recordKey, records.lookup recordKey = some value := by
  induction h with
  | stop => cases hvalue
  | silent _ _ ih => exact ih hvalue
  | @item keyCount next x found hstep _ ih =>
    rcases List.mem_cons.mp hvalue with hx | hmem
    · unfold lookupStep at hstep
      split_ifs at hstep with hle
      obtain ⟨rfl, -⟩ := Produce.item.inj hstep
      exact ⟨_, hx.symm⟩
    · exact ih hmem

theorem exists_lookup_of_mem_valueList {V : Type*} {map : ShadowKeyMap} {records : Records V}
    {capAmount : UInt64} {pairs : List (KeyValueListPair V)}
    (h : Enqueues map records capAmount pairs) {pair : KeyValueListPair V} (hpair : pair ∈ pairs)
    {value : V} (hvalue : value ∈ pair.valueList) :
    ∃ recordKey, records.lookup recordKey = some value := by
  have hpairs := h.forall₂
  clear h
  generalize map.entries = es at hpairs
  induction hpairs with
  | nil => cases hpair
  | cons hone _ ih =>
    rcases List.mem_cons.mp hpair with rfl | hmem
    · obtain ⟨-, found, hfound, hlist⟩ := hone
      rw [hlist] at hvalue
      exact exists_lookup_of_found hfound (List.reduceOption_mem_iff.mp hvalue)
    · exact ih hmem

/-! ## What the scripts have written -/

/-- The texts of a call. -/
def MapperLabel.texts {τ : Type*} : MapperLabel τ → List CString
  | .emitLocked _ key value _ => [key, value]
  | .setLocked _ key value => [key, value]
  | .put .. => []

section CompleteRun

variable {τ : Type*} [DecidableEq τ] {ls : List (MapperLabel τ)} {s : MapperState τ}

/-- The keys of the map are texts of calls. -/
theorem exists_text_of_mem_keys (hrun : run MapperState.step MapperState.start ls = some s)
    {key : CString} (hkey : key ∈ s.shadowKeyMap.keys) : ∃ l ∈ ls, key ∈ l.texts := by
  rw [run_shadowKeyMap hrun, keys_incrementAll, List.mem_eraseDups, emittedKeys,
    List.mem_map] at hkey
  obtain ⟨e, he, rfl⟩ := hkey
  obtain ⟨l, hl, hemit⟩ := List.mem_filterMap.mp he
  cases l with
  | emitLocked thread key value shadowKey =>
    obtain rfl := Option.some.inj hemit
    exact ⟨_, hl, List.mem_cons_self ..⟩
  | setLocked | put => cases hemit

/-- The values of the map output are texts of calls. -/
theorem exists_text_of_lookup (hrun : run MapperState.step MapperState.start ls = some s)
    (hdone : s.AllDone) {recordKey value : CString}
    (hvalue : s.mapOut.records.lookup recordKey = some value) : ∃ l ∈ ls, value ∈ l.texts := by
  rw [run_records hrun, lookup_writes_empty] at hvalue
  obtain ⟨thread, hattempt⟩ := exists_attempt_of_landed (mem_of_lastValue hvalue)
  have hrequest := (attempts_perm_requests hrun hdone).mem_iff.mp hattempt
  obtain ⟨l, hl, hleft⟩ := List.mem_filterMap.mp hrequest
  refine ⟨l, hl, ?_⟩
  cases l with
  | emitLocked | setLocked =>
    have hsame := congrArg (fun p => p.2.2) (Option.some.inj hleft)
    exact List.mem_cons_of_mem _ (List.mem_singleton.mpr hsame.symm)
  | put => cases hleft

end CompleteRun

/-- After a map phase on a new output, the reduce phase survives exactly if there is memory
for each of its pairs: they hold what the scripts have emitted and set, and of this the
engine refuses nothing. -/
theorem mapReduce_survives {n : Nat} (hn : 0 < n) {env : MeguroEnvironment} {s : ProgramState n}
    {ls : List (ProgramLabel n)} (hmap : env.incrementalMap = false)
    (h : run (ProgramState.step env) ProgramState.start ls = some s)
    (hended : s.map.master = .ended)
    (htexts : ∀ l ∈ mapCalls ls, ∀ text ∈ l.texts, Emittable text)
    {pairs : List (KeyValueListPair CString)}
    (hpairs : Enqueues s.map.env.shadowKeyMap s.map.env.mapOut.records env.capAmount pairs)
    (hopen : (tchdbopen env.reduceOutFile (openMode env.incrementalReduce)).isSome = true)
    (memory : KeyValueListPair CString → RuntimeMemory) :
    Survives (env.reduceParts n s.map.env) (throwsOn memory) pairs ⟨.unopened, ∅⟩ ↔
      ∀ pair ∈ pairs, HasMemory memory pair := by
  obtain ⟨t, ht, hdone, hshadow, hrecords⟩ := run_mapCalls hmap h hended
  refine (survives_iff_inflatable hn hpairs hopen _).trans ?_
  refine forall₂_congr fun pair hpair => and_iff_left ?_
  rw [hshadow, hrecords] at hpairs
  have hinflatable : ∀ text, (∃ l ∈ mapCalls ls, text ∈ l.texts) → Inflatable text.bytes := by
    rintro text ⟨l, hl, htext⟩
    exact inflatable_of_emittable (htexts l hl text htext)
  refine List.forall_mem_cons.mpr ⟨hinflatable _ ?_, fun value hvalue => hinflatable _ ?_⟩
  · have hkey : pair.key ∈ t.shadowKeyMap.keys := by
      rw [← hpairs.map_key]
      exact List.mem_map_of_mem hpair
    exact exists_text_of_mem_keys ht hkey
  · obtain ⟨recordKey, hlookup⟩ := exists_lookup_of_mem_valueList hpairs hpair hvalue
    exact exists_text_of_lookup ht hdone hlookup

/-- The texts of the run that counts the values of a key are single bytes. -/
theorem texts_countRun (l : MapperLabel (Fin 2)) (hl : l ∈ mapCalls countRun) (text : CString)
    (htext : text ∈ l.texts) : Emittable text := by
  have halone : ∀ l ∈ mapCalls countRun, ∀ text ∈ l.texts,
      (∀ b ∈ text.bytes, b.toNat < 0x80) ∧ text.bytes.length ≤ JSString.maxLength := by
    decide +kernel
  obtain ⟨hbytes, hlength⟩ := halone l hl text htext
  exact emittable_of_inflatable (inflatable_of_alone hbytes hlength)

theorem enqueues_countEnd :
    Enqueues countEnd.map.env.shadowKeyMap countEnd.map.env.mapOut.records 0
      [⟨.ofLiteral "k", [.ofLiteral "3", .ofLiteral "1"]⟩] :=
  Generator.yields_of_collect (show Generator.collect _ 4 _ = _ by decide)

theorem mapReduce_survives_countRun :
    Survives (countEnvironment.reduceParts 2 countEnd.map.env) (throwsOn fun _ _ => true)
      [⟨.ofLiteral "k", [.ofLiteral "3", .ofLiteral "1"]⟩] ⟨.unopened, ∅⟩ :=
  (mapReduce_survives (by decide) rfl (Option.some_get _).symm (by decide) texts_countRun
    enqueues_countEnd rfl _).mpr fun _ _ _ _ => rfl

end Meguro
