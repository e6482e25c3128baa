import Meguro.Mapper.Emit
import Meguro.Reducer.Save
import Meguro.Script.Arguments

/-!
# The callbacks of a script

The six functions a script can call convert their arguments, look up the handle
behind the `Meguro` object and act on its mapper, its reducer or its dictionary.
None looks at the result of the conversion, and all report success to the engine,
so a failed conversion is never reported. A new handle does not set its mapper
and reducer either: a worker gives it one of the two, and the guard in front of
the other reads what the memory held before.
-/

namespace Meguro

/-- What the callbacks can change: the map, the two output databases, the counters of
the mapper, and the messages `log` prints. -/
structure NativeState where
  shadowKeyMap : ShadowKeyMap
  mapOut : Hdb CString
  reduceOut : Hdb CString
  emitCount : UInt64
  setCount : UInt64
  emitSizeEstimate : UInt64
  logged : List CString

/-- `MapperException`. -/
structure MapperException where
  what : String
  deriving DecidableEq, Repr

/-- Whether a database takes a put that finds it open. -/
abbrev Accepts := Hdb CString → CString → CString → Bool

/-- `tchdbput`: what it leaves, unless it fails. -/
def tchdbput (accepts : Accepts) (db : Hdb CString) (key value : CString) :
    Option (Hdb CString) :=
  if db.status = .opened ∧ accepts db key value = true then some (db.put key value) else none

/-! ## The methods the callbacks call -/

/-- A method given the two strings of a callback: its result, and the state it leaves. -/
abbrev Method := CString → CString → NativeState → Except MapperException Unit × NativeState

/-- The put of a mapper method. -/
def putMapOut (accepts : Accepts) (recordKey value : CString) (s : NativeState) :
    Except MapperException Unit × NativeState :=
  match tchdbput accepts s.mapOut recordKey value with
  | some db => (.ok (), { s with mapOut := db })
  | none => (.error ⟨"Could not tchdbput"⟩, s)

/-- `Mapper::emit`. -/
def Mapper.emit (accepts : Accepts) : Method := fun key value s =>
  let issued := s.shadowKeyMap.incrementAndReturnShadowKey key
  putMapOut accepts issued.2 value
    { s with emitCount := s.emitCount + 1, shadowKeyMap := issued.1 }

/-- `Mapper::set`. -/
def Mapper.set (accepts : Accepts) : Method := fun key value s =>
  putMapOut accepts key value { s with setCount := s.setCount + 1 }

/-- `Mapper::emit_noop`. -/
def Mapper.emitNoop : Method := fun key value s =>
  let size := UInt64.ofNat key.bytes.length + UInt64.ofNat value.bytes.length
  (.ok (), { s with
    emitCount := s.emitCount + 1
    emitSizeEstimate := s.emitSizeEstimate + size })

/-- `Reducer::save`, which prints "Error Saving" after a failed put and returns. -/
def Reducer.save (accepts : Accepts) : Method := fun key value s =>
  (.ok (), { s with reduceOut := (tchdbput accepts s.reduceOut key value).getD s.reduceOut })

/-- `TraceMonkeyJSHandle::log`. -/
def TraceMonkeyJSHandle.log (msg : CString) (s : NativeState) : NativeState :=
  { s with logged := s.logged ++ [msg] }

/-- `Dictionary::get` on what was loaded. -/
abbrev Dictionary := CString → Option CString

section Steps

variable {τ : Type*} [DecidableEq τ] (accepts : Accepts) {s : NativeState} {m : MapperState τ}
  {thread : τ} {key value : CString}

/-- A method of the mapper, run without interference, is the put of one thread of the
concurrent model. -/
theorem step_of_putMapOut (hmap : m.shadowKeyMap = s.shadowKeyMap) (hout : m.mapOut = s.mapOut)
    (hpending : m.pending thread = some (key, value)) :
    ∃ ok n, m.step (.put thread key value ok) = some n ∧ n.pending thread = none ∧
      n.shadowKeyMap = (putMapOut accepts key value s).2.shadowKeyMap ∧
      n.mapOut = (putMapOut accepts key value s).2.mapOut := by
  rw [putMapOut]
  cases hput : tchdbput accepts s.mapOut key value with
  | none =>
    refine ⟨false, _, if_pos ⟨hpending, fun h => nomatch h⟩, ?_, hmap, hout⟩
    exact Function.update_self ..
  | some db =>
    obtain ⟨⟨hopen, -⟩, hdb⟩ := Option.ite_none_right_eq_some.mp hput
    refine ⟨true, _, if_pos ⟨hpending, fun _ => hout ▸ hopen⟩, ?_, hmap, ?_⟩
    · exact Function.update_self ..
    · exact (congrArg (·.put key value) hout).trans (Option.some.inj hdb)

/-- `Mapper::emit` run alone is its two steps in the concurrent model. -/
theorem run_of_emit (hmap : m.shadowKeyMap = s.shadowKeyMap) (hout : m.mapOut = s.mapOut)
    (hpending : m.pending thread = none) :
    ∃ ok n shadowKey, Transition.run MapperState.step m
        [.emitLocked thread key value shadowKey, .put thread shadowKey value ok] = some n ∧
      n.pending thread = none ∧
      n.shadowKeyMap = (Mapper.emit accepts key value s).2.shadowKeyMap ∧
      n.mapOut = (Mapper.emit accepts key value s).2.mapOut := by
  let issued := m.shadowKeyMap.incrementAndReturnShadowKey key
  let locked : MapperState τ := { m with
    shadowKeyMap := issued.1
    pending := Function.update m.pending thread (some (issued.2, value)) }
  have hlocked : m.step (.emitLocked thread key value issued.2) = some locked :=
    if_pos ⟨hpending, rfl⟩
  have hbusy : locked.pending thread = some (issued.2, value) := Function.update_self ..
  let t : NativeState :=
    { s with emitCount := s.emitCount + 1, shadowKeyMap := s.shadowKeyMap.increment key }
  have hlockedMap : locked.shadowKeyMap = t.shadowKeyMap := congrArg (·.increment key) hmap
  obtain ⟨ok, n, hput, hn⟩ := step_of_putMapOut accepts hlockedMap hout hbusy
  have hissued : issued.2 = (s.shadowKeyMap.incrementAndReturnShadowKey key).2 :=
    congrArg (fun map => (ShadowKeyMap.incrementAndReturnShadowKey map key).2) hmap
  refine ⟨ok, n, issued.2, Transition.run_cons.mpr ⟨locked, hlocked, ?_⟩, ?_⟩
  · exact Transition.run_cons.mpr ⟨n, hput, rfl⟩
  · rw [hissued] at hn
    exact hn

/-- `Mapper::set` run alone is its two steps in the concurrent model. -/
theorem run_of_set (hmap : m.shadowKeyMap = s.shadowKeyMap) (hout : m.mapOut = s.mapOut)
    (hpending : m.pending thread = none) :
    ∃ ok n, Transition.run MapperState.step m
        [.setLocked thread key value, .put thread key value ok] = some n ∧
      n.pending thread = none ∧
      n.shadowKeyMap = (Mapper.set accepts key value s).2.shadowKeyMap ∧
      n.mapOut = (Mapper.set accepts key value s).2.mapOut := by
  let locked : MapperState τ :=
    { m with pending := Function.update m.pending thread (some (key, value)) }
  have hlocked : m.step (.setLocked thread key value) = some locked := if_pos hpending
  have hbusy : locked.pending thread = some (key, value) := Function.update_self ..
  let t : NativeState := { s with setCount := s.setCount + 1 }
  have hlockedMap : locked.shadowKeyMap = t.shadowKeyMap := hmap
  obtain ⟨ok, n, hput, hn⟩ := step_of_putMapOut accepts hlockedMap hout hbusy
  refine ⟨ok, n, Transition.run_cons.mpr ⟨locked, hlocked, ?_⟩, hn⟩
  exact Transition.run_cons.mpr ⟨n, hput, rfl⟩

/-- `Reducer::save` is a step of the reduce phase's scripts. -/
theorem step_of_save : ∃ ok, saveStep s.reduceOut (.save key value ok) =
    some (Reducer.save accepts key value s).2.reduceOut := by
  rw [Reducer.save]
  cases hput : tchdbput accepts s.reduceOut key value with
  | none => exact ⟨false, rfl⟩
  | some db =>
    obtain ⟨⟨hopen, -⟩, hdb⟩ := Option.ite_none_right_eq_some.mp hput
    exact ⟨true, (if_pos fun _ => hopen).trans hdb⟩

end Steps

/-! ## Handles -/

/-- The fields the callbacks read. A live object is the only one of its class in the
process. -/
structure JSHandle where
  dictionary : Option Dictionary
  mapper : Pointer Unit
  reducer : Pointer Unit

/-- The two fields of a handle that guard a callback. -/
inductive Guard
  | mapper
  | reducer
  deriving DecidableEq, Repr

/-- The field a guard reads. -/
def JSHandle.field (handle : JSHandle) : Guard → Pointer Unit
  | .mapper => handle.mapper
  | .reducer => handle.reducer

/-- `new TraceMonkeyJSHandle(env)`: the constructor sets the environment only. -/
def newTraceMonkeyJSHandle (dictionary : Option Dictionary) (memory : JSHandle) : JSHandle :=
  { memory with dictionary }

/-- The handle as it is used: `threaded_map` gives it a mapper, `threaded_reduce` a reducer,
and `parse_javascript_file` neither. -/
def handleFor (dictionary : Option Dictionary) (memory : JSHandle) : Option Guard → JSHandle
  | some .mapper => { newTraceMonkeyJSHandle dictionary memory with mapper := .valid () }
  | some .reducer => { newTraceMonkeyJSHandle dictionary memory with reducer := .valid () }
  | none => newTraceMonkeyJSHandle dictionary memory

theorem field_handleFor_of_ne (dictionary : Option Dictionary) (memory : JSHandle)
    {given : Option Guard} {guard : Guard} (h : given ≠ some guard) :
    (handleFor dictionary memory given).field guard = memory.field guard := by
  rcases given with _ | given
  · cases guard <;> rfl
  · cases given <;> cases guard <;> first | rfl | exact absurd rfl h

/-! ## The callbacks -/

/-- How a native call ends: it follows a bad pointer, an exception leaves it, or it returns
its result for the engine and a value for the script. -/
inductive CallOutcome (V : Type*)
  | undefined
  | threw (exception : MapperException) (state : NativeState)
  | returned (ok : Bool) (rval : V) (state : NativeState)

/-- The end of a call that returns this value after a method. -/
def CallOutcome.ofMethod {V : Type*} (rval : V) :
    Except MapperException Unit × NativeState → CallOutcome V
  | (.ok _, s) => .returned true rval s
  | (.error exception, s) => .threw exception s

theorem CallOutcome.state_ofMethod {V : Type*} {rval v : V}
    {result : Except MapperException Unit × NativeState} {ok : Bool} {s : NativeState}
    (h : ofMethod rval result = .returned ok v s) : result.2 = s := by
  obtain ⟨_ | _, t⟩ := result
  · cases h
  · cases h
    rfl

/-- What a handle, the arguments of a call, the first contents of its locals and the state
give. -/
abbrev NativeCall (V : Type*) := JSHandle → List V → Locals → NativeState → CallOutcome V

section Callbacks

variable {V S : Type*} (engine : Engine V S) (accepts : Accepts)

/-- The shape of `emit`, `sset`, `emit_noop` and `save`: unless the guard is null, the method
of its object is called with the strings the locals point to. -/
def guardedCall (guard : Guard) (method : Method) : NativeCall V := fun handle argv locals s =>
  let converted := engine.convertArguments argv [.key, .val] locals
  match handle.field guard, converted.locals .key, converted.locals .val with
  | .null, _, _ => .returned true engine.void s
  | .valid _, .valid key, .valid val => .ofMethod engine.void (method key val s)
  | _, _, _ => .undefined

/-- `emit`. -/
def emit : NativeCall V := guardedCall engine .mapper (Mapper.emit accepts)

/-- `sset`. -/
def sset : NativeCall V := guardedCall engine .mapper (Mapper.set accepts)

/-- `emit_noop`. -/
def emitNoop : NativeCall V := guardedCall engine .mapper Mapper.emitNoop

/-- `save`. -/
def save : NativeCall V := guardedCall engine .reducer (Reducer.save accepts)

/-- `slog`. -/
def slog : NativeCall V := fun _ argv locals s =>
  match (engine.convertArguments argv [.msg] locals).locals .msg with
  | .valid msg => .returned true engine.void (TraceMonkeyJSHandle.log msg s)
  | _ => .undefined

/-- `dictionary`. -/
def dictionary : NativeCall V := fun handle argv locals s =>
  match handle.dictionary, (engine.convertArguments argv [.key] locals).locals .key with
  | none, _ => .returned true engine.null s
  | some dict, .valid key =>
    match dict key with
    | some value => .returned true (engine.stringToJsval (engine.newString value)) s
    | none => .returned true engine.null s
  | some _, _ => .undefined

end Callbacks

/-- The functions of the `Meguro` object. -/
inductive Callback
  | emit
  | slog
  | save
  | dictionary
  | emitNoop
  | sset
  deriving DecidableEq, Repr

namespace Callback

variable {V S : Type*}

/-- The call of a callback. -/
def call (engine : Engine V S) (accepts : Accepts) : Callback → NativeCall V
  | .emit => Meguro.emit engine accepts
  | .slog => Meguro.slog engine
  | .save => Meguro.save engine accepts
  | .dictionary => Meguro.dictionary engine
  | .emitNoop => Meguro.emitNoop engine
  | .sset => Meguro.sset engine accepts

/-- The locals a callback has converted into. -/
def targets : Callback → List Local
  | .emit | .save | .emitNoop | .sset => [.key, .val]
  | .slog => [.msg]
  | .dictionary => [.key]

/-- The field of the handle in front of the effect of a callback. -/
def guard? : Callback → Option Guard
  | .emit | .emitNoop | .sset => some .mapper
  | .save => some .reducer
  | .slog | .dictionary => none

/-- The method behind the guard of a callback. -/
def method? (accepts : Accepts) : Callback → Option Method
  | .emit => some (Mapper.emit accepts)
  | .emitNoop => some Mapper.emitNoop
  | .sset => some (Mapper.set accepts)
  | .save => some (Reducer.save accepts)
  | .slog | .dictionary => none

/-- A callback with a guard has the shape shared by the four. -/
theorem call_of_guard? (engine : Engine V S) (accepts : Accepts) {callback : Callback}
    {guard : Guard} (h : callback.guard? = some guard) :
    callback.targets = [.key, .val] ∧ ∃ method, callback.method? accepts = some method ∧
      callback.call engine accepts = guardedCall engine guard method := by
  cases callback <;> cases h <;> exact ⟨rfl, _, rfl, rfl⟩

end Callback

section Calls

variable {V S : Type*} {engine : Engine V S} {accepts : Accepts} {handle : JSHandle}
  {argv : List V} {locals : Locals} {s : NativeState} {guard : Guard} {method : Method}

/-- Behind a null guard a call returns without an effect. -/
theorem guardedCall_of_null (h : handle.field guard = .null) :
    guardedCall engine guard method handle argv locals s = .returned true engine.void s := by
  simp [guardedCall, h]

/-- A call behind a bad pointer has no meaning. -/
theorem guardedCall_of_invalid (h : handle.field guard = .invalid) :
    guardedCall engine guard method handle argv locals s = .undefined := by
  simp [guardedCall, h]

/-- Behind a live object, with both arguments converted, the method is called. -/
theorem guardedCall_of_live (method : Method) (locals : Locals) (s : NativeState)
    (h : handle.field guard = .valid ()) (hconvert : engine.EnoughConvert argv 2) :
    ∃ key val, guardedCall engine guard method handle argv locals s =
      .ofMethod engine.void (method key val s) := by
  have hok := (engine.ok_convertArguments argv [.key, .val] locals).mpr hconvert
  obtain ⟨key, hkey⟩ := Engine.locals_convertArguments_of_mem hok (x := .key) (by simp)
  obtain ⟨val, hval⟩ := Engine.locals_convertArguments_of_mem hok (x := .val) (by simp)
  exact ⟨key, val, by simp only [guardedCall, h, hkey, hval]⟩

/-- No callback reports a failure to the engine. -/
theorem call_ne_failure (callback : Callback) (rval : V) (t : NativeState) :
    callback.call engine accepts handle argv locals s ≠ .returned false rval t := by
  have hguarded (guard : Guard) (method : Method) :
      guardedCall engine guard method handle argv locals s ≠ .returned false rval t := by
    rw [guardedCall]
    split
    · simp
    · rename_i key val _ _ _
      obtain ⟨result, t⟩ := method key val s
      cases result <;> simp [CallOutcome.ofMethod]
    · simp
  cases callback with
  | emit => exact hguarded .mapper (Mapper.emit accepts)
  | save => exact hguarded .reducer (Reducer.save accepts)
  | emitNoop => exact hguarded .mapper Mapper.emitNoop
  | sset => exact hguarded .mapper (Mapper.set accepts)
  | slog =>
    change slog engine handle argv locals s ≠ _
    rw [slog]
    split <;> simp
  | dictionary =>
    change dictionary engine handle argv locals s ≠ _
    rw [dictionary]
    split
    · simp
    · split <;> simp
    · simp

end Calls

/-! ## What the methods do to a new state -/

/-- The state before the first call of a run. -/
def NativeState.start : NativeState where
  shadowKeyMap := OrderedMap.empty
  mapOut := ⟨.opened, ∅⟩
  reduceOut := ⟨.opened, ∅⟩
  emitCount := 0
  setCount := 0
  emitSizeEstimate := 0
  logged := []

theorem putMapOut_counts (accepts : Accepts) (recordKey value : CString) (s : NativeState) :
    (putMapOut accepts recordKey value s).2.emitCount = s.emitCount ∧
      (putMapOut accepts recordKey value s).2.setCount = s.setCount := by
  rw [putMapOut]
  split <;> exact ⟨rfl, rfl⟩

/-- When the databases take every put, each method leaves its trace in a new state. -/
theorem method_start_ne {callback : Callback} {method : Method}
    (h : callback.method? (fun _ _ _ => true) = some method) (key val : CString) :
    (method key val .start).2 ≠ .start := by
  intro heq
  cases callback with
  | emit =>
    cases h
    have hcount := congrArg NativeState.emitCount heq
    rw [Mapper.emit, (putMapOut_counts ..).1] at hcount
    exact absurd hcount (by decide : (0 + 1 : UInt64) ≠ 0)
  | sset =>
    cases h
    have hcount := congrArg NativeState.setCount heq
    rw [Mapper.set, (putMapOut_counts ..).2] at hcount
    exact absurd hcount (by decide : (0 + 1 : UInt64) ≠ 0)
  | emitNoop =>
    cases h
    exact absurd (congrArg NativeState.emitCount heq) (by decide : (0 + 1 : UInt64) ≠ 0)
  | save =>
    cases h
    have hrecords : (∅ : Records CString).insert key val = ∅ :=
      congrArg (fun s => s.reduceOut.records) heq
    have hmem : key ∈ (∅ : Records CString).insert key val := by simp
    rw [hrecords] at hmem
    exact absurd hmem (Finmap.notMem_empty)
  | slog => cases h
  | dictionary => cases h

/-! ## When a callback keeps to its arguments and its phase -/

/-- The contract of a callback, called with these arguments through a handle allocated in this
memory: whatever the databases accept, the locals held and the state is, a failed conversion
is reported and changes nothing; without its object the callback changes nothing; and the
conversion fills only locals whose arguments converted. -/
structure KeepsContract {V S : Type*} (engine : Engine V S) (dict : Option Dictionary)
    (memory : JSHandle) (given : Option Guard) (callback : Callback) (argv : List V) : Prop where
  reports : ∀ (accepts : Accepts) (locals : Locals) (s : NativeState),
    (engine.convertArguments argv callback.targets locals).ok = false →
      ∃ rval, callback.call engine accepts (handleFor dict memory given) argv locals s =
        .returned false rval s
  guarded : ∀ (accepts : Accepts) (locals : Locals) (s : NativeState) (guard : Guard),
    callback.guard? = some guard → given ≠ some guard →
      ∃ ok rval, callback.call engine accepts (handleFor dict memory given) argv locals s =
        .returned ok rval s
  fills : ∀ (locals : Locals) (x : Local),
    x ∉ callback.targets.take (argv.takeWhile fun arg => engine.Converts arg).length →
      (engine.convertArguments argv callback.targets locals).locals x = locals x

/-- A callback keeps its contract exactly when its arguments convert, and the object it acts on
was given to the handle or the memory of the handle happened to hold a null pointer to it. -/
theorem keepsContract_iff {V S : Type*} (engine : Engine V S) (dict : Option Dictionary)
    (memory : JSHandle) (given : Option Guard) (callback : Callback) (argv : List V) :
    KeepsContract engine dict memory given callback argv ↔
      engine.EnoughConvert argv callback.targets.length ∧
        ∀ guard, callback.guard? = some guard →
          given = some guard ∨ memory.field guard = .null := by
  constructor
  · intro h
    have hconvert : engine.EnoughConvert argv callback.targets.length := by
      by_contra hnot
      rw [← engine.ok_convertArguments argv callback.targets fun _ => .null,
        Bool.not_eq_true] at hnot
      obtain ⟨rval, hcall⟩ := h.reports (fun _ _ _ => true) _ .start hnot
      exact call_ne_failure callback rval _ hcall
    refine ⟨hconvert, fun guard hguard => ?_⟩
    by_contra hnot
    obtain ⟨hgiven, hfield⟩ := not_or.mp hnot
    rw [← field_handleFor_of_ne dict memory hgiven] at hfield
    obtain ⟨htargets, method, hmethod, hshape⟩ :=
      Callback.call_of_guard? engine (fun _ _ _ => true) hguard
    obtain ⟨ok, rval, hcall⟩ :=
      h.guarded (fun _ _ _ => true) (fun _ => .null) .start guard hguard hgiven
    rw [hshape] at hcall
    cases hcase : (handleFor dict memory given).field guard with
    | null => exact hfield hcase
    | invalid =>
      rw [guardedCall_of_invalid hcase] at hcall
      cases hcall
    | valid =>
      rw [htargets] at hconvert
      obtain ⟨key, val, heffect⟩ :=
        guardedCall_of_live method (fun _ => .null) .start hcase hconvert
      rw [heffect] at hcall
      exact method_start_ne hmethod key val (CallOutcome.state_ofMethod hcall)
  · rintro ⟨hconvert, hguard⟩
    refine ⟨fun accepts locals s hfail => ?_, fun accepts locals s guard hg hgiven => ?_,
      fun locals x => Engine.locals_convertArguments_of_notMem⟩
    · rw [(engine.ok_convertArguments argv callback.targets locals).mpr hconvert] at hfail
      cases hfail
    · have hnull := (hguard guard hg).resolve_left hgiven
      rw [← field_handleFor_of_ne dict memory hgiven] at hnull
      obtain ⟨-, method, -, hshape⟩ :=
        Callback.call_of_guard? engine accepts hg
      exact ⟨true, engine.void, hshape ▸ guardedCall_of_null hnull⟩

/-- The values of a script that are strings or stand for the absence of one. -/
inductive Value
  | void
  | null
  | string (text : Option CString)

/-- An engine on these values, with memory for every string. -/
def engine : Engine Value CString where
  void := .void
  null := .null
  stringToJsval := .string
  valueToString
    | .void => some (.ofLiteral "undefined")
    | .null => some (.ofLiteral "null")
    | .string text => text
  getStringBytes := some
  newString := some

/-- `Meguro.emit("a")` in a mapper returns success after its conversion failed, and
`Meguro.save("a", "b")` in a mapper follows whatever word the memory of its handle held. -/
theorem not_keepsContract_mapper :
    ¬ KeepsContract engine none ⟨none, .null, .null⟩ (some .mapper) .emit
        [.string (some (.ofLiteral "a"))] ∧
      ¬ KeepsContract engine none ⟨none, .null, .invalid⟩ (some .mapper) .save
        [.string (some (.ofLiteral "a")), .string (some (.ofLiteral "b"))] := by
  constructor
  · intro h
    have hfail : (engine.convertArguments [.string (some (.ofLiteral "a"))]
        Callback.emit.targets fun _ => .null).ok = false := rfl
    obtain ⟨rval, hcall⟩ := h.reports (fun _ _ _ => true) _ .start hfail
    exact call_ne_failure .emit rval _ hcall
  · intro h
    obtain ⟨ok, rval, hcall⟩ :=
      h.guarded (fun _ _ _ => true) (fun _ => .null) .start .reducer rfl (by decide)
    rw [Callback.call, save, guardedCall_of_invalid rfl] at hcall
    cases hcall

end Meguro
