import Meguro.Mapper.Emit
import Meguro.Phase.Delivery

/-!
# The map phase

`Mapper::begin` reads the input paths one after the other. A path whose iterator
cannot be initialized is skipped, and the end of a path is an exception that
leads to the next one; with a key pattern only the pairs of that key are
enqueued. When `map_master` has joined its workers, every selected pair has been
attempted exactly once.
-/

namespace Meguro

open Transition Interleaving Generator

/-- `KeyValuePair`. -/
structure KeyValuePair where
  key : CString
  value : CString
  deriving DecidableEq

/-- What the iterator of a path does: `initialize` throws, or `next` returns these
pairs and then throws. -/
inductive InputPath
  | initException
  | pairs (ps : List KeyValuePair)
  deriving DecidableEq

/-- The variables of the reading loop: the paths from `input_path_index_` on, or
the rest of the present iterator and the paths after it. -/
structure ReadState where
  iterator : Option (List KeyValuePair)
  paths : List InputPath
  deriving DecidableEq

/-- The test of a pair against `key_pattern`. -/
def matchesPattern (keyPattern : Option CString) (pair : KeyValuePair) : Bool :=
  match keyPattern with
  | some key => pair.key = key
  | none => true

/-- One turn of the loops of `Mapper::begin`. -/
def readStep (keyPattern : Option CString) (s : ReadState) : Produce ReadState KeyValuePair :=
  match s.iterator with
  | some (pair :: rest) =>
    if matchesPattern keyPattern pair then .item pair { s with iterator := some rest }
    else .silent { s with iterator := some rest }
  | some [] => .silent { s with iterator := none }
  | none =>
    match s.paths with
    | .pairs ps :: paths => .silent ⟨some ps, paths⟩
    | .initException :: paths => .silent ⟨none, paths⟩
    | [] => .stop

/-- The pairs of the readable paths that match the pattern. -/
def selectedPairs (keyPattern : Option CString) (paths : List InputPath) : List KeyValuePair :=
  paths.flatMap fun
    | .initException => []
    | .pairs ps => ps.filter (matchesPattern keyPattern)

/-- The rest of an iterator is read to its end. -/
theorem yields_iterator {keyPattern : Option CString} {paths : List InputPath}
    {items : List KeyValuePair} (h : Yields (readStep keyPattern) ⟨none, paths⟩ items)
    (ps : List KeyValuePair) : Yields (readStep keyPattern) ⟨some ps, paths⟩
      (ps.filter (matchesPattern keyPattern) ++ items) := by
  induction ps with
  | nil => exact .silent rfl h
  | cons pair ps ih =>
    cases hmatch : matchesPattern keyPattern pair with
    | true =>
      rw [List.filter_cons_of_pos hmatch]
      exact .item (if_pos hmatch) ih
    | false =>
      rw [List.filter_cons_of_neg (by rw [hmatch]; nofun)]
      exact .silent (if_neg (by rw [hmatch]; nofun)) ih

/-- The reading loop ends and hands out the selected pairs. -/
theorem yields_readStep (keyPattern : Option CString) (paths : List InputPath) :
    Yields (readStep keyPattern) ⟨none, paths⟩ (selectedPairs keyPattern paths) := by
  induction paths with
  | nil => exact .stop rfl
  | cons path paths ih =>
    cases path with
    | initException => exact .silent rfl ih
    | pairs ps => exact .silent rfl (yields_iterator ih ps)

/-! ## The phase -/

/-- A map output that is not open yet, and a new map. -/
def MapperState.unopened {τ : Type*} : MapperState τ :=
  ⟨OrderedMap.empty, ⟨.unopened, ∅⟩, fun _ => none⟩

/-- The parts of `map_master` and `threaded_map`. A failed put throws a
`MapperException`, which `threaded_map` does not catch; it catches the
`JSHandleException` of an attempt. -/
def mapParts (n : Nat) (incremental : Bool) (file : Option (Records CString))
    (keyPattern : Option CString) (paths : List InputPath) :
    PhaseParts n KeyValuePair ReadState (MapperLabel (Fin n)) (MapperState (Fin n)) where
  capacity := 1000
  firstRead := ⟨none, paths⟩
  read := readStep keyPattern
  openOut s := (tchdbopen file (openMode incremental)).map fun records =>
    { s with mapOut := ⟨.opened, records⟩ }
  closeOut s := { s with mapOut := { s.mapOut with status := .closed } }
  act s w a := if a.thread = w then s.step a else none
  fatal
    | .put _ _ _ ok => !ok
    | _ => false
  catches := true
  status s := s.mapOut.status
  quiet s w := (s.pending w).isNone
  status_openOut h := by
    obtain ⟨records, -, rfl⟩ := Option.map_eq_some_iff.mp h
    rfl
  status_act h := by
    rw [Option.ite_none_right_eq_some] at h
    exact MapperState.step_status h.2
  quiet_openOut h w := by
    obtain ⟨records, -, rfl⟩ := Option.map_eq_some_iff.mp h
    rfl
  quiet_act h v hv := by
    obtain ⟨rfl, hstep⟩ := (Option.ite_none_right_eq_some ..).mp h
    rw [MapperState.step_pending hstep hv]
  quiet_closeOut := rfl

/-- Every selected pair is attempted exactly once: the attempts are the selected
pairs, dealt to the workers in input order. -/
def MappedOnce {n : Nat} (keyPattern : Option CString) (paths : List InputPath)
    (attempts : List (Fin n × KeyValuePair)) : Prop :=
  ∃ dealt : List (Fin n × KeyValuePair), dealt.map Prod.snd = selectedPairs keyPattern paths ∧
    attempts.Perm dealt ∧ ∀ w, ofOwner w attempts = ofOwner w dealt

/-- When `map_master` has joined its workers, every selected pair has been mapped once. -/
theorem mappedOnce_of_joined {n : Nat} (hn : 0 < n) {incremental : Bool}
    {file : Option (Records CString)} {keyPattern : Option CString} {paths : List InputPath}
    {ls : List (PhaseLabel n KeyValuePair ReadState (MapperLabel (Fin n)))}
    {s : PhaseState n KeyValuePair ReadState (MapperState (Fin n))}
    (h : run (PhaseState.step (mapParts n incremental file keyPattern paths))
      (PhaseState.start MapperState.unopened) ls = some s) (hjoined : s.Joined) :
    MappedOnce keyPattern paths (attempted ls) := by
  obtain ⟨hread, howner⟩ := PhaseState.run_joined hn (fun _ => rfl) h hjoined
  exact ⟨handed ls, hread.unique (yields_readStep keyPattern paths),
    perm_of_ofOwner_eq howner, howner⟩

/-! ## A run of two workers -/

/-- A pair of literals. -/
def pairOf (key value : String) : KeyValuePair := ⟨.ofLiteral key, .ofLiteral value⟩

/-- A path that cannot be read, and one with a pair that does not match `k`. -/
def twoPaths : List InputPath :=
  [.initException, .pairs [pairOf "k" "1", pairOf "x" "2", pairOf "k" "3"]]

/-- The two workers. -/
def worker₁ : Fin 2 := 0

def worker₂ : Fin 2 := 1

/-- The master's `enqueue`, with nobody in its way. -/
def enqueueSteps {α σ A : Type*} (item : α) : List (PhaseLabel 2 α σ A) :=
  [.queue (.push none item), .queue (.broadcastEmpty none)]

/-- A worker's `next`, with an item in the queue. -/
def dequeueSteps {α σ A : Type*} (w : Fin 2) (item : α) : List (PhaseLabel 2 α σ A) :=
  [.next w, .queue (.pop (some w) item), .queue (.broadcastFull (some w) item)]

/-- The end of the loop, the workers' last calls of `next`, the joins and the close. -/
def closeSteps {α σ A : Type*} (pos : σ) : List (PhaseLabel 2 α σ A) :=
  [.read pos .stop, .queue (.setDone none true), .queue (.broadcastEmpty none),
    .next worker₁, .queue (.throwEmpty (some worker₁)), .next worker₂,
    .queue (.throwEmpty (some worker₂)), .join worker₁, .join worker₂, .closeOut]

/-- The first worker waits for its first pair, and its attempt fails; the second
worker starts late, takes the last pair and emits its key and value. -/
def twoWorkersRun : List (PhaseLabel 2 KeyValuePair ReadState (MapperLabel (Fin 2))) :=
  let first := pairOf "k" "1"
  let other := pairOf "x" "2"
  let last := pairOf "k" "3"
  [.create worker₁, .create worker₂, .openOut, .started worker₁ true, .next worker₁,
    .queue (.sleepEmpty (some worker₁)),
    .read ⟨none, twoPaths⟩ (.silent ⟨none, twoPaths.tail⟩),
    .read ⟨none, twoPaths.tail⟩ (.silent ⟨some [first, other, last], []⟩),
    .read ⟨some [first, other, last], []⟩ (.item first ⟨some [other, last], []⟩)] ++
  enqueueSteps first ++
  [.queue (.pop (some worker₁) first), .queue (.broadcastFull (some worker₁) first),
    .attempt worker₁ first false,
    .read ⟨some [other, last], []⟩ (.silent ⟨some [last], []⟩),
    .read ⟨some [last], []⟩ (.item last ⟨some [], []⟩)] ++
  enqueueSteps last ++ [.started worker₂ true] ++ dequeueSteps worker₂ last ++
  [.attempt worker₂ last true,
    .act worker₂ (.emitLocked worker₂ last.key last.value last.key),
    .act worker₂ (.put worker₂ last.key last.value true), .returned worker₂ last,
    .read ⟨some [], []⟩ (.silent ⟨none, []⟩)] ++
  closeSteps ⟨none, []⟩

theorem twoWorkersRun_isSome :
    (run (PhaseState.step (mapParts 2 false none (some (.ofLiteral "k")) twoPaths))
      (PhaseState.start MapperState.unopened) twoWorkersRun).isSome = true := by
  decide

theorem mappedOnce_twoWorkersRun :
    MappedOnce (some (.ofLiteral "k")) twoPaths (attempted twoWorkersRun) := by
  have hjoined : ((run (PhaseState.step (mapParts 2 false none (some (.ofLiteral "k")) twoPaths))
      (PhaseState.start MapperState.unopened) twoWorkersRun).get twoWorkersRun_isSome).Joined :=
    .inr (by decide)
  exact mappedOnce_of_joined (by decide) (Option.some_get _).symm hjoined

end Meguro
