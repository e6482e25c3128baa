import Meguro.Phase.Order
import Meguro.Reducer.Begin

/-!
# The reduce phase

The scripts of `reduce_master` call `Reducer::save`, which puts a key and a value
into the reduce output; a put that fails is reported and changes nothing. The
master reads its pairs from the shadow key map and the map output, and a worker
does not catch the exception of a failed attempt.
-/

namespace Meguro

/-- A call of `Reducer::save`, and whether its put succeeded. -/
inductive ReducerLabel
  | save (key value : CString) (ok : Bool)
  deriving DecidableEq

/-- The put of `Reducer::save`, which fails on a handle that is not open. -/
def saveStep (db : Hdb CString) : ReducerLabel → Option (Hdb CString)
  | .save key value ok =>
    if ok = true → db.status = .opened then some (if ok then db.put key value else db) else none

theorem saveStep_status {db db' : Hdb CString} {l : ReducerLabel}
    (h : saveStep db l = some db') : db'.status = db.status := by
  obtain ⟨key, value, ok⟩ := l
  obtain ⟨-, hput⟩ := Option.ite_none_right_eq_some.mp h
  rw [← Option.some.inj hput]
  cases ok <;> rfl

/-- The parts of `reduce_master` and `threaded_reduce`, over what the map phase
left in the shadow key map and the map output. -/
def reduceParts (n : Nat) (capAmount : UInt64) (incremental : Bool)
    (file : Option (Records CString)) (map : ShadowKeyMap) (mapOut : Records CString) :
    PhaseParts n (KeyValueListPair CString) (BeginState CString) ReducerLabel (Hdb CString) where
  capacity := 100
  firstRead := ⟨map.entries, 0, []⟩
  read := beginStep mapOut capAmount
  openOut _ := (tchdbopen file (openMode incremental)).map (⟨.opened, ·⟩)
  closeOut db := { db with status := .closed }
  act db _ l := saveStep db l
  fatal _ := false
  catches := false
  status db := db.status
  quiet _ _ := true
  status_openOut h := by
    obtain ⟨records, -, rfl⟩ := Option.map_eq_some_iff.mp h
    rfl
  status_act := saveStep_status
  quiet_openOut _ _ := rfl
  quiet_act _ _ _ := rfl
  quiet_closeOut := rfl

end Meguro
