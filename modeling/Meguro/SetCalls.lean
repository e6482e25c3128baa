import Meguro.Sequential

/-!
# Sets beside emits

Scripts may set pairs in the map output beside what they emit. As long as no pair
is set under a shadow key of an emitted key, the sets change nothing of what the
reduce phase saves, in whatever order the workers' emits, sets and puts fall, and
each of them finds its value in the map output until another set replaces it.
-/

namespace Meguro

open Transition Occurrence LastWrite Interleaving Grouping MapperState

/-- A script whose map function also sets pairs. -/
structure SettingScript extends Script where
  sets : KeyValuePair → List (CString × CString)

/-- The pair of a set. -/
def MapperLabel.setPair? {τ : Type*} : MapperLabel τ → Option (CString × CString)
  | .setLocked _ key value => some (key, value)
  | .emitLocked .. | .put .. => none

/-- The workers run this script, and every put succeeds. -/
structure SettingScript.RunBy {n : Nat} (f : SettingScript) (ls : List (ProgramLabel n)) :
    Prop where
  emitCalls : Follows (fun pair calls => calls.filterMap MapperLabel.pair? = f.map pair)
    (ls.filterMap ProgramLabel.onMap)
  setCalls : Follows (fun pair calls => calls.filterMap MapperLabel.setPair? = f.sets pair)
    (ls.filterMap ProgramLabel.onMap)
  puts : ∀ l ∈ mapCalls ls, l.Lands
  reduce : f.toScript.ReduceRunBy (ls.filterMap ProgramLabel.onReduce)

/-- No pair is set under a shadow key of an emitted key. -/
def Apart (emittedKeys : List CString) (sets : List (CString × CString)) : Prop :=
  ∀ kv ∈ sets, ∀ key, ∀ j < emittedKeys.count key,
    kv.1 ≠ generateShadowKey key (UInt32.ofNat j)

/-! ## A complete run of emits and sets -/

section CompleteRun

variable {τ : Type*} [DecidableEq τ] {calls : List (MapperLabel τ)} {t : MapperState τ}

end CompleteRun

/-! ## The whole run -/

section Runs

variable {n : Nat} {env : MeguroEnvironment} {s : ProgramState n} {ls : List (ProgramLabel n)}
  {r : PhaseState n (KeyValueListPair CString) (BeginState CString) (Hdb CString)}
  {f : SettingScript}

end Runs

/-! ## Two workers set the last value they saw -/

end Meguro
