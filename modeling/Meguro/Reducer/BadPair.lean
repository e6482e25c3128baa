import Meguro.Mapper.Begin
import Meguro.Phase.Survival
import Meguro.Reducer.Save

/-!
# Pairs the script engine cannot hold

`TraceMonkeyJSHandle::reduce` throws when the engine cannot allocate the key, a
value or the array of a pair. The worker of the map phase catches this exception
around each attempt. The worker of the reduce phase has only the handler of the
exception that ends the queue, so the first bad pair leaves the thread and takes
the process with it.
-/

namespace Meguro

open Transition Generator PhaseState

/-- The reduce phase survives its bad pairs exactly when it has none. -/
theorem survives_iff_no_bad_pair {n : Nat} (hn : 0 < n) {capAmount : UInt64} {incremental : Bool}
    {file : Option (Records CString)} {map : ShadowKeyMap} {mapOut : Records CString}
    {pairs : List (KeyValueListPair CString)} (hpairs : Enqueues map mapOut capAmount pairs)
    (hopen : (tchdbopen file (openMode incremental)).isSome = true)
    (bad : KeyValueListPair CString → Bool) (env : Hdb CString) :
    Survives (reduceParts n capAmount incremental file map mapOut) bad pairs env ↔
      ∀ pair ∈ pairs, bad pair = false := by
  have hopenOut : ∀ e, ((reduceParts n capAmount incremental file map mapOut).openOut e).isSome =
      true := fun _ => Option.isSome_map.trans hopen
  rw [survives_iff (by decide : 0 < 100) hn hopenOut (fun _ _ => rfl) hpairs]
  exact or_iff_right Bool.false_ne_true

/-- The key of a pair whose value is no UTF-8. -/
def brokenKey : CString := .ofLiteral "k"

/-- A byte that begins no UTF-8 character. -/
def brokenValue : CString := ⟨[0xFF], by decide⟩

/-- The map output with this pair alone. -/
def brokenOut : Records CString := (∅ : Records CString).insert brokenKey brokenValue

/-- The parts of the reduce phase over this output, with two workers. -/
def brokenParts : PhaseParts 2 (KeyValueListPair CString) (BeginState CString) ReducerLabel
    (Hdb CString) :=
  reduceParts 2 0 false none (incrementAll [brokenKey]) brokenOut

theorem enqueues_broken :
    Enqueues (incrementAll [brokenKey]) brokenOut 0 [⟨brokenKey, [brokenValue]⟩] :=
  yields_of_collect (show collect _ 3 _ = _ by decide)

theorem survives_broken :
    Survives brokenParts (fun pair => pair.key ≠ brokenKey) [⟨brokenKey, [brokenValue]⟩]
        ⟨.unopened, ∅⟩ ↔
      ∀ pair ∈ [KeyValueListPair.mk brokenKey [brokenValue]],
        decide (pair.key ≠ brokenKey) = false :=
  survives_iff_no_bad_pair (by decide) enqueues_broken rfl _ _

/-- The first worker takes the pair, and its attempt throws. -/
def brokenRun : List
    (PhaseLabel 2 (KeyValueListPair CString) (BeginState CString) ReducerLabel) :=
  let pair := KeyValueListPair.mk brokenKey [brokenValue]
  [.create worker₁, .create worker₂, .openOut, .started worker₁ true, .started worker₂ true,
    .read ⟨[(brokenKey, 0)], 0, []⟩ (.silent ⟨[(brokenKey, 0)], 1, pair.valueList⟩),
    .read ⟨[(brokenKey, 0)], 1, pair.valueList⟩ (.item pair ⟨[], 0, []⟩)] ++
  enqueueSteps pair ++ dequeueSteps worker₁ pair ++ [.attempt worker₁ pair false]

theorem terminated_brokenRun :
    (run (step brokenParts) (start ⟨.unopened, ∅⟩) brokenRun).map (·.terminated) = some true := by
  decide

/-- One pair that the engine cannot hold terminates the process. -/
theorem not_survives_broken :
    ¬ Survives brokenParts (fun _ => true) [⟨brokenKey, [brokenValue]⟩] ⟨.unopened, ∅⟩ := by
  intro h
  obtain ⟨s, hrun, hterminated⟩ := Option.map_eq_some_iff.mp terminated_brokenRun
  have halive : s.terminated = false := h.alive ⟨hrun, by decide⟩
  exact Bool.false_ne_true (halive.symm.trans hterminated)

end Meguro
