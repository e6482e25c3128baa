import Meguro.Text.CString

/-!
# Arguments of native calls

A native callback declares its `const char*` locals without a value and lets
`JS_ConvertArguments` fill them: one local for each `s` of the format, from the
arguments in order, until an argument is missing or does not convert. A local
that was not filled still holds what the stack held.
-/

namespace Meguro

/-- What a word of memory is to code that follows it as a pointer. -/
inductive Pointer (α : Type*)
  | null
  | invalid
  | valid (target : α)
  deriving DecidableEq, Repr

/-- The engine's values and strings: the constants a callback returns, the value of a
string, which may be a null pointer, and the conversions, each of which may fail. -/
structure Engine (V S : Type*) where
  void : V
  null : V
  stringToJsval : Option S → V
  valueToString : V → Option S
  getStringBytes : S → Option CString
  newString : CString → Option S

/-- The locals a callback passes to `JS_ConvertArguments`. -/
inductive Local
  | key
  | val
  | msg
  deriving DecidableEq, Repr

/-- The contents of the locals. -/
abbrev Locals := Local → Pointer CString

/-- What `JS_ConvertArguments` leaves: its result, the locals, and the arguments, whose
strings it roots in their place. -/
structure Converted (V : Type*) where
  ok : Bool
  locals : Locals
  argv : List V

namespace Engine

variable {V S : Type*} (engine : Engine V S)

/-- `JS_ConvertArguments` with the format of one `s` for each target. -/
def convertArguments : List V → List Local → Locals → Converted V
  | argv, [], locals => ⟨true, locals, argv⟩
  | [], _ :: _, locals => ⟨false, locals, []⟩
  | arg :: argv, target :: targets, locals =>
    match engine.valueToString arg with
    | none => ⟨false, locals, arg :: argv⟩
    | some str =>
      let rooted := engine.stringToJsval (some str)
      match engine.getStringBytes str with
      | none => ⟨false, locals, rooted :: argv⟩
      | some bytes =>
        let rest := convertArguments argv targets (Function.update locals target (.valid bytes))
        { rest with argv := rooted :: rest.argv }

/-- The bytes a value converts to. -/
def toBytes (arg : V) : Option CString := (engine.valueToString arg).bind engine.getStringBytes

/-- The value converts to a string. -/
def Converts (arg : V) : Prop := (engine.toBytes arg).isSome = true

instance (arg : V) : Decidable (engine.Converts arg) :=
  inferInstanceAs (Decidable (_ = true))

/-- There is an argument for each of so many targets, and they all convert. -/
def EnoughConvert (argv : List V) (count : Nat) : Prop :=
  count ≤ argv.length ∧ ∀ arg ∈ argv.take count, engine.Converts arg

instance (argv : List V) (count : Nat) : Decidable (engine.EnoughConvert argv count) :=
  inferInstanceAs (Decidable (_ ∧ _))

variable {engine}

theorem ok_convertArguments_cons_of_none {arg : V} (h : engine.toBytes arg = none)
    (argv : List V) (target : Local) (targets : List Local) (locals : Locals) :
    (engine.convertArguments (arg :: argv) (target :: targets) locals).ok = false ∧
      (engine.convertArguments (arg :: argv) (target :: targets) locals).locals = locals := by
  rw [convertArguments]
  cases hstr : engine.valueToString arg with
  | none => exact ⟨rfl, rfl⟩
  | some str =>
    have hbytes : engine.getStringBytes str = none := by simpa [toBytes, hstr] using h
    simp [hbytes]

theorem convertArguments_cons_of_some {arg : V} {bytes : CString}
    (h : engine.toBytes arg = some bytes) (argv : List V) (target : Local)
    (targets : List Local) (locals : Locals) :
    let rest := engine.convertArguments argv targets (Function.update locals target (.valid bytes))
    (engine.convertArguments (arg :: argv) (target :: targets) locals).ok = rest.ok ∧
      (engine.convertArguments (arg :: argv) (target :: targets) locals).locals =
        rest.locals := by
  obtain ⟨str, hstr, hbytes⟩ := Option.bind_eq_some_iff.mp h
  rw [convertArguments, hstr]
  simp [hbytes]

/-- The conversion succeeds exactly when enough arguments convert. -/
theorem ok_convertArguments (argv : List V) (targets : List Local) (locals : Locals) :
    (engine.convertArguments argv targets locals).ok = true ↔
      engine.EnoughConvert argv targets.length := by
  induction targets generalizing argv locals with
  | nil => simp [convertArguments, EnoughConvert]
  | cons target targets ih =>
    cases argv with
    | nil => simp [convertArguments, EnoughConvert]
    | cons arg argv =>
      cases h : engine.toBytes arg with
      | none =>
        have harg : ¬ engine.Converts arg := by simp [Converts, h]
        simp [(ok_convertArguments_cons_of_none h argv target targets locals).1, EnoughConvert,
          harg]
      | some bytes =>
        have harg : engine.Converts arg := by simp [Converts, h]
        rw [(convertArguments_cons_of_some h argv target targets locals).1, ih]
        simp [EnoughConvert, harg]

/-- A local no converted argument was meant for keeps its content. -/
theorem locals_convertArguments_of_notMem {argv : List V} {targets : List Local}
    {locals : Locals} {x : Local}
    (hx : x ∉ targets.take (argv.takeWhile fun arg => engine.Converts arg).length) :
    (engine.convertArguments argv targets locals).locals x = locals x := by
  induction targets generalizing argv locals with
  | nil => rw [convertArguments]
  | cons target targets ih =>
    cases argv with
    | nil => rw [convertArguments]
    | cons arg argv =>
      cases h : engine.toBytes arg with
      | none => rw [(ok_convertArguments_cons_of_none h argv target targets locals).2]
      | some bytes =>
        have harg : engine.Converts arg := by simp [Converts, h]
        rw [List.takeWhile_cons_of_pos (by simpa using harg), List.length_cons,
          List.take_succ_cons, List.mem_cons, not_or] at hx
        rw [(convertArguments_cons_of_some h argv target targets locals).2, ih hx.2,
          Function.update_of_ne hx.1]

/-- After a successful conversion every target points to a string. -/
theorem locals_convertArguments_of_mem {argv : List V} {targets : List Local} {locals : Locals}
    (hok : (engine.convertArguments argv targets locals).ok = true) {x : Local}
    (hx : x ∈ targets) :
    ∃ bytes, (engine.convertArguments argv targets locals).locals x = .valid bytes := by
  induction targets generalizing argv locals with
  | nil => simp at hx
  | cons target targets ih =>
    cases argv with
    | nil => simp [convertArguments] at hok
    | cons arg argv =>
      cases h : engine.toBytes arg with
      | none =>
        rw [(ok_convertArguments_cons_of_none h argv target targets locals).1] at hok
        cases hok
      | some bytes =>
        obtain ⟨hrest, hlocals⟩ := convertArguments_cons_of_some h argv target targets locals
        rw [hrest] at hok
        rw [hlocals]
        by_cases hmem : x ∈ targets
        · exact ih hok hmem
        · obtain rfl : x = target := by simpa [hmem] using hx
          refine ⟨bytes, ?_⟩
          rw [locals_convertArguments_of_notMem fun hin => hmem (List.mem_of_mem_take hin),
            Function.update_self]

end Engine

end Meguro
