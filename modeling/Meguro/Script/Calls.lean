import Meguro.Input.Files
import Meguro.Script.StringCache

/-!
# The calls of a script

`TraceMonkeyJSHandle::map` and `reduce` make an engine string of every text they
pass on and throw where the engine refuses one, because of its bytes or because the
memory of the runtime is at its limit. What a script can emit, in whatever way it got
the string, is exactly what the engine takes back as long as there is memory.
-/

namespace Meguro

open CodePoint

/-- `JSHandleException`. -/
structure JSHandleException where
  what : String
  deriving DecidableEq

/-- Whether the runtime has memory for the objects a call makes, one after the other:
`JS_NewRuntime` got the limit in `runtime_memory_size`. -/
abbrev RuntimeMemory := Nat → Bool

/-- The string of an argument, or what is thrown when `JS_NewString` returns a null pointer. -/
def newArgument (memory : Bool) (text : CString) : Except JSHandleException (List UInt16) :=
  match inflateString text.bytes with
  | none => .error ⟨"Unable to allocate string in TraceMonkey"⟩
  | some chars =>
    if chars.length > JSString.maxLength ∨ memory = false then
      .error ⟨"Unable to allocate string in TraceMonkey"⟩
    else .ok chars

/-- `TraceMonkeyJSHandle::map`: the arguments of the call. -/
def TraceMonkeyJSHandle.map (memory : RuntimeMemory) (key value : CString) :
    Except JSHandleException (List UInt16 × List UInt16) := do
  let keyJstr ← newArgument (memory 0) key
  let valueJstr ← newArgument (memory 1) value
  return (keyJstr, valueJstr)

/-- The loop of `TraceMonkeyJSHandle::reduce` that fills the array. -/
def newArray (memory : RuntimeMemory) :
    List CString → Except JSHandleException (List (List UInt16))
  | [] => return []
  | str :: values => do
    let elemStr ← newArgument (memory 0) str
    let array ← newArray (fun n => memory (n + 1)) values
    return elemStr :: array

/-- `TraceMonkeyJSHandle::reduce`: the arguments of the call. -/
def TraceMonkeyJSHandle.reduce (memory : RuntimeMemory) (key : CString) (values : List CString) :
    Except JSHandleException (List UInt16 × List (List UInt16)) :=
  if memory 0 then do
    let array ← newArray (fun n => memory (n + 1)) values
    let keyJstr ← newArgument (memory (values.length + 1)) key
    return (keyJstr, array)
  else .error ⟨"Unable to allocate array in Tracemonkey"⟩

/-! ## What the engine takes -/

/-- The engine makes a string of these bytes. -/
def Inflatable (bytes : List UInt8) : Prop :=
  ∃ chars, inflateString bytes = some chars ∧ chars.length ≤ JSString.maxLength

/-- The bytes of code points with no more units than a string holds. -/
theorem inflatable_iff {bytes : List UInt8} : Inflatable bytes ↔
    ∃ vs : List Nat, (∀ v ∈ vs, IsCodePoint v) ∧ bytes = vs.flatMap utf8 ∧
      (vs.flatMap inflated).length ≤ JSString.maxLength := by
  constructor
  · rintro ⟨chars, hchars, hlength⟩
    obtain ⟨vs, hvs, hbytes, rfl⟩ := exists_codePoints_of_inflateString hchars
    exact ⟨vs, hvs, hbytes, hlength⟩
  · rintro ⟨vs, hvs, rfl, hlength⟩
    have hbytes := length_flatMap_utf8_le vs
    unfold JSString.maxLength at hlength
    exact ⟨_, inflateString_codePoints hvs (by omega), hlength⟩

theorem newArgument_isOk {memory : Bool} {text : CString} :
    (newArgument memory text).isOk = true ↔ memory = true ∧ Inflatable text.bytes := by
  unfold newArgument Inflatable
  cases inflateString text.bytes with
  | none => simp [Except.isOk, Except.toBool]
  | some chars =>
    dsimp only
    split_ifs with hrefused
    · refine iff_of_false Bool.false_ne_true ?_
      rintro ⟨hmemory, _, hchars, hlength⟩
      cases hchars
      rcases hrefused with hlong | hfull
      · exact absurd hlong (Nat.not_lt_of_le hlength)
      · rw [hmemory] at hfull
        cases hfull
    · obtain ⟨hlength, hmemory⟩ := not_or.mp hrefused
      exact iff_of_true rfl
        ⟨eq_true_of_ne_false hmemory, chars, rfl, Nat.le_of_not_lt hlength⟩

/-- A computation whose second part succeeds on every result, or on none. -/
theorem isOk_bind {ε α β : Type} {x : Except ε α} {f : α → Except ε β} {P : Prop}
    (h : ∀ a, (f a).isOk = true ↔ P) : (x >>= f).isOk = true ↔ x.isOk = true ∧ P := by
  cases x with
  | error e => simp [bind, Except.bind, Except.isOk, Except.toBool]
  | ok a => simp [bind, Except.bind, Except.isOk, Except.toBool, ← h a]

/-- Every value has memory and is taken. -/
theorem newArray_isOk {memory : RuntimeMemory} {values : List CString} :
    (newArray memory values).isOk = true ↔
      (∀ n < values.length, memory n = true) ∧ ∀ str ∈ values, Inflatable str.bytes := by
  induction values generalizing memory with
  | nil => exact iff_of_true rfl ⟨fun n hn => absurd hn (Nat.not_lt_zero n), by simp⟩
  | cons str values ih =>
    have hbind : (newArray memory (str :: values)).isOk = true ↔
        (newArgument (memory 0) str).isOk = true ∧
          (newArray (fun n => memory (n + 1)) values).isOk = true := by
      rw [newArray]
      apply isOk_bind
      intro elemStr
      exact (isOk_bind fun array => iff_of_true rfl trivial).trans (and_iff_left trivial)
    rw [hbind, newArgument_isOk, ih, List.forall_mem_cons, List.length_cons, Nat.forall_lt_succ_left,
      and_and_and_comm]

/-- `map` throws exactly if there is no memory or the engine refuses the key or the value. -/
theorem TraceMonkeyJSHandle.map_isOk {memory : RuntimeMemory} {key value : CString} :
    (TraceMonkeyJSHandle.map memory key value).isOk = true ↔
      (memory 0 = true ∧ Inflatable key.bytes) ∧ memory 1 = true ∧ Inflatable value.bytes := by
  rw [TraceMonkeyJSHandle.map, ← newArgument_isOk, ← newArgument_isOk]
  apply isOk_bind
  intro keyJstr
  exact (isOk_bind fun valueJstr => iff_of_true rfl trivial).trans (and_iff_left trivial)

/-- `reduce` throws exactly if there is no memory for the array and all the strings, or the
engine refuses the key or a value. -/
theorem TraceMonkeyJSHandle.reduce_isOk {memory : RuntimeMemory} {key : CString}
    {values : List CString} :
    (TraceMonkeyJSHandle.reduce memory key values).isOk = true ↔
      (∀ n < values.length + 2, memory n = true) ∧
        ∀ text ∈ key :: values, Inflatable text.bytes := by
  have hbind : (TraceMonkeyJSHandle.reduce memory key values).isOk = true ↔
      memory 0 = true ∧ (newArray (fun n => memory (n + 1)) values).isOk = true ∧
        (newArgument (memory (values.length + 1)) key).isOk = true := by
    unfold TraceMonkeyJSHandle.reduce
    cases memory 0 with
    | false => exact iff_of_false Bool.false_ne_true fun h => Bool.false_ne_true h.1
    | true =>
      refine Iff.trans ?_ (and_iff_right rfl).symm
      apply isOk_bind
      intro array
      exact (isOk_bind fun keyJstr => iff_of_true rfl trivial).trans (and_iff_left trivial)
  have hall : (∀ n < values.length + 2, memory n = true) ↔ memory 0 = true ∧
      (∀ n < values.length, memory (n + 1) = true) ∧ memory (values.length + 1) = true := by
    rw [Nat.forall_lt_succ_left, Nat.forall_lt_succ_right]
  rw [hbind, hall, newArray_isOk, newArgument_isOk, List.forall_mem_cons]
  tauto

/-! ## What a script can emit -/

theorem CString.cut_bytes (text : CString) : CString.cut text.bytes = text := by
  apply CString.ext
  apply List.takeWhile_eq_self_iff.mpr
  intro b hb
  exact decide_eq_true fun h => text.nulFree (h ▸ hb)

/-- A text that a callback may read: the bytes of a string of some reachable runtime, up
to the first NUL. -/
def Emittable (text : CString) : Prop :=
  ∃ steps rt str bytes, Transition.run JSRuntime.step JSRuntime.empty steps = some rt ∧
    (rt.getStringBytes str).1 = some bytes ∧ text = CString.cut bytes

/-- Only the code point 0 has a NUL among its bytes. -/
theorem ne_zero_of_mem_utf8 {v : Nat} (hv : IsCodePoint v) (hzero : v ≠ 0) {b : UInt8}
    (hb : b ∈ utf8 v) : b ≠ 0 := by
  unfold IsCodePoint at hv
  rw [ne_eq, ← UInt8.toNat_inj, UInt8.toNat_zero]
  unfold utf8 at hb
  split_ifs at hb <;> simp only [List.mem_cons, List.not_mem_nil, or_false] at hb
  all_goals
    rcases hb with rfl | rfl | rfl | rfl <;> rw [UInt8.toNat_ofNat'] <;> omega

/-- The bytes in front of the first NUL are those of the code points in front of it. -/
theorem takeWhile_flatMap_utf8 {vs : List Nat} (hvs : ∀ v ∈ vs, IsCodePoint v) :
    (vs.flatMap utf8).takeWhile (· ≠ 0) = (vs.takeWhile (· ≠ 0)).flatMap utf8 := by
  induction vs with
  | nil => rfl
  | cons v vs ih =>
    obtain ⟨hv, hrest⟩ := List.forall_mem_cons.mp hvs
    by_cases hzero : v = 0
    · subst hzero
      rfl
    · have hbytes : ∀ b ∈ utf8 v, decide (b ≠ 0) = true := fun b hb =>
        decide_eq_true (ne_zero_of_mem_utf8 hv hzero hb)
      have hkept : (v :: vs).takeWhile (· ≠ 0) = v :: vs.takeWhile (· ≠ 0) :=
        List.takeWhile_cons_of_pos (decide_eq_true hzero)
      rw [List.flatMap_cons, List.takeWhile_append_of_pos hbytes, ih hrest, hkept,
        List.flatMap_cons]

/-- The units of a text have no more units in front of the first NUL. -/
theorem length_takeWhile_inflated (vs : List Nat) :
    ((vs.takeWhile (· ≠ 0)).flatMap inflated).length ≤ (vs.flatMap inflated).length := by
  conv_rhs => rw [← List.takeWhile_append_dropWhile (p := (· ≠ 0)) (l := vs)]
  rw [List.flatMap_append, List.length_append]
  exact Nat.le_add_right ..

/-- A stand-in has as many units as what it stands for. -/
theorem length_inflated (v : Nat) : (inflated v).length = (utf16 v).length := by
  unfold inflated utf16 standIn
  split_ifs <;> simp only [List.length_cons, List.length_nil] <;> omega

/-- The bytes of every string of a reachable runtime can be inflated. -/
theorem JSRuntime.Coherent.inflatable {origin : Nat → Option (List UInt8)} {rt : JSRuntime}
    (h : rt.Coherent origin) {str : Nat} {bytes : List UInt8}
    (hbytes : (rt.getStringBytes str).1 = some bytes) : Inflatable bytes := by
  cases hlive : rt.strings str with
  | none =>
    unfold JSRuntime.getStringBytes at hbytes
    rw [hlive] at hbytes
    cases hbytes
  | some s =>
    have hlength : s.chars.length ≤ JSString.maxLength := by
      have hcell := h str
      rw [hlive] at hcell
      exact hcell.1.2
    rw [h.getStringBytes_eq hlive] at hbytes
    cases horigin : origin str with
    | some made =>
      rw [horigin, Option.some_or] at hbytes
      obtain rfl := Option.some.inj hbytes
      exact ⟨_, (h.inflateString_origin hlive horigin).1, hlength⟩
    | none =>
      rw [horigin, Option.none_or] at hbytes
      obtain ⟨cs, hchars, rfl⟩ := exists_text_of_deflateString hbytes
      refine inflatable_iff.mpr ⟨cs.map Char.toNat, ?_, (flatMap_utf8_toNat cs).symm, ?_⟩
      · exact fun v hv => (isScalar_of_mem_map hv).1
      · have hsame : ((cs.map Char.toNat).flatMap inflated).length = s.chars.length := by
          rw [hchars, ← flatMap_utf16_toNat, List.length_flatMap, List.length_flatMap]
          simp only [length_inflated]
        rw [hsame]
        exact hlength

/-- The engine takes back what it gives out. -/
theorem inflatable_of_emittable {text : CString} (h : Emittable text) : Inflatable text.bytes := by
  obtain ⟨steps, rt, str, bytes, hrun, hbytes, rfl⟩ := h
  obtain ⟨vs, hvs, rfl, hlength⟩ :=
    inflatable_iff.mp ((JSRuntime.coherent_of_run hrun).inflatable hbytes)
  refine inflatable_iff.mpr ⟨vs.takeWhile (· ≠ 0), ?_, takeWhile_flatMap_utf8 hvs, ?_⟩
  · exact fun v hv => hvs v ((List.takeWhile_sublist _).mem hv)
  · exact Nat.le_trans (length_takeWhile_inflated vs) hlength

/-- A text the engine can make a string of is emitted by a script that passes it on. -/
theorem emittable_of_inflatable {text : CString} (h : Inflatable text.bytes) : Emittable text := by
  obtain ⟨chars, hchars, hlength⟩ := h
  obtain ⟨rt, hrun, hlive⟩ := JSRuntime.exists_run_newString hchars hlength
  have hbytes := (JSRuntime.coherent_of_run hrun).getStringBytes_eq hlive
  exact ⟨_, rt, 0, text.bytes, hrun, hbytes, text.cut_bytes.symm⟩

/-- A script can emit exactly the texts that the engine can make a string of. -/
theorem emittable_iff_inflatable (text : CString) : Emittable text ↔ Inflatable text.bytes :=
  ⟨inflatable_of_emittable, emittable_of_inflatable⟩

/-- A text of single bytes. -/
theorem inflatable_of_alone {bytes : List UInt8} (h : ∀ b ∈ bytes, b.toNat < 0x80)
    (hlength : bytes.length ≤ JSString.maxLength) : Inflatable bytes := by
  have hbytes : (bytes.map UInt8.toNat).flatMap utf8 = bytes := by
    rw [List.flatMap_map]
    have hone : bytes.flatMap (fun b => utf8 b.toNat) = bytes.flatMap fun b => [b] := by
      refine List.flatMap_congr fun b hb => ?_
      unfold utf8
      rw [if_pos (h b hb), UInt8.ofNat_toNat]
    rw [hone, List.flatMap_singleton']
  refine inflatable_iff.mpr ⟨bytes.map UInt8.toNat, ?_, hbytes.symm, ?_⟩
  · intro v hv
    obtain ⟨b, hb, rfl⟩ := List.mem_map.mp hv
    exact Nat.lt_trans (h b hb) (by decide)
  · have hunits := length_flatMap_inflated_le (bytes.map UInt8.toNat)
    rw [hbytes] at hunits
    exact Nat.le_trans hunits hlength

end Meguro
