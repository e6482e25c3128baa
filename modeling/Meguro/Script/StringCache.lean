import Meguro.Core.Transition
import Meguro.Script.Inflate

/-!
# The cache of deflated strings

The engine keeps the bytes a string was made of, and the bytes a string was once
deflated to, until the string is finalized. A script that passes on a string it
was given passes on its bytes, also those no deflating would give. The cache goes
unnoticed exactly on strings that were made of the UTF-8 of a plain text.
-/

namespace Meguro

open CodePoint

/-- `JSString`: the characters, and the `DEFLATED` flag. -/
structure JSString where
  chars : List UInt16
  deflated : Bool
  deriving DecidableEq

/-- `JSString::MAX_LENGTH`. -/
def JSString.maxLength : Nat := 2 ^ 28 - 1

/-- The strings of a runtime by their addresses, and its `deflatedStringCache`. -/
structure JSRuntime where
  strings : Nat → Option JSString
  deflatedStringCache : Nat → Option (List UInt8)

namespace JSRuntime

def empty : JSRuntime := ⟨fun _ => none, fun _ => none⟩

/-- `js_NewString`, which takes a free cell. -/
def newFlat (rt : JSRuntime) (str : Nat) (chars : List UInt16) : Option JSRuntime :=
  if chars.length > JSString.maxLength ∨ rt.strings str ≠ none then none
  else some { rt with strings := Function.update rt.strings str (some ⟨chars, false⟩) }

/-- An entry of the cache, and the flag of its string. -/
def cacheBytes (rt : JSRuntime) (str : Nat) (s : JSString) (bytes : List UInt8) : JSRuntime where
  strings := Function.update rt.strings str (some { s with deflated := true })
  deflatedStringCache := Function.update rt.deflatedStringCache str (some bytes)

/-- `js_SetStringBytes`. -/
def setStringBytes (rt : JSRuntime) (str : Nat) (bytes : List UInt8) : JSRuntime :=
  match rt.strings str with
  | none => rt
  | some s => rt.cacheBytes str s bytes

/-- `JS_NewString`. -/
def newString (rt : JSRuntime) (str : Nat) (bytes : List UInt8) : Option JSRuntime :=
  match inflateString bytes with
  | none => none
  | some chars => (rt.newFlat str chars).map (·.setStringBytes str bytes)

/-- `js_GetStringBytes`: the bytes, or none for a null pointer. -/
def getStringBytes (rt : JSRuntime) (str : Nat) : Option (List UInt8) × JSRuntime :=
  match rt.strings str with
  | none => (none, rt)
  | some s =>
    match rt.deflatedStringCache str with
    | some bytes => (some bytes, rt)
    | none =>
      match deflateString s.chars with
      | some bytes => (some bytes, rt.cacheBytes str s bytes)
      | none => (none, rt)

/-- `js_FinalizeStringRT`, which purges the cache if the flag is set. -/
def finalizeString (rt : JSRuntime) (str : Nat) : Option JSRuntime :=
  match rt.strings str with
  | none => none
  | some s => some
    { strings := Function.update rt.strings str none
      deflatedStringCache :=
        if s.deflated then Function.update rt.deflatedStringCache str none
        else rt.deflatedStringCache }

end JSRuntime

/-- What happens to the strings: the program makes one of bytes, the script makes one,
the program asks for the bytes of one, and the collector finalizes one. -/
inductive StringStep
  | newString (str : Nat) (bytes : List UInt8)
  | newFlat (str : Nat) (chars : List UInt16)
  | getStringBytes (str : Nat)
  | finalizeString (str : Nat)

/-- One step of the runtime. -/
def JSRuntime.step (rt : JSRuntime) : StringStep → Option JSRuntime
  | .newString str bytes => rt.newString str bytes
  | .newFlat str chars => rt.newFlat str chars
  | .getStringBytes str => if rt.strings str = none then none else some (rt.getStringBytes str).2
  | .finalizeString str => rt.finalizeString str

/-! ## Origins -/

/-- What a step does to the record of which string was made of which bytes. -/
def originStep (origin : Nat → Option (List UInt8)) : StringStep → Nat → Option (List UInt8)
  | .newString str bytes => Function.update origin str (some bytes)
  | .newFlat str _ => Function.update origin str none
  | .getStringBytes _ => origin
  | .finalizeString str => Function.update origin str none

/-- The bytes the strings were made of, after these steps. -/
def origins (steps : List StringStep) : Nat → Option (List UInt8) :=
  steps.foldl originStep fun _ => none

theorem origins_snoc (steps : List StringStep) (l : StringStep) :
    origins (steps ++ [l]) = originStep (origins steps) l :=
  List.foldl_concat ..

/-! ## Coherence -/

/-- The cached bytes of a string: those it was made of, or else those it is deflated to. -/
def CellCoherent (origin : Option (List UInt8)) (cell : Option JSString)
    (cached : Option (List UInt8)) : Prop :=
  match cell with
  | none => cached = none ∧ origin = none
  | some s => (s.deflated = cached.isSome ∧ s.chars.length ≤ JSString.maxLength) ∧
    match origin with
    | some bytes => cached = some bytes ∧ inflateString bytes = some s.chars
    | none => ∀ bytes, cached = some bytes → deflateString s.chars = some bytes

/-- Every cell is coherent. -/
def JSRuntime.Coherent (origin : Nat → Option (List UInt8)) (rt : JSRuntime) : Prop :=
  ∀ str, CellCoherent (origin str) (rt.strings str) (rt.deflatedStringCache str)

variable {origin : Nat → Option (List UInt8)} {rt rt' : JSRuntime} {str : Nat}

/-- A change at one address. -/
theorem JSRuntime.Coherent.update (h : rt.Coherent origin) {made : Option (List UInt8)}
    {cell : Option JSString} {cached : Option (List UInt8)}
    (hcell : CellCoherent made cell cached) :
    JSRuntime.Coherent (Function.update origin str made)
      ⟨Function.update rt.strings str cell, Function.update rt.deflatedStringCache str cached⟩ := by
  intro other
  dsimp only
  by_cases hsame : other = str
  · subst hsame
    simp only [Function.update_self]
    exact hcell
  · simp only [Function.update_of_ne hsame]
    exact h other

theorem JSRuntime.newFlat_eq_some {chars : List UInt16} : rt.newFlat str chars = some rt' ↔
    (chars.length ≤ JSString.maxLength ∧ rt.strings str = none) ∧
      { rt with strings := Function.update rt.strings str (some ⟨chars, false⟩) } = rt' := by
  unfold newFlat
  rw [Option.ite_none_left_eq_some, not_or, not_not, Nat.not_lt, Option.some.injEq]

/-- A new string of the script. -/
theorem JSRuntime.Coherent.newFlat {chars : List UInt16} (h : rt.Coherent origin)
    (hstep : rt.newFlat str chars = some rt') :
    rt'.Coherent (Function.update origin str none) := by
  obtain ⟨⟨hlength, hempty⟩, rfl⟩ := JSRuntime.newFlat_eq_some.mp hstep
  have hfree := h str
  rw [hempty] at hfree
  have hcache : rt.deflatedStringCache =
      Function.update rt.deflatedStringCache str none := by
    rw [Function.eq_update_self_iff]
    exact hfree.1
  rw [hcache]
  exact h.update ⟨⟨rfl, hlength⟩, fun bytes hbytes => nomatch hbytes⟩

/-- A new string of the program. -/
theorem JSRuntime.Coherent.newString {bytes : List UInt8} (h : rt.Coherent origin)
    (hstep : rt.newString str bytes = some rt') :
    rt'.Coherent (Function.update origin str (some bytes)) := by
  unfold JSRuntime.newString at hstep
  cases hchars : inflateString bytes with
  | none =>
    rw [hchars] at hstep
    cases hstep
  | some chars =>
    rw [hchars] at hstep
    obtain ⟨flat, hflat, rfl⟩ := Option.map_eq_some_iff.mp hstep
    obtain ⟨⟨hlength, -⟩, rfl⟩ := JSRuntime.newFlat_eq_some.mp hflat
    unfold JSRuntime.setStringBytes JSRuntime.cacheBytes
    simp only [Function.update_self, Function.update_idem]
    exact h.update ⟨⟨rfl, hlength⟩, rfl, hchars⟩

/-- The bytes of a string are asked for. -/
theorem JSRuntime.Coherent.getStringBytes (h : rt.Coherent origin) (str : Nat) :
    (rt.getStringBytes str).2.Coherent origin := by
  unfold JSRuntime.getStringBytes
  cases hcell : rt.strings str with
  | none => exact h
  | some s =>
    cases hcached : rt.deflatedStringCache str with
    | some bytes => exact h
    | none =>
      dsimp only
      cases hbytes : deflateString s.chars with
      | none => exact h
      | some bytes =>
        have hcoherent := h str
        rw [hcell, hcached] at hcoherent
        have hnone : origin str = none := by
          cases horigin : origin str with
          | none => rfl
          | some made =>
            rw [horigin] at hcoherent
            exact nomatch hcoherent.2.1
        have horigin : origin = Function.update origin str none := by
          rw [Function.eq_update_self_iff]
          exact hnone
        have hcell : CellCoherent none (some { s with deflated := true }) (some bytes) :=
          ⟨⟨rfl, hcoherent.1.2⟩, fun other hother => Option.some.inj hother ▸ hbytes⟩
        rw [horigin]
        exact h.update hcell

/-- A string is finalized. -/
theorem JSRuntime.Coherent.finalizeString (h : rt.Coherent origin)
    (hstep : rt.finalizeString str = some rt') :
    rt'.Coherent (Function.update origin str none) := by
  unfold JSRuntime.finalizeString at hstep
  cases hcell : rt.strings str with
  | none =>
    rw [hcell] at hstep
    cases hstep
  | some s =>
    rw [hcell] at hstep
    cases hstep
    have hpurged : (if s.deflated then Function.update rt.deflatedStringCache str none
        else rt.deflatedStringCache) = Function.update rt.deflatedStringCache str none := by
      by_cases hflag : s.deflated = true
      · exact if_pos hflag
      · have hcoherent := h str
        rw [hcell] at hcoherent
        have hnone : rt.deflatedStringCache str = none := by
          cases hcached : rt.deflatedStringCache str with
          | none => rfl
          | some bytes =>
            rw [hcached] at hcoherent
            exact absurd hcoherent.1.1 hflag
        rw [if_neg hflag, Function.eq_update_self_iff]
        exact hnone
    rw [hpurged]
    exact h.update ⟨rfl, rfl⟩

/-- One step keeps the strings coherent. -/
theorem JSRuntime.Coherent.step (h : rt.Coherent origin) {l : StringStep}
    (hstep : rt.step l = some rt') : rt'.Coherent (originStep origin l) := by
  cases l with
  | newString str bytes => exact h.newString hstep
  | newFlat str chars => exact h.newFlat hstep
  | getStringBytes str =>
    obtain ⟨-, hnext⟩ := Option.ite_none_left_eq_some.mp hstep
    exact Option.some.inj hnext ▸ h.getStringBytes str
  | finalizeString str => exact h.finalizeString hstep

/-- The strings are coherent after every run. -/
theorem JSRuntime.coherent_of_run {steps : List StringStep}
    (hrun : Transition.run JSRuntime.step JSRuntime.empty steps = some rt) :
    rt.Coherent (origins steps) := by
  refine Transition.run_history (I := fun past rt => rt.Coherent (origins past)) ?_ ?_ hrun
  · intro str
    exact ⟨rfl, rfl⟩
  · intro past rt l rt' h hstep
    rw [origins_snoc]
    exact h.step hstep

/-! ## The bytes of a string -/

/-- The bytes of a string are those it was made of, or else those it is deflated to. -/
theorem JSRuntime.Coherent.getStringBytes_eq (h : rt.Coherent origin) {s : JSString}
    (hlive : rt.strings str = some s) :
    (rt.getStringBytes str).1 = (origin str).or (deflateString s.chars) := by
  have hcell := h str
  rw [hlive] at hcell
  unfold JSRuntime.getStringBytes
  rw [hlive]
  dsimp only
  cases horigin : origin str with
  | some bytes =>
    rw [horigin] at hcell
    rw [hcell.2.1]
    rfl
  | none =>
    rw [horigin] at hcell
    cases hcached : rt.deflatedStringCache str with
    | some bytes => exact (hcell.2 bytes hcached).symm
    | none =>
      dsimp only
      cases hbytes : deflateString s.chars <;> rfl

/-- A string the program made is inflated from its bytes, which are not too many. -/
theorem JSRuntime.Coherent.inflateString_origin (h : rt.Coherent origin) {s : JSString}
    (hlive : rt.strings str = some s) {bytes : List UInt8} (horigin : origin str = some bytes) :
    inflateString bytes = some s.chars ∧ bytes.length < 2 ^ 64 := by
  have hcell := h str
  rw [hlive, horigin] at hcell
  obtain ⟨⟨-, hlength⟩, -, hchars⟩ := hcell
  obtain ⟨vs, -, rfl, hunits⟩ := exists_codePoints_of_inflateString hchars
  have hbytes := length_flatMap_utf8_le vs
  unfold JSString.maxLength at hlength
  rw [← hunits] at hbytes
  exact ⟨hchars, by omega⟩

/-- In every reachable runtime, whatever was asked for and finalized before, the bytes of
a string are those the program made it of, or else those it is deflated to. -/
theorem JSRuntime.getStringBytes_of_run {steps : List StringStep} {s : JSString}
    (hrun : Transition.run JSRuntime.step JSRuntime.empty steps = some rt)
    (hlive : rt.strings str = some s) :
    (rt.getStringBytes str).1 = (origins steps str).or (deflateString s.chars) :=
  (coherent_of_run hrun).getStringBytes_eq hlive

/-- A runtime in which one string was made of these bytes. -/
theorem JSRuntime.exists_run_newString {bytes : List UInt8} {chars : List UInt16}
    (hchars : inflateString bytes = some chars) (hlength : chars.length ≤ JSString.maxLength) :
    ∃ rt, Transition.run JSRuntime.step JSRuntime.empty [.newString 0 bytes] = some rt ∧
      rt.strings 0 = some ⟨chars, true⟩ := by
  let flat : JSRuntime :=
    { empty with strings := Function.update empty.strings 0 (some ⟨chars, false⟩) }
  have hflat : empty.newFlat 0 chars = some flat := newFlat_eq_some.mpr ⟨⟨hlength, rfl⟩, rfl⟩
  have hstep : empty.newString 0 bytes = some (flat.setStringBytes 0 bytes) := by
    unfold newString
    rw [hchars]
    exact congrArg (Option.map _) hflat
  refine ⟨_, Transition.run_cons.mpr ⟨_, hstep, Transition.run_nil _⟩, ?_⟩
  unfold setStringBytes cacheBytes
  simp only [flat, Function.update_self]

/-- The bytes of a surrogate come back, though a surrogate is not deflated. -/
theorem JSRuntime.getStringBytes_surrogate :
    ∃ rt, Transition.run JSRuntime.step JSRuntime.empty [.newString 0 [0xED, 0xA0, 0x80]] = some rt ∧
      (rt.getStringBytes 0).1 = some [0xED, 0xA0, 0x80] ∧ deflateString [0xD800] = none := by
  have hcode : ∀ v ∈ [0xD800], IsCodePoint v := by decide
  have hchars : inflateString [0xED, 0xA0, 0x80] = some [0xD800] :=
    inflateString_codePoints hcode (by decide)
  obtain ⟨rt, hrun, hlive⟩ := exists_run_newString hchars (by decide)
  exact ⟨rt, hrun, getStringBytes_of_run hrun hlive, by decide⟩

/-- The cache goes unnoticed on a string exactly if the script made it, or the program
made it of the UTF-8 of a plain text. -/
theorem JSRuntime.getStringBytes_eq_deflateString_iff {steps : List StringStep} {s : JSString}
    (hrun : Transition.run JSRuntime.step JSRuntime.empty steps = some rt)
    (hlive : rt.strings str = some s) :
    (rt.getStringBytes str).1 = deflateString s.chars ↔
      ∀ bytes, origins steps str = some bytes →
        ∃ cs : List Char, PlainChars cs ∧ bytes = utf8Encode cs := by
  have hcoherent := coherent_of_run hrun
  rw [hcoherent.getStringBytes_eq hlive]
  constructor
  · intro h bytes horigin
    rw [horigin, Option.some_or] at h
    exact exists_plain_of_inflateString (hcoherent.inflateString_origin hlive horigin).1 h.symm
  · intro h
    cases horigin : origins steps str with
    | none => rfl
    | some bytes =>
      obtain ⟨hchars, hsize⟩ := hcoherent.inflateString_origin hlive horigin
      obtain ⟨cs, hcs, rfl⟩ := h bytes horigin
      rw [inflateString_utf8Encode hcs hsize] at hchars
      rw [← Option.some.inj hchars, deflateString_utf16Encode cs]
      rfl

/-- The cache goes unnoticed on a string made of one character of two bytes. -/
theorem JSRuntime.getStringBytes_twoBytes :
    ∃ rt, Transition.run JSRuntime.step JSRuntime.empty [.newString 0 [0xC3, 0xA9]] = some rt ∧
      (rt.getStringBytes 0).1 = deflateString [0xE9] := by
  have hcode : ∀ v ∈ [0xE9], IsCodePoint v := by decide
  have hchars : inflateString [0xC3, 0xA9] = some [0xE9] :=
    inflateString_codePoints hcode (by decide)
  obtain ⟨rt, hrun, hlive⟩ := exists_run_newString hchars (by decide)
  refine ⟨rt, hrun, (getStringBytes_eq_deflateString_iff hrun hlive).mpr ?_⟩
  intro bytes horigin
  obtain rfl := Option.some.inj horigin
  exact ⟨['é'], by decide, by decide⟩

end Meguro
