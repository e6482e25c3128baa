import Meguro.Script.HashTableMap
import Meguro.Script.StringCache

/-!
# The string cache as a hash table

The cache of deflated strings is one of the engine's hash tables, with the
addresses of the strings as keys. A runtime with this table takes the same steps
as one with a map and gives the same bytes for every string, so what is known of
the map is known of the table.
-/

namespace Meguro

/-- `js_hash_string_pointer`. -/
def hashStringPointer (str : Nat) : UInt32 := UInt32.ofNat str >>> 3

/-- The strings of a runtime by their addresses, and the table of its cache. -/
structure TableRuntime where
  strings : Nat → Option JSString
  deflatedStringCache : JSHashTable Nat (List UInt8)

namespace TableRuntime

/-- `js_InitDeflatedStringCache`. -/
def empty : TableRuntime := ⟨fun _ => none, JSHashTable.newHashTable⟩

/-- `js_NewString`, which takes a free cell. -/
def newFlat (rt : TableRuntime) (str : Nat) (chars : List UInt16) : Option TableRuntime :=
  if chars.length > JSString.maxLength ∨ rt.strings str ≠ none then none
  else some { rt with strings := Function.update rt.strings str (some ⟨chars, false⟩) }

/-- A new entry of the cache, and the flag of its string. -/
def cacheBytes (rt : TableRuntime) (str : Nat) (s : JSString) (bytes : List UInt8) :
    Option TableRuntime :=
  (rt.deflatedStringCache.step hashStringPointer (.add str bytes true true true)).map fun cache =>
    ⟨Function.update rt.strings str (some { s with deflated := true }), cache⟩

/-- `js_SetStringBytes`, which asserts that the string is not in the cache. -/
def setStringBytes (rt : TableRuntime) (str : Nat) (bytes : List UInt8) : Option TableRuntime :=
  match rt.strings str with
  | none => some rt
  | some s => rt.cacheBytes str s bytes

/-- `JS_NewString`. -/
def newString (rt : TableRuntime) (str : Nat) (bytes : List UInt8) : Option TableRuntime :=
  match inflateString bytes with
  | none => none
  | some chars => (rt.newFlat str chars).bind (·.setStringBytes str bytes)

/-- `js_GetStringBytes`: a hit moves to the front of its chain. -/
def getStringBytes (rt : TableRuntime) (str : Nat) :
    Option (Option (List UInt8) × TableRuntime) :=
  match rt.strings str with
  | none => some (none, rt)
  | some s =>
    let (cache, hep) := rt.deflatedStringCache.rawLookup (hashStringPointer str) str
    match cache.deref hep with
    | some he => some (some he.value, { rt with deflatedStringCache := cache })
    | none =>
      match deflateString s.chars with
      | some bytes => (rt.cacheBytes str s bytes).map (some bytes, ·)
      | none => some (none, { rt with deflatedStringCache := cache })

/-- `js_FinalizeStringRT`, with `js_PurgeDeflatedStringCache` if the flag is set. -/
def finalizeString (rt : TableRuntime) (str : Nat) : Option TableRuntime :=
  match rt.strings str with
  | none => none
  | some s =>
    (if s.deflated then rt.deflatedStringCache.step hashStringPointer (.remove str true)
      else some rt.deflatedStringCache).map fun cache =>
        ⟨Function.update rt.strings str none, cache⟩

/-- One step of the runtime. -/
def step (rt : TableRuntime) : StringStep → Option TableRuntime
  | .newString str bytes => rt.newString str bytes
  | .newFlat str chars => rt.newFlat str chars
  | .getStringBytes str =>
    if rt.strings str = none then none else (rt.getStringBytes str).map Prod.snd
  | .finalizeString str => rt.finalizeString str

/-! ## Refinement -/

/-- The table stores what the map holds, and there is room for more. -/
structure Refines (trt : TableRuntime) (rt : JSRuntime) : Prop where
  strings : trt.strings = rt.strings
  cache : ∃ items, JSHashTable.Stores hashStringPointer trt.deflatedStringCache
    rt.deflatedStringCache items

/-- How many strings are in the cache. -/
def cached (trt : TableRuntime) : Nat := trt.deflatedStringCache.nentries

variable {trt : TableRuntime} {rt : JSRuntime} {str : Nat} {s : JSString}

theorem refines_empty : Refines empty JSRuntime.empty :=
  ⟨rfl, [], JSHashTable.stores_newHashTable⟩

/-- A string that is not in the cache is added to it. -/
theorem Refines.cacheBytes (h : Refines trt rt) (hroom : trt.cached < 2 ^ 30)
    (habsent : rt.deflatedStringCache str = none) (s : JSString) (bytes : List UInt8) :
    ∃ trt', trt.cacheBytes str s bytes = some trt' ∧
      Refines trt' (rt.cacheBytes str s bytes) ∧ trt'.cached ≤ trt.cached + 1 := by
  obtain ⟨items, hstores⟩ := h.cache
  obtain ⟨cache, ok, hadd, hadded, hok⟩ := hstores.step_add habsent hroom bytes true true
  obtain rfl : ok = true := hok rfl rfl
  unfold TableRuntime.cacheBytes JSRuntime.cacheBytes
  rw [hadd, if_pos rfl, h.strings]
  exact ⟨_, rfl, ⟨rfl, hadded.stores⟩, Nat.le_of_eq hadded.nentries⟩

/-- The table gives the bytes the map gives. -/
theorem Refines.getStringBytes (h : Refines trt rt) (hroom : trt.cached < 2 ^ 30) (str : Nat) :
    ∃ trt', trt.getStringBytes str = some ((rt.getStringBytes str).1, trt') ∧
      Refines trt' (rt.getStringBytes str).2 ∧ trt'.cached ≤ trt.cached + 1 := by
  unfold TableRuntime.getStringBytes JSRuntime.getStringBytes
  rw [h.strings]
  cases hcell : rt.strings str with
  | none => exact ⟨trt, rfl, h, Nat.le_succ _⟩
  | some s =>
    obtain ⟨items, hstores⟩ := h.cache
    obtain ⟨cache, hep, hlookup, hfound, hlink, -, hcount⟩ := hstores.rawLookup str
    have hmoved : Refines ⟨rt.strings, cache⟩ rt := ⟨rfl, items, hfound⟩
    have hcached : cache.nentries ≤ trt.cached + 1 := Nat.le_succ_of_le (Nat.le_of_eq hcount)
    dsimp only
    rw [hlookup]
    dsimp only
    rw [hlink.deref]
    cases hbytes : rt.deflatedStringCache str with
    | some bytes => exact ⟨_, rfl, hmoved, hcached⟩
    | none =>
      dsimp only [Option.map_none]
      cases hdeflate : deflateString s.chars with
      | none => exact ⟨_, rfl, hmoved, hcached⟩
      | some bytes =>
        obtain ⟨trt', hcache, hrefines, hcount⟩ := h.cacheBytes hroom hbytes s bytes
        dsimp only
        rw [hcache]
        exact ⟨trt', rfl, hrefines, hcount⟩

/-- Both take a new string into an empty cell only. -/
theorem Refines.newFlat (h : Refines trt rt) (str : Nat) (chars : List UInt16) :
    (trt.newFlat str chars = none ∧ rt.newFlat str chars = none) ∨
    ∃ tflat flat, trt.newFlat str chars = some tflat ∧ rt.newFlat str chars = some flat ∧
      Refines tflat flat ∧ tflat.cached = trt.cached ∧ rt.strings str = none ∧
      flat.strings str = some ⟨chars, false⟩ ∧
      flat.deflatedStringCache = rt.deflatedStringCache := by
  unfold TableRuntime.newFlat JSRuntime.newFlat
  rw [h.strings]
  by_cases hfull : chars.length > JSString.maxLength ∨ rt.strings str ≠ none
  · rw [if_pos hfull, if_pos hfull]
    exact .inl ⟨rfl, rfl⟩
  · rw [if_neg hfull, if_neg hfull]
    exact .inr ⟨_, _, rfl, rfl, ⟨rfl, h.cache⟩, rfl, not_not.mp (not_or.mp hfull).2,
      Function.update_self .., rfl⟩

/-- A step of both, or of neither. -/
def StepTogether (trt : TableRuntime) (trt' : Option TableRuntime) (rt' : Option JSRuntime) : Prop :=
  Option.Rel (fun t r => Refines t r ∧ t.cached ≤ trt.cached + 1) trt' rt'

/-- A new string of the program is cached, as its cell was not in the cache. -/
theorem Refines.newString {origin : Nat → Option (List UInt8)} (h : Refines trt rt)
    (hcoherent : rt.Coherent origin) (hroom : trt.cached < 2 ^ 30) (str : Nat)
    (bytes : List UInt8) :
    StepTogether trt (trt.newString str bytes) (rt.newString str bytes) := by
  unfold TableRuntime.newString JSRuntime.newString
  cases inflateString bytes with
  | none => exact .none
  | some chars =>
    dsimp only
    obtain ⟨htrt, hrt⟩ | ⟨tflat, flat, htrt, hrt, hrefines, hcached, hempty, hcell, hcache⟩ :=
      h.newFlat str chars
    · rw [htrt, hrt]
      exact .none
    · have habsent : flat.deflatedStringCache str = none := by
        have hcell := hcoherent str
        rw [hempty] at hcell
        rw [hcache]
        exact hcell.1
      rw [← hcached] at hroom
      obtain ⟨trt', hadd, hnext, hcount⟩ := hrefines.cacheBytes hroom habsent ⟨chars, false⟩ bytes
      rw [htrt, hrt, Option.bind_some, Option.map_some]
      unfold TableRuntime.setStringBytes JSRuntime.setStringBytes
      rw [hrefines.strings, hcell]
      dsimp only
      rw [hadd]
      exact .some ⟨hnext, hcached ▸ hcount⟩

/-- A string that is finalized leaves the cache. -/
theorem Refines.finalizeString (h : Refines trt rt) (str : Nat) :
    StepTogether trt (trt.finalizeString str) (rt.finalizeString str) := by
  unfold TableRuntime.finalizeString JSRuntime.finalizeString
  rw [h.strings]
  cases rt.strings str with
  | none => exact .none
  | some s =>
    dsimp only
    cases s.deflated with
    | false =>
      rw [if_neg Bool.false_ne_true, if_neg Bool.false_ne_true]
      exact .some ⟨⟨rfl, h.cache⟩, Nat.le_succ _⟩
    | true =>
      obtain ⟨items, hstores⟩ := h.cache
      obtain ⟨cache, hremove, hremoved⟩ := hstores.step_remove str true
      rw [if_pos rfl, if_pos rfl, hremove]
      exact .some ⟨⟨rfl, hremoved.stores⟩, Nat.le_succ_of_le hremoved.nentries⟩

/-- Both runtimes take a step, or neither does. -/
theorem Refines.step {origin : Nat → Option (List UInt8)} (h : Refines trt rt)
    (hcoherent : rt.Coherent origin) (hroom : trt.cached < 2 ^ 30) (l : StringStep) :
    StepTogether trt (trt.step l) (rt.step l) := by
  cases l with
  | newString str bytes => exact h.newString hcoherent hroom str bytes
  | newFlat str chars =>
    obtain ⟨htrt, hrt⟩ | ⟨tflat, flat, htrt, hrt, hrefines, hcached, -⟩ := h.newFlat str chars
    · change StepTogether trt (trt.newFlat str chars) (rt.newFlat str chars)
      rw [htrt, hrt]
      exact .none
    · change StepTogether trt (trt.newFlat str chars) (rt.newFlat str chars)
      rw [htrt, hrt]
      exact .some ⟨hrefines, Nat.le_succ_of_le (Nat.le_of_eq hcached)⟩
  | getStringBytes str =>
    change StepTogether trt
      (if trt.strings str = none then none else (trt.getStringBytes str).map Prod.snd)
      (if rt.strings str = none then none else some (rt.getStringBytes str).2)
    obtain ⟨trt', hbytes, hnext, hcount⟩ := h.getStringBytes hroom str
    rw [h.strings, hbytes]
    by_cases hdead : rt.strings str = none
    · rw [if_pos hdead, if_pos hdead]
      exact .none
    · rw [if_neg hdead, if_neg hdead]
      exact .some ⟨hnext, hcount⟩
  | finalizeString str => exact h.finalizeString str

/-! ## Runs -/

/-- The runtimes have the same strings, and give the same bytes for each of them. -/
def Answers (trt : TableRuntime) (rt : JSRuntime) : Prop :=
  trt.strings = rt.strings ∧
    ∀ str, (trt.getStringBytes str).map Prod.fst = some (rt.getStringBytes str).1

theorem Refines.answers (h : Refines trt rt) (hroom : trt.cached < 2 ^ 30) : Answers trt rt := by
  refine ⟨h.strings, fun str => ?_⟩
  obtain ⟨trt', hbytes, -⟩ := h.getStringBytes hroom str
  rw [hbytes]
  rfl

/-- From states that answer the same, both runtimes run to such states, or neither runs. -/
theorem Refines.run {origin : Nat → Option (List UInt8)} (h : Refines trt rt)
    (hcoherent : rt.Coherent origin) {steps : List StringStep}
    (hroom : trt.cached + steps.length < 2 ^ 30) :
    Option.Rel Answers (Transition.run TableRuntime.step trt steps)
      (Transition.run JSRuntime.step rt steps) := by
  induction steps generalizing trt rt origin with
  | nil => exact .some (h.answers hroom)
  | cons l steps ih =>
    have hstep := h.step hcoherent (Nat.lt_of_le_of_lt (Nat.le_add_right ..) hroom) l
    unfold StepTogether at hstep
    change Option.Rel Answers ((trt.step l).bind fun t => Transition.run TableRuntime.step t steps)
      ((rt.step l).bind fun r => Transition.run JSRuntime.step r steps)
    cases hrt : rt.step l with
    | none =>
      rw [hrt] at hstep
      cases htrt : trt.step l with
      | none => exact .none
      | some t =>
        rw [htrt] at hstep
        cases hstep
    | some r =>
      rw [hrt] at hstep
      cases htrt : trt.step l with
      | none =>
        rw [htrt] at hstep
        cases hstep
      | some t =>
        rw [htrt] at hstep
        cases hstep with
        | some hboth =>
          refine ih hboth.1 (hcoherent.step hrt) ?_
          have hcount := hboth.2
          rw [List.length_cons] at hroom
          omega

/-- The runtime with the hash table and the one with the map take the same runs, and
after each of them give the same bytes for every string. -/
theorem answers_of_run (steps : List StringStep) (hfew : steps.length < 2 ^ 30) :
    Option.Rel Answers (Transition.run TableRuntime.step empty steps)
      (Transition.run JSRuntime.step JSRuntime.empty steps) := by
  have hcoherent : JSRuntime.empty.Coherent (origins []) := JSRuntime.coherent_of_run rfl
  have hroom : empty.cached + steps.length < 2 ^ 30 := (Nat.zero_add steps.length).symm ▸ hfew
  exact refines_empty.run hcoherent hroom

/-- Two addresses with one hash value: a string of each is made and asked for, and one is
finalized. -/
def sharedHashSteps : List StringStep :=
  [.newString 0 [0xC3, 0xA9], .newFlat (2 ^ 35) [0x41], .getStringBytes (2 ^ 35),
    .getStringBytes 0, .finalizeString 0]

theorem answers_sharedHashSteps :
    Option.Rel Answers (Transition.run TableRuntime.step empty sharedHashSteps)
      (Transition.run JSRuntime.step JSRuntime.empty sharedHashSteps) :=
  answers_of_run sharedHashSteps (by decide)

end TableRuntime

end Meguro
