import Mathlib.Data.List.Induction

/-!
# Labelled partial transitions

A step function takes a state and a label and is undefined where the label is
not enabled. A run follows a word of labels. The rules below are the ones a
verification needs: splitting a run, state and history invariants, and the
projection of a run along a simulation whose labels may be silent.
-/

namespace Transition

variable {σ τ ι κ : Type*}

/-- Follow a word of labels; one undefined step makes the whole run undefined. -/
def run (step : σ → ι → Option σ) : σ → List ι → Option σ
  | s, [] => some s
  | s, l :: ls => (step s l).bind fun t => run step t ls

variable {step : σ → ι → Option σ}

@[simp] theorem run_nil (s : σ) : run step s [] = some s := rfl

theorem run_cons {s u : σ} {l : ι} {ls : List ι} :
    run step s (l :: ls) = some u ↔ ∃ t, step s l = some t ∧ run step t ls = some u := by
  simp only [run, Option.bind_eq_some_iff]

/-- A run splits at every position of its word. -/
theorem run_append {s u : σ} {ls ms : List ι} :
    run step s (ls ++ ms) = some u ↔ ∃ t, run step s ls = some t ∧ run step t ms = some u := by
  induction ls generalizing s with
  | nil => simp
  | cons l ls ih =>
    rw [List.cons_append, run_cons]
    constructor
    · rintro ⟨t, hstep, hrest⟩
      obtain ⟨v, hls, hms⟩ := ih.mp hrest
      exact ⟨v, run_cons.mpr ⟨t, hstep, hls⟩, hms⟩
    · rintro ⟨v, hls, hms⟩
      obtain ⟨t, hstep, hls⟩ := run_cons.mp hls
      exact ⟨t, hstep, ih.mpr ⟨v, hls, hms⟩⟩

theorem run_snoc {s u : σ} {l : ι} {ls : List ι} :
    run step s (ls ++ [l]) = some u ↔ ∃ t, run step s ls = some t ∧ step t l = some u := by
  rw [run_append]
  simp only [run_cons, run_nil, Option.some.injEq, exists_eq_right]

/-- The state just before a label of a run, and the step that label makes. -/
theorem run_split {s u : σ} {l : ι} {past future : List ι}
    (h : run step s (past ++ l :: future) = some u) :
    ∃ t v, run step s past = some t ∧ step t l = some v ∧ run step v future = some u := by
  obtain ⟨t, hpast, hrest⟩ := run_append.mp h
  obtain ⟨v, hstep, hfuture⟩ := run_cons.mp hrest
  exact ⟨t, v, hpast, hstep, hfuture⟩

/-- What one step preserves, a run preserves. -/
theorem run_invariant {I : σ → Prop} (hstep : ∀ {s l t}, I s → step s l = some t → I t)
    {s u : σ} {ls : List ι} (hs : I s) (h : run step s ls = some u) : I u := by
  induction ls generalizing s with
  | nil => exact Option.some.inj h ▸ hs
  | cons l ls ih =>
    obtain ⟨t, hl, hrest⟩ := run_cons.mp h
    exact ih (hstep hs hl) hrest

/-- A relation between the word read so far and the state it leads to. -/
theorem run_history {I : List ι → σ → Prop} {s : σ} (hnil : I [] s)
    (hstep : ∀ {past t l u}, I past t → step t l = some u → I (past ++ [l]) u)
    {u : σ} {ls : List ι} (h : run step s ls = some u) : I ls u := by
  induction ls using List.reverseRecOn generalizing u with
  | nil => exact Option.some.inj h ▸ hnil
  | append_singleton ls l ih =>
    obtain ⟨t, hls, hl⟩ := run_snoc.mp h
    exact hstep (ih hls) hl

/-- What a label contributes to a trace comes after what the earlier ones do. -/
theorem filterMap_snoc (f : ι → Option κ) (ls : List ι) (l : ι) :
    (ls ++ [l]).filterMap f = ls.filterMap f ++ (f l).toList := by
  cases h : f l <;> simp [List.filterMap_append, h]

/-- The same for a trace of a trace. -/
theorem filterMap_filterMap_snoc {θ : Type*} (f : ι → Option κ) (g : κ → Option θ) (ls : List ι)
    (l : ι) : ((ls ++ [l]).filterMap f).filterMap g =
      (ls.filterMap f).filterMap g ++ ((f l).bind g).toList := by
  rw [List.filterMap_filterMap, List.filterMap_filterMap, filterMap_snoc]

/-- One step of a simulation: the label is silent and the relation survives, or
the simulating system answers with the projected label. -/
def Simulates (step : σ → ι → Option σ) (step' : τ → κ → Option τ) (project : ι → Option κ)
    (R : σ → τ → Prop) : Prop :=
  ∀ s l u t, R s t → step s l = some u →
    match project l with
    | none => R u t
    | some k => ∃ v, step' t k = some v ∧ R u v

/-- A simulated run projects to a run over the labels that are not silent. -/
theorem Simulates.run {step' : τ → κ → Option τ} {project : ι → Option κ} {R : σ → τ → Prop}
    (hsim : Simulates step step' project R) {s u : σ} {t : τ} {ls : List ι} (hR : R s t)
    (h : run step s ls = some u) :
    ∃ v, Transition.run step' t (ls.filterMap project) = some v ∧ R u v := by
  induction ls generalizing s t with
  | nil => exact ⟨t, rfl, Option.some.inj h ▸ hR⟩
  | cons l ls ih =>
    obtain ⟨s', hl, hrest⟩ := run_cons.mp h
    have hone := hsim s l s' t hR hl
    cases hp : project l with
    | none =>
      simp only [hp] at hone
      simpa only [List.filterMap_cons, hp] using ih hone hrest
    | some k =>
      simp only [hp] at hone
      obtain ⟨t', hk, hR'⟩ := hone
      obtain ⟨v, hv, hRv⟩ := ih hR' hrest
      exact ⟨v, by simpa only [List.filterMap_cons, hp] using run_cons.mpr ⟨t', hk, hv⟩, hRv⟩

end Transition
