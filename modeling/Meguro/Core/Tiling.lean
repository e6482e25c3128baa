import Mathlib.Data.List.Pairwise
import Mathlib.Logic.Function.Basic

/-!
# Regions tiled by blocks

A partial map from offsets to blocks tiles a region when the blocks lie one behind
the other from its start to its end. A boundary is an offset that cuts no block.
Replacing what lies between two boundaries, splitting a block and appending one
keep the tiling, and a walk that steps over block after block meets every block
once, in the order of their offsets.
-/

namespace Tiling

variable {β : Type*}

/-- An offset where a block starts, or the end. -/
def Boundary (H : Nat → Option β) (hi off : Nat) : Prop := off = hi ∨ ∃ b, H off = some b

/-- The blocks of `H` lie one behind the other from `lo` to `hi`. -/
structure Tiled (size : β → Nat) (H : Nat → Option β) (lo hi : Nat) : Prop where
  start : Boundary H hi lo
  le : lo ≤ hi
  inside : ∀ {off b}, H off = some b → lo ≤ off ∧ off + size b ≤ hi
  pos : ∀ {off b}, H off = some b → 0 < size b
  next : ∀ {off b}, H off = some b → Boundary H hi (off + size b)
  alone : ∀ {off b}, H off = some b → ∀ {x}, off < x → x < off + size b → H x = none

/-- One block in place of what lies in a range. -/
def replace (H : Nat → Option β) (off n : Nat) (b : β) : Nat → Option β := fun x =>
  if x = off then some b else if off < x ∧ x < off + n then none else H x

variable {size : β → Nat} {H : Nat → Option β} {lo hi off n : Nat} {b : β}

@[simp] theorem replace_self : replace H off n b off = some b := if_pos rfl

theorem replace_of_outside {x : Nat} (h : x < off ∨ off + n ≤ x) (hn : 0 < n) :
    replace H off n b x = H x := by
  unfold replace
  rw [if_neg (by omega), if_neg (by omega)]

theorem replace_of_inside {x : Nat} (hx : off < x) (hlt : x < off + n) :
    replace H off n b x = none := by
  unfold replace
  rw [if_neg (by omega), if_pos ⟨hx, hlt⟩]

/-- What is left of the old blocks lies outside the range. -/
theorem outside_of_replace {x : Nat} {c : β} (hx : replace H off n b x = some c) (hne : x ≠ off)
    (hn : 0 < n) : (x < off ∨ off + n ≤ x) ∧ H x = some c := by
  have hout : x < off ∨ off + n ≤ x := by
    by_contra hin
    rw [replace_of_inside (by omega) (by omega)] at hx
    cases hx
  exact ⟨hout, by rwa [replace_of_outside hout hn] at hx⟩

/-- Boundaries outside a range survive its replacement, and so do its two ends. -/
theorem Boundary.replace {x : Nat} (h : Boundary H hi x) (hx : x ≤ off ∨ off + n ≤ x) (hn : 0 < n) :
    Boundary (replace H off n b) hi x := by
  by_cases hself : x = off
  · exact .inr ⟨b, by rw [hself, replace_self]⟩
  · unfold Boundary
    rwa [replace_of_outside (by omega) hn]

/-- A boundary before the end is the start of a block. -/
theorem Boundary.exists_block {x : Nat} (hx : Boundary H hi x) (hlt : x < hi) : ∃ b, H x = some b :=
  hx.resolve_left (by omega)

namespace Tiled

variable (h : Tiled size H lo hi)
include h

theorem lt_of_some {x : Nat} (hx : H x = some b) : x < hi := by
  have hin := (h.inside hx).2
  have hpos := h.pos hx
  omega

theorem eq_none_of_le {x : Nat} (hx : hi ≤ x) : H x = none := by
  by_contra hne
  obtain ⟨b, hb⟩ := Option.ne_none_iff_exists'.mp hne
  exact absurd (h.lt_of_some hb) (by omega)

/-- A block does not cross a boundary. -/
theorem le_boundary {x y : Nat} (hx : H x = some b) (hy : Boundary H hi y) (hxy : x < y) :
    x + size b ≤ y := by
  by_contra hcross
  have hlt : y < hi := by
    have hin := (h.inside hx).2
    omega
  obtain ⟨c, hc⟩ := hy.exists_block hlt
  rw [h.alone hx hxy (by omega)] at hc
  cases hc

/-- Two blocks at different places do not overlap. -/
theorem apart {x y : Nat} {c : β} (hx : H x = some b) (hy : H y = some c) (hne : x ≠ y) :
    x + size b ≤ y ∨ y + size c ≤ x := by
  rcases Nat.lt_or_gt_of_ne hne with hlt | hlt
  · exact .inl (h.le_boundary hx (.inr ⟨c, hy⟩) hlt)
  · exact .inr (h.le_boundary hy (.inr ⟨b, hx⟩) hlt)

/-- One block in place of all between two boundaries. -/
protected theorem replace (hoff : Boundary H hi off) (hend : Boundary H hi (off + n))
    (hlo : lo ≤ off) (hhi : off + n ≤ hi) (hn : 0 < n) (hb : size b = n) :
    Tiled size (Tiling.replace H off n b) lo hi where
  start := h.start.replace (.inl hlo) hn
  le := h.le
  inside := by
    intro x c hx
    by_cases hself : x = off
    · rw [hself, replace_self, Option.some.injEq] at hx
      rw [hself, ← hx, hb]
      exact ⟨hlo, hhi⟩
    · exact h.inside (outside_of_replace hx hself hn).2
  pos := by
    intro x c hx
    by_cases hself : x = off
    · rw [hself, replace_self, Option.some.injEq] at hx
      rwa [← hx, hb]
    · exact h.pos (outside_of_replace hx hself hn).2
  next := by
    intro x c hx
    by_cases hself : x = off
    · rw [hself, replace_self, Option.some.injEq] at hx
      rw [hself, ← hx, hb]
      exact hend.replace (.inr (Nat.le_refl _)) hn
    · obtain ⟨hout, hx⟩ := outside_of_replace hx hself hn
      refine (h.next hx).replace ?_ hn
      rcases hout with hlt | hge
      · exact .inl (h.le_boundary hx hoff hlt)
      · exact .inr (by omega)
  alone := by
    intro x c hx y hxy hy
    by_cases hself : x = off
    · rw [hself, replace_self, Option.some.injEq] at hx
      rw [hself, ← hx, hb] at hy
      exact replace_of_inside (hself ▸ hxy) hy
    · obtain ⟨hout, hx⟩ := outside_of_replace hx hself hn
      have hyout : y < off ∨ off + n ≤ y := by
        rcases hout with hlt | hge
        · exact .inl (Nat.lt_of_lt_of_le hy (h.le_boundary hx hoff hlt))
        · exact .inr (by omega)
      rw [replace_of_outside hyout hn]
      exact h.alone hx hxy hy

/-- One block in place of another of the same size. -/
theorem update {c : β} (hc : H off = some c) (hb : size b = size c) :
    Tiled size (Function.update H off (some b)) lo hi := by
  have hupdate : Function.update H off (some b) = Tiling.replace H off (size c) b := by
    funext x
    by_cases hself : x = off
    · rw [hself, Function.update_self, replace_self]
    · rw [Function.update_of_ne hself]
      by_cases hin : off < x ∧ x < off + size c
      · rw [replace_of_inside hin.1 hin.2]
        exact h.alone hc hin.1 hin.2
      · rw [replace_of_outside (by omega) (h.pos hc)]
  rw [hupdate]
  exact h.replace (.inr ⟨c, hc⟩) (h.next hc) (h.inside hc).1 (h.inside hc).2 (h.pos hc) hb

/-- Two blocks in place of one. -/
theorem split {c : β} (b₁ b₂ : β) (hc : H off = some c) (hsize : size b₁ + size b₂ = size c)
    (h₁ : 0 < size b₁) (h₂ : 0 < size b₂) :
    Tiled size (Function.update (Function.update H off (some b₁)) (off + size b₁) (some b₂))
      lo hi := by
  have hin := h.inside hc
  have hmid : off + size b₁ ≠ off := by omega
  have hfirst : Function.update (Function.update H off (some b₁)) (off + size b₁) (some b₂) off =
      some b₁ := by rw [Function.update_of_ne hmid.symm, Function.update_self]
  have hsecond : Function.update (Function.update H off (some b₁)) (off + size b₁) (some b₂)
      (off + size b₁) = some b₂ := Function.update_self ..
  have hother : ∀ x, x ≠ off → x ≠ off + size b₁ →
      Function.update (Function.update H off (some b₁)) (off + size b₁) (some b₂) x = H x := by
    intro x hx hx'
    rw [Function.update_of_ne hx', Function.update_of_ne hx]
  generalize Function.update (Function.update H off (some b₁)) (off + size b₁) (some b₂) = K at *
  have hkept : ∀ {x}, Boundary H hi x → Boundary K hi x := by
    rintro x (rfl | ⟨d, hd⟩)
    · exact .inl rfl
    · by_cases hx : x = off
      · exact .inr ⟨b₁, by rw [hx, hfirst]⟩
      · by_cases hx' : x = off + size b₁
        · exact .inr ⟨b₂, by rw [hx', hsecond]⟩
        · exact .inr ⟨d, by rw [hother x hx hx', hd]⟩
  have hcase : ∀ {x d}, K x = some d → x = off ∧ d = b₁ ∨ x = off + size b₁ ∧ d = b₂ ∨
      x ≠ off ∧ x ≠ off + size b₁ ∧ H x = some d := by
    intro x d hx
    by_cases hxo : x = off
    · rw [hxo, hfirst, Option.some.injEq] at hx
      exact .inl ⟨hxo, hx.symm⟩
    · by_cases hxm : x = off + size b₁
      · rw [hxm, hsecond, Option.some.injEq] at hx
        exact .inr (.inl ⟨hxm, hx.symm⟩)
      · exact .inr (.inr ⟨hxo, hxm, by rwa [hother x hxo hxm] at hx⟩)
  refine ⟨hkept h.start, h.le, ?_, ?_, ?_, ?_⟩
  · intro x d hx
    rcases hcase hx with ⟨rfl, rfl⟩ | ⟨rfl, rfl⟩ | ⟨-, -, hx⟩
    · omega
    · omega
    · exact h.inside hx
  · intro x d hx
    rcases hcase hx with ⟨-, rfl⟩ | ⟨-, rfl⟩ | ⟨-, -, hx⟩
    · exact h₁
    · exact h₂
    · exact h.pos hx
  · intro x d hx
    rcases hcase hx with ⟨rfl, rfl⟩ | ⟨rfl, rfl⟩ | ⟨-, -, hx⟩
    · exact .inr ⟨b₂, hsecond⟩
    · rw [Nat.add_assoc, hsize]
      exact hkept (h.next hc)
    · exact hkept (h.next hx)
  · intro x d hx y hxy hy
    rcases hcase hx with ⟨rfl, rfl⟩ | ⟨rfl, rfl⟩ | ⟨hxo, hxm, hx⟩
    · rw [hother y (by omega) (by omega)]
      exact h.alone hc hxy (by omega)
    · rw [hother y (by omega) (by omega)]
      exact h.alone hc (by omega) (by omega)
    · have hap := h.apart hx hc hxo
      rw [hother y (by omega) (by omega)]
      exact h.alone hx hxy hy

/-- One more block behind the last. -/
theorem append (hb : 0 < size b) :
    Tiled size (Function.update H hi (some b)) lo (hi + size b) := by
  have hkept : ∀ {x}, Boundary H hi x →
      Boundary (Function.update H hi (some b)) (hi + size b) x := by
    rintro x (rfl | ⟨d, hd⟩)
    · exact .inr ⟨b, Function.update_self ..⟩
    · have hne : x ≠ hi := by
        have hlt := h.lt_of_some hd
        omega
      exact .inr ⟨d, by rw [Function.update_of_ne hne, hd]⟩
  have hcase : ∀ {x d}, Function.update H hi (some b) x = some d →
      x = hi ∧ d = b ∨ x ≠ hi ∧ H x = some d := by
    intro x d hx
    by_cases hself : x = hi
    · rw [hself, Function.update_self, Option.some.injEq] at hx
      exact .inl ⟨hself, hx.symm⟩
    · exact .inr ⟨hself, by rwa [Function.update_of_ne hself] at hx⟩
  refine ⟨hkept h.start, Nat.le_add_right_of_le h.le, ?_, ?_, ?_, ?_⟩
  · intro x d hx
    rcases hcase hx with ⟨rfl, rfl⟩ | ⟨-, hx⟩
    · exact ⟨h.le, Nat.le_refl _⟩
    · have hin := h.inside hx
      omega
  · intro x d hx
    rcases hcase hx with ⟨-, rfl⟩ | ⟨-, hx⟩
    · exact hb
    · exact h.pos hx
  · intro x d hx
    rcases hcase hx with ⟨rfl, rfl⟩ | ⟨-, hx⟩
    · exact .inl rfl
    · exact hkept (h.next hx)
  · intro x d hx y hxy hy
    rcases hcase hx with ⟨rfl, rfl⟩ | ⟨-, hx⟩
    · rw [Function.update_of_ne (by omega)]
      exact h.eq_none_of_le (by omega)
    · have hin := (h.inside hx).2
      rw [Function.update_of_ne (by omega)]
      exact h.alone hx hxy hy

end Tiled

/-! ## Runs of blocks of one kind -/

/-- From `off` on, `n` bytes are filled by blocks with `P`. -/
structure Filled (P : β → Prop) (H : Nat → Option β) (hi off n : Nat) : Prop where
  pos : 0 < n
  start : Boundary H hi off
  stop : Boundary H hi (off + n)
  le : off + n ≤ hi
  all : ∀ {x b}, off ≤ x → x < off + n → H x = some b → P b

variable {P : β → Prop}

theorem Filled.of_block (h : Tiled size H lo hi) (hb : H off = some b) (hP : P b) :
    Filled P H hi off (size b) where
  pos := h.pos hb
  start := .inr ⟨b, hb⟩
  stop := h.next hb
  le := (h.inside hb).2
  all := by
    intro x c hle hlt hx
    by_cases hself : x = off
    · rw [hself, hb, Option.some.injEq] at hx
      exact hx ▸ hP
    · rw [h.alone hb (by omega) hlt] at hx
      cases hx

/-- A run lies in the region. -/
theorem Tiled.inside_filled (h : Tiled size H lo hi) (hrun : Filled P H hi off n) : lo ≤ off := by
  rcases hrun.start with heq | ⟨b, hb⟩
  · exact heq ▸ h.le
  · exact (h.inside hb).1

/-- Two runs one behind the other. -/
theorem Filled.append {m : Nat} (h₁ : Filled P H hi off n) (h₂ : Filled P H hi (off + n) m) :
    Filled P H hi off (n + m) where
  pos := Nat.add_pos_left h₁.pos m
  start := h₁.start
  stop := by
    rw [← Nat.add_assoc]
    exact h₂.stop
  le := by
    rw [← Nat.add_assoc]
    exact h₂.le
  all := by
    intro x b hle hlt hx
    rcases Nat.lt_or_ge x (off + n) with hin | hin
    · exact h₁.all hle hin hx
    · exact h₂.all hin (by omega) hx

/-- A run keeps to itself what changes elsewhere. -/
theorem Filled.congr {K : Nat → Option β} {hi' : Nat} (h : Filled P H hi off n)
    (hin : ∀ x, off ≤ x → x < off + n → K x = H x)
    (hstop : Boundary K hi' (off + n)) (hle : off + n ≤ hi') (hlt : off < hi) :
    Filled P K hi' off n where
  pos := h.pos
  start := by
    obtain ⟨b, hb⟩ := h.start.resolve_left (by omega)
    exact .inr ⟨b, by rw [hin off (Nat.le_refl _) (Nat.lt_add_of_pos_right h.pos), hb]⟩
  stop := hstop
  le := hle
  all := by
    intro x b hge hlt' hx
    exact h.all hge hlt' (by rwa [hin x hge hlt'] at hx)

/-- What holds at the end, and at a block if it holds behind it, holds at every
boundary: a walk from block to block ends. -/
theorem Tiled.walk {motive : Nat → Prop} (h : Tiled size H lo hi) (hstop : motive hi)
    (hblock : ∀ off b, H off = some b → motive (off + size b) → motive off)
    (hoff : Boundary H hi off) : motive off := by
  induction hleft : hi - off using Nat.strongRecOn generalizing off with
  | ind left ih =>
    rcases hoff with rfl | ⟨b, hb⟩
    · exact hstop
    · have hlt := h.lt_of_some hb
      have hpos := h.pos hb
      exact hblock off b hb (ih (hi - (off + size b)) (by omega) (h.next hb) rfl)

end Tiling
