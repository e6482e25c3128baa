import Meguro.Core.Tiling
import Meguro.HashDb.Database

/-!
# The layout of a database file

From its first record on the file is tiled by records and free blocks, and by holes
while a record is on its way to them. The entries of the pool are runs of free
blocks apart from each other. Claiming a region, splitting a hole, filling one and
growing the file keep the layout.
-/

namespace Meguro

open ByteFile Tiling

/-- A block of the file; a hole is set aside for a record that is not yet written. -/
inductive Block
  | record (r : StoredRecord)
  | free (rsiz : Nat)
  | hole (rsiz : Nat)

namespace Block

def size (fmt : HdbFormat) : Block → Nat
  | record r => r.size fmt
  | free rsiz => rsiz
  | hole rsiz => rsiz

/-- The bytes a block is recognized by. -/
def bytes (fmt : HdbFormat) : Block → List UInt8
  | record r => r.bytes fmt
  | free rsiz => hdbMagicFb :: leBytes 4 rsiz
  | hole _ => []

/-- The numbers of a block fit their fields, and its bytes the block. -/
def Fits (fmt : HdbFormat) : Block → Prop
  | record r => r.Fits fmt
  | free rsiz => 5 ≤ rsiz
  | hole rsiz => 5 ≤ rsiz

def IsFree : Block → Prop
  | free _ => True
  | _ => False

variable {fmt : HdbFormat} {b : Block}

theorem length_bytes_le (h : b.Fits fmt) : (b.bytes fmt).length ≤ b.size fmt := by
  cases b with
  | record r => exact Nat.le_refl _
  | free rsiz =>
    rw [bytes, List.length_cons, length_leBytes]
    exact h
  | hole rsiz => exact Nat.zero_le _

theorem five_le_size (h : b.Fits fmt) : 5 ≤ b.size fmt := by
  cases b with
  | record r =>
    have hlen := StoredRecord.length_header fmt r
    have hsize := StoredRecord.size_eq fmt r
    have hlink := fmt.linkSiz_eq
    change 5 ≤ r.size fmt
    omega
  | free rsiz => exact h
  | hole rsiz => exact h

end Block

/-- The formats `tchdbtune` and `tchdbopen` make. -/
structure HdbFormat.Valid (fmt : HdbFormat) : Prop where
  apow_le : fmt.apow ≤ 16
  bnum_pos : 0 < fmt.bnum
  msiz_le : fmt.msiz ≤ fmt.frec
  frec_aligned : fmt.align ∣ fmt.frec

/-! ## The pool -/

/-- Two regions of the file do not overlap. -/
def HDBFB.Apart (a b : HDBFB) : Prop := a.off + a.rsiz ≤ b.off ∨ b.off + b.rsiz ≤ a.off

theorem HDBFB.Apart.symm {a b : HDBFB} (h : a.Apart b) : b.Apart a := Or.symm h

/-- The entries of the pool are runs of free blocks, apart from each other. -/
structure Pool (H : Nat → Option Block) (fsiz : Nat) (fbpool : List HDBFB) : Prop where
  filled : ∀ fb ∈ fbpool, Filled Block.IsFree H fsiz fb.off fb.rsiz
  apart : fbpool.Pairwise HDBFB.Apart

namespace Pool

variable {H : Nat → Option Block} {fsiz : Nat} {fbpool fbpool' : List HDBFB} {fb : HDBFB}

theorem nil (H : Nat → Option Block) (fsiz : Nat) : Pool H fsiz [] :=
  ⟨fun _ hfb => (List.not_mem_nil hfb).elim, List.Pairwise.nil⟩

theorem perm (h : Pool H fsiz fbpool) (hperm : fbpool'.Perm fbpool) : Pool H fsiz fbpool' :=
  ⟨fun fb hfb => h.filled fb (hperm.subset hfb),
    (hperm.pairwise_iff fun hab => HDBFB.Apart.symm hab).mpr h.apart⟩

theorem sublist (h : Pool H fsiz fbpool) (hsub : fbpool'.Sublist fbpool) : Pool H fsiz fbpool' :=
  ⟨fun fb hfb => h.filled fb (hsub.subset hfb), h.apart.sublist hsub⟩

theorem cons (h : Pool H fsiz fbpool) (fb : HDBFB) (hfb : Filled Block.IsFree H fsiz fb.off fb.rsiz)
    (hapart : ∀ fb' ∈ fbpool, fb.Apart fb') : Pool H fsiz (fb :: fbpool) := by
  refine ⟨fun fb' hmem => ?_, List.pairwise_cons.mpr ⟨hapart, h.apart⟩⟩
  rcases List.mem_cons.mp hmem with rfl | hmem
  · exact hfb
  · exact h.filled fb' hmem

theorem head_apart (h : Pool H fsiz (fb :: fbpool)) : ∀ fb' ∈ fbpool, fb.Apart fb' :=
  (List.pairwise_cons.mp h.apart).1

/-- The entries the loop of a merge has still to look at. -/
def ahead (cur : HDBFB) (rest : List HDBFB) : List HDBFB :=
  if cur.off > 0 then cur :: rest else rest

/-- Merging neighbours keeps the pool, and what is apart from all of its entries
stays so. -/
theorem mergeLoop (hfsiz : fsiz < 2 ^ 31) {rest : List HDBFB} {cur : HDBFB} (iter : Nat)
    (h : Pool H fsiz (ahead cur rest)) :
    Pool H fsiz (HDBFB.mergeLoop iter cur rest).1 ∧
      ∀ x : HDBFB, 0 < x.rsiz → (∀ fb ∈ ahead cur rest, x.Apart fb) →
        ∀ fb ∈ (HDBFB.mergeLoop iter cur rest).1, x.Apart fb := by
  induction rest generalizing cur iter with
  | nil => exact ⟨h, fun x _ hx => hx⟩
  | cons next rest ih =>
    have hsub : (ahead next rest).Sublist (next :: rest) := by
      unfold ahead
      split
      · exact List.Sublist.refl _
      · exact List.sublist_cons_self _ _
    by_cases hcur : cur.off > 0
    · have hahead : ahead cur (next :: rest) = cur :: next :: rest := if_pos hcur
      rw [hahead] at h ⊢
      have hnext : Pool H fsiz (next :: rest) := h.sublist (List.sublist_cons_self _ _)
      have hcurapart := h.head_apart
      by_cases hjoin : cur.off + cur.rsiz = next.off
      · rw [HDBFB.mergeLoop_cons, if_pos hcur, if_pos hjoin]
        dsimp only
        generalize (if iter = next.off then iter + next.rsiz else iter) = iter'
        obtain ⟨hpool, hkeep⟩ := @ih { next with off := 0 } iter'
          (hnext.sublist (List.sublist_cons_self _ _))
        have hleft := h.filled cur List.mem_cons_self
        have hright := h.filled next (List.mem_cons_of_mem _ List.mem_cons_self)
        rw [← hjoin] at hright
        have hboth := hleft.append hright
        have hle := hboth.le
        have hmod : (cur.rsiz + next.rsiz) % 2 ^ 32 = cur.rsiz + next.rsiz :=
          Nat.mod_eq_of_lt (by omega)
        rw [hmod]
        refine ⟨hpool.cons _ hboth (hkeep _ hboth.pos fun fb hfb => ?_),
          fun x hxpos hx fb hfb => ?_⟩
        · have h₁ := hcurapart fb (List.mem_cons_of_mem _ hfb)
          have h₂ := hnext.head_apart fb hfb
          have hpos := (hnext.filled fb (List.mem_cons_of_mem _ hfb)).pos
          have hpos' := hright.pos
          have hpos'' := hleft.pos
          unfold HDBFB.Apart at h₁ h₂ ⊢
          dsimp only at *
          omega
        · rcases List.mem_cons.mp hfb with rfl | hfb
          · have h₁ := hx cur List.mem_cons_self
            have h₂ := hx next (List.mem_cons_of_mem _ List.mem_cons_self)
            unfold HDBFB.Apart at h₁ h₂ ⊢
            dsimp only at *
            have hpos' := hright.pos
            have hpos'' := hleft.pos
            omega
          · exact hkeep x hxpos (fun fb hfb =>
              hx fb (List.mem_cons_of_mem _ (List.mem_cons_of_mem _ hfb))) fb hfb
      · rw [HDBFB.mergeLoop_cons, if_pos hcur, if_neg hjoin]
        dsimp only
        obtain ⟨hpool, hkeep⟩ := @ih next iter (hnext.sublist hsub)
        refine ⟨hpool.cons cur (h.filled cur List.mem_cons_self)
          (hkeep cur (h.filled cur List.mem_cons_self).pos
            fun fb hfb => hcurapart fb (hsub.subset hfb)), fun x hxpos hx fb hfb => ?_⟩
        rcases List.mem_cons.mp hfb with rfl | hfb
        · exact hx _ List.mem_cons_self
        · exact hkeep x hxpos
            (fun fb hfb => hx fb (List.mem_cons_of_mem _ (hsub.subset hfb))) fb hfb
    · have hahead : ahead cur (next :: rest) = next :: rest := if_neg hcur
      rw [hahead] at h ⊢
      rw [HDBFB.mergeLoop_cons, if_neg hcur]
      obtain ⟨hpool, hkeep⟩ := @ih next iter (h.sublist hsub)
      exact ⟨hpool, fun x hxpos hx => hkeep x hxpos fun fb hfb => hx fb (hsub.subset hfb)⟩

end Pool

/-! ## The layout -/

/-- The file from its first record on. -/
structure Layout (fmt : HdbFormat) (file : ByteFile) (fsiz : Nat) (fbpool : List HDBFB)
    (H : Nat → Option Block) (holes : List Nat) : Prop where
  tiled : Tiled (Block.size fmt) H fmt.frec fsiz
  has : ∀ {off b}, H off = some b → file.Has off (b.bytes fmt)
  fits : ∀ {off b}, H off = some b → b.Fits fmt
  aligned : ∀ {off}, Boundary H fsiz off → fmt.align ∣ off
  hole : ∀ {off rsiz}, H off = some (.hole rsiz) → off ∈ holes
  pool : Pool H fsiz fbpool
  fsiz_lt : fsiz < 2 ^ 31

/-- The bytes of a block change or become those of another one, nothing else does. -/
theorem boundary_update {H : Nat → Option Block} {fsiz off x : Nat} {b : Block}
    (h : Boundary H fsiz x) : Boundary (Function.update H off (some b)) fsiz x := by
  rcases h with rfl | ⟨c, hc⟩
  · exact .inl rfl
  · by_cases hx : x = off
    · exact .inr ⟨b, by rw [hx, Function.update_self]⟩
    · exact .inr ⟨c, by rw [Function.update_of_ne hx, hc]⟩

theorem boundary_of_update {H : Nat → Option Block} {fsiz off x : Nat} {b c : Block}
    (hc : H off = some c) (h : Boundary (Function.update H off (some b)) fsiz x) :
    Boundary H fsiz x := by
  rcases h with rfl | ⟨d, hd⟩
  · exact .inl rfl
  · by_cases hx : x = off
    · exact .inr ⟨c, by rw [hx, hc]⟩
    · exact .inr ⟨d, by rwa [Function.update_of_ne hx] at hd⟩

/-- A block that is not free lies beside every run of free blocks. -/
theorem apart_filled {fmt : HdbFormat} {H : Nat → Option Block} {lo fsiz off x n : Nat} {b : Block}
    (ht : Tiled (Block.size fmt) H lo fsiz) (hb : H off = some b) (hfree : ¬b.IsFree)
    (hrun : Filled Block.IsFree H fsiz x n) : off + b.size fmt ≤ x ∨ x + n ≤ off := by
  by_contra hin
  rcases Nat.lt_or_ge off x with hlt | hge
  · exact hin (.inl (ht.le_boundary hb hrun.start hlt))
  · exact hfree (hrun.all hge (by omega) hb)

namespace Layout

variable {fmt : HdbFormat} {file file' : ByteFile} {fsiz off n : Nat} {fbpool fbpool' : List HDBFB}
  {H : Nat → Option Block} {holes holes' : List Nat} {b b' : Block}

/-- The layout says nothing about the bytes in front of the first record. -/
theorem of_file (h : Layout fmt file fsiz fbpool H holes)
    (hfile : ∀ i, fmt.frec ≤ i → file' i = file i) : Layout fmt file' fsiz fbpool H holes :=
  { h with
    has := fun hb =>
      (h.has hb).congr fun i hi _ => hfile i ((h.tiled.inside hb).1.trans hi) }

theorem of_pool (h : Layout fmt file fsiz fbpool H holes) (hpool : Pool H fsiz fbpool') :
    Layout fmt file fsiz fbpool' H holes :=
  { h with pool := hpool }

/-- The bytes of a block behind its end and those of the others in front of it. -/
theorem range (h : Layout fmt file fsiz fbpool H holes) (hb : H off = some b) :
    (b.bytes fmt).length ≤ b.size fmt ∧ fmt.frec ≤ off ∧ off + b.size fmt ≤ fsiz :=
  ⟨Block.length_bytes_le (h.fits hb), h.tiled.inside hb⟩

/-- A block that is not free becomes another one of its size. -/
theorem update (h : Layout fmt file fsiz fbpool H holes) (hb : H off = some b) (hfree : ¬b.IsFree)
    (hsize : b'.size fmt = b.size fmt) (hfits : b'.Fits fmt)
    (hout : ∀ i, fmt.frec ≤ i → i < off ∨ off + b.size fmt ≤ i → file' i = file i)
    (hhas : file'.Has off (b'.bytes fmt)) (hholes : ∀ x ∈ holes, x ≠ off → x ∈ holes')
    (hhole : ∀ rsiz, b' = .hole rsiz → off ∈ holes') :
    Layout fmt file' fsiz fbpool (Function.update H off (some b')) holes' where
  tiled := h.tiled.update hb hsize
  has := by
    intro x c hc
    by_cases hx : x = off
    · rw [hx, Function.update_self, Option.some.injEq] at hc
      rw [hx, ← hc]
      exact hhas
    · rw [Function.update_of_ne hx] at hc
      have hrange := h.range hc
      have hapart := h.tiled.apart hc hb hx
      exact (h.has hc).congr fun i hi hlt => hout i (by omega) (by omega)
  fits := by
    intro x c hc
    by_cases hx : x = off
    · rw [hx, Function.update_self, Option.some.injEq] at hc
      exact hc ▸ hfits
    · rw [Function.update_of_ne hx] at hc
      exact h.fits hc
  aligned := fun hx => h.aligned (boundary_of_update hb hx)
  hole := by
    intro x rsiz hc
    by_cases hx : x = off
    · rw [hx, Function.update_self, Option.some.injEq] at hc
      rw [hx]
      exact hhole rsiz hc
    · rw [Function.update_of_ne hx] at hc
      exact hholes x (h.hole hc) hx
  pool := by
    refine ⟨fun fb hfb => ?_, h.pool.apart⟩
    have hrun := h.pool.filled fb hfb
    have hle := hrun.le
    have hpos := hrun.pos
    refine hrun.congr (fun x hge hlt => ?_) (boundary_update hrun.stop) hrun.le (by omega)
    have hapart := apart_filled h.tiled hb hfree hrun
    have hsizepos := h.tiled.pos hb
    rw [Function.update_of_ne (by omega)]
  fsiz_lt := h.fsiz_lt

/-- A region between two boundaries becomes a hole; the pool keeps what lies beside
it. -/
theorem claim (h : Layout fmt file fsiz fbpool H holes) (hpool : Pool H fsiz fbpool')
    (hoff : Boundary H fsiz off) (hend : Boundary H fsiz (off + n)) (hlo : fmt.frec ≤ off)
    (hhi : off + n ≤ fsiz) (hn : 5 ≤ n)
    (hapart : ∀ fb ∈ fbpool', off + n ≤ fb.off ∨ fb.off + fb.rsiz ≤ off)
    (hholes : ∀ x ∈ holes, x < off ∨ off + n ≤ x → x ∈ holes') (hself : off ∈ holes') :
    Layout fmt file fsiz fbpool' (replace H off n (.hole n)) holes' where
  tiled := h.tiled.replace hoff hend hlo hhi (by omega) rfl
  has := by
    intro x c hc
    by_cases hx : x = off
    · rw [hx, replace_self, Option.some.injEq] at hc
      rw [← hc]
      exact has_nil file x
    · exact h.has (outside_of_replace hc hx (by omega)).2
  fits := by
    intro x c hc
    by_cases hx : x = off
    · rw [hx, replace_self, Option.some.injEq] at hc
      exact hc ▸ hn
    · exact h.fits (outside_of_replace hc hx (by omega)).2
  aligned := by
    rintro x (rfl | ⟨c, hc⟩)
    · exact h.aligned (.inl rfl)
    · by_cases hx : x = off
      · exact hx ▸ h.aligned hoff
      · exact h.aligned (.inr ⟨c, (outside_of_replace hc hx (by omega)).2⟩)
  hole := by
    intro x rsiz hc
    by_cases hx : x = off
    · exact hx ▸ hself
    · obtain ⟨hout, hc⟩ := outside_of_replace hc hx (by omega)
      exact hholes x (h.hole hc) hout
  pool := by
    refine ⟨fun fb hfb => ?_, hpool.apart⟩
    have hrun := hpool.filled fb hfb
    have hle := hrun.le
    have hpos := hrun.pos
    have hbeside := hapart fb hfb
    refine hrun.congr (fun x hge hlt => ?_) (hrun.stop.replace ?_ (by omega)) hrun.le (by omega)
    · rw [replace_of_outside (by omega) (by omega)]
    · omega
  fsiz_lt := h.fsiz_lt

/-- A hole is split into two. -/
theorem split (h : Layout fmt file fsiz fbpool H holes) {a m : Nat}
    (hb : H off = some (.hole (a + m))) (ha : 5 ≤ a) (hm : 5 ≤ m) (haligned : fmt.align ∣ off + a) :
    Layout fmt file fsiz fbpool
      (Function.update (Function.update H off (some (.hole a))) (off + a) (some (.hole m)))
      ((off + a) :: holes) := by
  have hnone : H (off + a) = none :=
    h.tiled.alone hb (by omega) (by change off + a < off + (a + m); omega)
  have hcase : ∀ {x c}, Function.update (Function.update H off (some (.hole a))) (off + a)
      (some (.hole m)) x = some c → x = off ∧ c = .hole a ∨ x = off + a ∧ c = .hole m ∨
        x ≠ off ∧ x ≠ off + a ∧ H x = some c := by
    intro x c hc
    by_cases hxm : x = off + a
    · rw [hxm, Function.update_self, Option.some.injEq] at hc
      exact .inr (.inl ⟨hxm, hc.symm⟩)
    · rw [Function.update_of_ne hxm] at hc
      by_cases hx : x = off
      · rw [hx, Function.update_self, Option.some.injEq] at hc
        exact .inl ⟨hx, hc.symm⟩
      · rw [Function.update_of_ne hx] at hc
        exact .inr (.inr ⟨hx, hxm, hc⟩)
  refine ⟨h.tiled.split (.hole a) (.hole m) hb rfl (by change 0 < a; omega)
    (by change 0 < m; omega), ?_, ?_, ?_, ?_, ?_, h.fsiz_lt⟩
  · intro x c hc
    rcases hcase hc with ⟨-, rfl⟩ | ⟨-, rfl⟩ | ⟨-, -, hc⟩
    · exact has_nil file x
    · exact has_nil file x
    · exact h.has hc
  · intro x c hc
    rcases hcase hc with ⟨-, rfl⟩ | ⟨-, rfl⟩ | ⟨-, -, hc⟩
    · exact ha
    · exact hm
    · exact h.fits hc
  · rintro x (rfl | ⟨c, hc⟩)
    · exact h.aligned (.inl rfl)
    · rcases hcase hc with ⟨rfl, -⟩ | ⟨rfl, -⟩ | ⟨-, -, hc⟩
      · exact h.aligned (.inr ⟨_, hb⟩)
      · exact haligned
      · exact h.aligned (.inr ⟨c, hc⟩)
  · intro x rsiz hc
    rcases hcase hc with ⟨rfl, -⟩ | ⟨rfl, -⟩ | ⟨-, -, hc⟩
    · exact List.mem_cons_of_mem _ (h.hole hb)
    · exact List.mem_cons_self
    · exact List.mem_cons_of_mem _ (h.hole hc)
  · refine ⟨fun fb hfb => ?_, h.pool.apart⟩
    have hrun := h.pool.filled fb hfb
    have hle := hrun.le
    have hpos := hrun.pos
    have hapart : off + (a + m) ≤ fb.off ∨ fb.off + fb.rsiz ≤ off :=
      apart_filled h.tiled hb (fun hfree => hfree) hrun
    refine hrun.congr (fun x hge hlt => ?_) (boundary_update (boundary_update hrun.stop)) hrun.le
      (by omega)
    rw [Function.update_of_ne (by omega), Function.update_of_ne (by omega)]

/-- The file grows by a record. -/
theorem grow (h : Layout fmt file fsiz fbpool H holes) (hfits : b.Fits fmt)
    (hout : ∀ i, fmt.frec ≤ i → i < fsiz → file' i = file i) (hhas : file'.Has fsiz (b.bytes fmt))
    (haligned : fmt.align ∣ fsiz + b.size fmt) (hhole : ∀ rsiz, b ≠ .hole rsiz)
    (hlt : fsiz + b.size fmt < 2 ^ 31) :
    Layout fmt file' (fsiz + b.size fmt) fbpool (Function.update H fsiz (some b)) holes := by
  have hsize := Block.five_le_size hfits
  refine ⟨h.tiled.append (by omega), ?_, ?_, ?_, ?_, ?_, hlt⟩
  · intro x c hc
    by_cases hx : x = fsiz
    · rw [hx, Function.update_self, Option.some.injEq] at hc
      rw [hx, ← hc]
      exact hhas
    · rw [Function.update_of_ne hx] at hc
      have hrange := h.range hc
      exact (h.has hc).congr fun i hi hlt => hout i (by omega) (by omega)
  · intro x c hc
    by_cases hx : x = fsiz
    · rw [hx, Function.update_self, Option.some.injEq] at hc
      exact hc ▸ hfits
    · rw [Function.update_of_ne hx] at hc
      exact h.fits hc
  · rintro x (rfl | ⟨c, hc⟩)
    · exact haligned
    · by_cases hx : x = fsiz
      · exact h.aligned (.inl hx)
      · rw [Function.update_of_ne hx] at hc
        exact h.aligned (.inr ⟨c, hc⟩)
  · intro x rsiz hc
    by_cases hx : x = fsiz
    · rw [hx, Function.update_self, Option.some.injEq] at hc
      exact (hhole rsiz hc).elim
    · rw [Function.update_of_ne hx] at hc
      exact h.hole hc
  · refine ⟨fun fb hfb => ?_, h.pool.apart⟩
    have hrun := h.pool.filled fb hfb
    have hle := hrun.le
    have hpos := hrun.pos
    refine hrun.congr (fun x hge hlt => ?_) ?_ (by omega) (by omega)
    · rw [Function.update_of_ne (by omega)]
    · rcases hrun.stop with hstop | ⟨c, hc⟩
      · exact .inr ⟨b, by rw [hstop, Function.update_self]⟩
      · have hne := h.tiled.lt_of_some hc
        exact .inr ⟨c, by rw [Function.update_of_ne (by omega), hc]⟩

end Layout

end Meguro
