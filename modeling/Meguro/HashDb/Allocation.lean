import Meguro.HashDb.Layout
import Mathlib.Data.List.Perm.Basic

/-!
# Room for a record

What the free block pool does to the layout of the file: a block given back becomes
an entry of the pool, a search and a splice turn entries into holes, and
`tchdbwriterec` fills the hole or the end of the file with the record. None of this
touches the bucket array or another record.
-/

namespace Meguro

open ByteFile Tiling

/-- What work on the free space leaves as it was. -/
structure Keeps (fmt : HdbFormat) (hdb : TCHDB) (H : Nat → Option Block) (hdb' : TCHDB)
    (H' : Nat → Option Block) : Prop where
  buckets : ∀ i, hdbHeadSiz ≤ i → i < fmt.frec → hdb'.file i = hdb.file i
  rnum : hdb'.rnum = hdb.rnum
  fsiz : hdb'.fsiz = hdb.fsiz
  records : ∀ off r, H' off = some (.record r) ↔ H off = some (.record r)

theorem Keeps.refl (fmt : HdbFormat) (hdb : TCHDB) (H : Nat → Option Block) :
    Keeps fmt hdb H hdb H := ⟨fun _ _ _ => rfl, rfl, rfl, fun _ _ => Iff.rfl⟩

theorem Keeps.trans {fmt : HdbFormat} {hdb hdb' hdb'' : TCHDB} {H H' H'' : Nat → Option Block}
    (h : Keeps fmt hdb H hdb' H') (h' : Keeps fmt hdb' H' hdb'' H'') :
    Keeps fmt hdb H hdb'' H'' where
  buckets := fun i hi hlt => (h'.buckets i hi hlt).trans (h.buckets i hi hlt)
  rnum := h'.rnum.trans h.rnum
  fsiz := h'.fsiz.trans h.fsiz
  records := fun off r => (h'.records off r).trans (h.records off r)

/-- The layout of a database. -/
abbrev TCHDB.Laid (fmt : HdbFormat) (hdb : TCHDB) (H : Nat → Option Block)
    (holes : List Nat) : Prop :=
  Layout fmt hdb.file hdb.fsiz hdb.fbpool H holes

theorem records_update {H : Nat → Option Block} {off : Nat} {b : Block}
    (hH : ∀ r, H off ≠ some (.record r)) (hb : ∀ r, b ≠ .record r) (x : Nat) (r : StoredRecord) :
    Function.update H off (some b) x = some (.record r) ↔ H x = some (.record r) := by
  by_cases hx : x = off
  · rw [hx, Function.update_self, Option.some.injEq]
    exact ⟨fun h => (hb r h).elim, fun h => (hH r h).elim⟩
  · rw [Function.update_of_ne hx]

theorem records_replace {H : Nat → Option Block} {off n rsiz : Nat} (hn : 0 < n)
    (hH : ∀ x, off ≤ x → x < off + n → ∀ r, H x ≠ some (.record r)) (x : Nat) (r : StoredRecord) :
    replace H off n (.hole rsiz) x = some (.record r) ↔ H x = some (.record r) := by
  by_cases hx : x < off ∨ off + n ≤ x
  · rw [replace_of_outside hx hn]
  · refine ⟨fun h => ?_, fun h => (hH x (by omega) (by omega) r h).elim⟩
    by_cases hself : x = off
    · rw [hself, replace_self] at h
      cases h
    · rw [replace_of_inside (by omega) (by omega)] at h
      cases h

/-- Where a hole is there is no record. -/
theorem hole_ne_record {H : Nat → Option Block} {off rsiz : Nat} (hb : H off = some (.hole rsiz))
    (r : StoredRecord) : H off ≠ some (.record r) := by
  rw [hb]
  exact fun hr => by cases hr

/-- A run of free blocks has no record. -/
theorem filled_ne_record {H : Nat → Option Block} {fsiz off n x : Nat}
    (h : Filled Block.IsFree H fsiz off n) (hle : off ≤ x) (hlt : x < off + n) (r : StoredRecord) :
    H x ≠ some (.record r) :=
  fun hx => h.all hle hlt hx

/-! ## Entering a block into the pool -/

/-- The pool has changed, and keeps away from what it kept away from. -/
structure TCHDB.Repooled (H : Nat → Option Block) (hdb hdb' : TCHDB) : Prop where
  eq : ∃ fbpool iter fbpmis, hdb' = { hdb with fbpool, iter, fbpmis }
  pool : Pool H hdb.fsiz hdb'.fbpool
  apart : ∀ x : HDBFB, 0 < x.rsiz → (∀ fb ∈ hdb.fbpool, x.Apart fb) →
    ∀ fb ∈ hdb'.fbpool, x.Apart fb

theorem fbpMerge_repooled {H : Nat → Option Block} {hdb : TCHDB} (h : Pool H hdb.fsiz hdb.fbpool)
    (hfsiz : hdb.fsiz < 2 ^ 31) : hdb.Repooled H (HdbFormat.fbpMerge hdb) := by
  have hperm := HDBFB.sortByOff_perm hdb.fbpool
  unfold HdbFormat.fbpMerge
  cases hsort : HDBFB.sortByOff hdb.fbpool with
  | nil => exact ⟨⟨hdb.fbpool, hdb.iter, hdb.fbpmis, rfl⟩, h, fun x _ hx => hx⟩
  | cons cur rest =>
    rw [hsort] at hperm
    have hahead : (Pool.ahead cur rest).Sublist (cur :: rest) := by
      unfold Pool.ahead
      split
      · exact List.Sublist.refl _
      · exact List.sublist_cons_self _ _
    obtain ⟨hpool, hkeep⟩ := Pool.mergeLoop hfsiz hdb.iter ((h.perm hperm).sublist hahead)
    exact ⟨⟨_, _, _, rfl⟩, hpool, fun x hpos hx =>
      hkeep x hpos fun fb hfb => hx fb (hperm.subset (hahead.subset hfb))⟩

variable {fmt : HdbFormat} {hdb : TCHDB} {H : Nat → Option Block} {holes : List Nat}

theorem fbpReduce_repooled (fmt : HdbFormat) (h : Pool H hdb.fsiz hdb.fbpool)
    (hfsiz : hdb.fsiz < 2 ^ 31) : hdb.Repooled H (fmt.fbpReduce hdb) := by
  obtain ⟨⟨fbpool, iter, fbpmis, heq⟩, hpool, hkeep⟩ := fbpMerge_repooled h hfsiz
  have hperm := HDBFB.sortByRsiz_perm (HdbFormat.fbpMerge hdb).fbpool
  unfold HdbFormat.fbpReduce
  rw [heq] at hpool hkeep hperm ⊢
  exact ⟨⟨_, _, _, rfl⟩, (hpool.perm hperm).sublist (List.drop_sublist _ _), fun x hpos hx fb hfb =>
    hkeep x hpos hx fb (hperm.subset (List.mem_of_mem_drop hfb))⟩

/-- A run of free blocks enters the pool. -/
theorem fbpInsert_spec (fmt : HdbFormat) (h : Pool H hdb.fsiz hdb.fbpool)
    (hfsiz : hdb.fsiz < 2 ^ 31) {off rsiz : Nat} (hrun : Filled Block.IsFree H hdb.fsiz off rsiz)
    (hapart : ∀ fb ∈ hdb.fbpool, HDBFB.Apart ⟨off, rsiz⟩ fb) :
    ∃ fbpool iter fbpmis, fmt.fbpInsert hdb off rsiz = { hdb with fbpool, iter, fbpmis } ∧
      Pool H hdb.fsiz fbpool := by
  unfold HdbFormat.fbpInsert
  by_cases hfpow : fmt.fpow < 1
  · rw [if_pos hfpow]
    exact ⟨_, _, _, rfl, h⟩
  rw [if_neg hfpow]
  dsimp only
  by_cases hfull : hdb.fbpool.length ≥ fmt.fbpMax * hdbFbpAlwRat
  · obtain ⟨⟨fbpool, iter, fbpmis, heq⟩, hpool, hkeep⟩ := fbpReduce_repooled fmt h hfsiz
    rw [if_pos hfull]
    have hnew := hkeep ⟨off, rsiz⟩ hrun.pos hapart
    rw [heq] at hpool hnew ⊢
    exact ⟨_, _, _, rfl, (hpool.cons ⟨off, rsiz⟩ hrun hnew).perm (HDBFB.insertAt_perm _ _)⟩
  · rw [if_neg hfull]
    exact ⟨_, _, _, rfl, (h.cons ⟨off, rsiz⟩ hrun hapart).perm (HDBFB.insertAt_perm _ _)⟩

/-- A hole becomes a free block. -/
theorem freeHole (holes' : List Nat) {file : ByteFile} {fsiz : Nat} {fbpool : List HDBFB}
    (h : Layout fmt file fsiz fbpool H holes) {off rsiz : Nat} (hb : H off = some (.hole rsiz))
    (hholes : ∀ x ∈ holes, x ≠ off → x ∈ holes') :
    Layout fmt (file.write off (hdbMagicFb :: leBytes 4 rsiz)) fsiz fbpool
        (Function.update H off (some (.free rsiz))) holes' ∧
      (∀ i < fmt.frec, file.write off (hdbMagicFb :: leBytes 4 rsiz) i = file i) ∧
      ∀ x r, Function.update H off (some (.free rsiz)) x = some (.record r) ↔
        H x = some (.record r) := by
  have hrange := h.tiled.inside hb
  have hsize : 5 ≤ rsiz := h.fits hb
  have hlen : (hdbMagicFb :: leBytes 4 rsiz).length = 5 := by rw [List.length_cons, length_leBytes]
  have hout : ∀ i, i < off ∨ off + rsiz ≤ i →
      file.write off (hdbMagicFb :: leBytes 4 rsiz) i = file i := by
    rintro i (hi | hi)
    · exact write_of_lt _ hi
    · exact write_of_le (by rw [hlen]; omega)
  refine ⟨h.update hb (fun hfree => hfree) rfl hsize (fun i _ hi => hout i hi) (has_write _ _ _)
    hholes (fun n hn => by cases hn), fun i hi => hout i (.inl (by omega)), ?_⟩
  exact records_update (hole_ne_record hb) fun r hr => by cases hr

/-- A hole becomes a free block of the pool. -/
theorem releaseHole (holes' : List Nat) (h : hdb.Laid fmt H holes) {off rsiz : Nat}
    (hb : H off = some (.hole rsiz)) (hholes : ∀ x ∈ holes, x ≠ off → x ∈ holes') :
    (fmt.fbpInsert (HdbFormat.writeFb hdb off rsiz) off rsiz).Laid fmt
        (Function.update H off (some (.free rsiz))) holes' ∧
      Keeps fmt hdb H (fmt.fbpInsert (HdbFormat.writeFb hdb off rsiz) off rsiz)
        (Function.update H off (some (.free rsiz))) := by
  obtain ⟨hfree, hfile, hrecords⟩ := freeHole holes' h hb hholes
  have hapart : ∀ fb ∈ hdb.fbpool, HDBFB.Apart ⟨off, rsiz⟩ fb := fun fb hfb =>
    apart_filled h.tiled hb (fun hfree => hfree) (h.pool.filled fb hfb)
  have hrun : Filled Block.IsFree (Function.update H off (some (.free rsiz))) hdb.fsiz off rsiz :=
    Filled.of_block hfree.tiled (Function.update_self ..) trivial
  obtain ⟨fbpool, iter, fbpmis, heq, hpool⟩ :=
    @fbpInsert_spec (HdbFormat.writeFb hdb off rsiz) _ fmt hfree.pool h.fsiz_lt _ _ hrun hapart
  rw [heq]
  exact ⟨hfree.of_pool hpool, fun i _ hi => hfile i hi, rfl, rfl, hrecords⟩

/-- A hole is split into two. -/
theorem splitHole {file : ByteFile} {fsiz : Nat} {fbpool : List HDBFB}
    (h : Layout fmt file fsiz fbpool H holes) {off a m : Nat} (hb : H off = some (.hole (a + m)))
    (ha : 5 ≤ a) (hm : 5 ≤ m) (haligned : fmt.align ∣ off + a) :
    ∃ K, Layout fmt file fsiz fbpool K ((off + a) :: holes) ∧ K off = some (.hole a) ∧
      K (off + a) = some (.hole m) ∧
      ∀ x r, K x = some (.record r) ↔ H x = some (.record r) := by
  have hnone : H (off + a) = none :=
    h.tiled.alone hb (by omega) (by change off + a < off + (a + m); omega)
  have hother : Function.update H off (some (.hole a)) (off + a) = none := by
    rw [Function.update_of_ne (by omega), hnone]
  refine ⟨_, h.split hb ha hm haligned, ?_, Function.update_self .., fun x r => ?_⟩
  · rw [Function.update_of_ne (by omega), Function.update_self]
  · rw [records_update (fun r hr => by rw [hother] at hr; cases hr) (fun r hr => by cases hr),
      records_update (hole_ne_record hb) (fun r hr => by cases hr)]

/-! ## Finding room -/

/-- The room for a record: a hole, or the end of the file. -/
def Room (hdb : TCHDB) (H : Nat → Option Block) (holes : List Nat) (off rsiz : Nat) : Prop :=
  rsiz = 0 ∧ off = hdb.fsiz ∧ holes = [] ∨ H off = some (.hole rsiz) ∧ holes = [off]

/-- An entry of the pool becomes a hole. -/
theorem claimEntry (h : hdb.Laid fmt H []) {pv : HDBFB} {fbpool : List HDBFB}
    (hperm : (pv :: fbpool).Perm hdb.fbpool) (hsize : 5 ≤ pv.rsiz) :
    Layout fmt hdb.file hdb.fsiz fbpool (replace H pv.off pv.rsiz (.hole pv.rsiz)) [pv.off] ∧
      ∀ off r, replace H pv.off pv.rsiz (.hole pv.rsiz) off = some (.record r) ↔
        H off = some (.record r) := by
  have hpool := h.pool.perm hperm
  have hrun := hpool.filled pv List.mem_cons_self
  have hle := hrun.le
  refine ⟨h.claim (hpool.sublist (List.sublist_cons_self _ _)) hrun.start hrun.stop
    (h.tiled.inside_filled hrun) hle hsize
    hpool.head_apart (fun x hx => (List.not_mem_nil hx).elim) List.mem_cons_self, ?_⟩
  exact records_replace (by omega) fun x hx hlt => filled_ne_record hrun hx hlt

theorem fbpSearch_spec (h : hdb.Laid fmt H []) (trec : TCHREC) (hsize : 5 ≤ trec.rsiz) :
    ∃ hdb' H' holes off rsiz, fmt.fbpSearch hdb trec = (hdb', { trec with off, rsiz }) ∧
      hdb'.Laid fmt H' holes ∧ Keeps fmt hdb H hdb' H' ∧ Room hdb' H' holes off rsiz ∧
      (rsiz = 0 ∨ trec.rsiz ≤ rsiz) := by
  unfold HdbFormat.fbpSearch
  by_cases hempty : hdb.fbpool.length < 1
  · rw [if_pos hempty]
    exact ⟨hdb, H, [], hdb.fsiz, 0, rfl, h, Keeps.refl _ _ _, .inl ⟨rfl, rfl, rfl⟩, .inl rfl⟩
  rw [if_neg hempty]
  cases hcand : HDBFB.cand hdb.fbpool trec.rsiz with
  | none =>
    dsimp only
    by_cases hmis : hdb.fbpmis + 1 ≥ hdbFbpMgFreq
    · rw [if_pos hmis]
      obtain ⟨⟨fbpool, iter, fbpmis, heq⟩, hpool, -⟩ :=
        @fbpMerge_repooled H { hdb with fbpmis := hdb.fbpmis + 1 } h.pool h.fsiz_lt
      rw [heq] at hpool ⊢
      exact ⟨_, H, [], _, 0, rfl, h.of_pool (hpool.perm (HDBFB.sortByRsiz_perm _)),
        ⟨fun _ _ _ => rfl, rfl, rfl, fun _ _ => Iff.rfl⟩, .inl ⟨rfl, rfl, rfl⟩, .inl rfl⟩
    · rw [if_neg hmis]
      exact ⟨_, H, [], _, 0, rfl, h, ⟨fun _ _ _ => rfl, rfl, rfl, fun _ _ => Iff.rfl⟩,
        .inl ⟨rfl, rfl, rfl⟩, .inl rfl⟩
  | some i =>
    obtain ⟨pv, hpv, hle⟩ := HDBFB.cand_spec hcand
    obtain ⟨hi, hget⟩ := List.getElem?_eq_some_iff.mp hpv
    have hgetD : hdb.fbpool.getD i default = pv := by
      rw [List.getD_eq_getElem?_getD, hpv, Option.getD_some]
    have hperm : (pv :: hdb.fbpool.eraseIdx i).Perm hdb.fbpool := by
      rw [← hget]
      exact List.getElem_cons_eraseIdx_perm hi
    obtain ⟨hlaid, hrecords⟩ := claimEntry h hperm (hsize.trans hle)
    dsimp only
    rw [hgetD]
    by_cases hlarge : pv.rsiz > trec.rsiz * 2 ∧
        pv.rsiz ≥ (pv.off + trec.rsiz + fmt.padSize (pv.off + trec.rsiz) - pv.off) * 2
    · -- the front goes to the record, the rest stays in the pool
      rw [if_pos hlarge]
      have haligned := (fmt.padSize_spec (pv.off + trec.rsiz)).2
      generalize hnoff : pv.off + trec.rsiz + fmt.padSize (pv.off + trec.rsiz) = noff
        at hlarge haligned ⊢
      have ha : pv.off + (noff - pv.off) = noff := by omega
      have hsum : noff - pv.off + (pv.rsiz - (noff - pv.off)) = pv.rsiz := by omega
      generalize hfront : noff - pv.off = a at *
      generalize hrest : pv.rsiz - a = m at *
      have hhole : replace H pv.off pv.rsiz (.hole pv.rsiz) pv.off = some (.hole (a + m)) := by
        rw [replace_self, hsum]
      obtain ⟨K, hsplit, hKoff, hKnoff, hKrecords⟩ :=
        splitHole hlaid hhole (by omega) (by omega) (by rwa [ha])
      rw [ha] at hsplit hKnoff
      obtain ⟨hfree, hfile, hfreeRecords⟩ :=
        freeHole [pv.off] hsplit hKnoff fun x hx hne => List.mem_of_ne_of_mem hne hx
      have hpool : Pool (Function.update K noff (some (.free m))) hdb.fsiz
          (hdb.fbpool.set i ⟨noff, m⟩) := by
        refine (hfree.pool.cons ⟨noff, m⟩
          (Filled.of_block hfree.tiled (Function.update_self ..) trivial) fun fb hfb => ?_).perm
          (List.set_perm_cons_eraseIdx hi _)
        have hapart := (h.pool.perm hperm).head_apart fb hfb
        unfold HDBFB.Apart at hapart ⊢
        dsimp only
        omega
      refine ⟨_, Function.update K noff (some (.free m)), [pv.off], _, _, rfl, hfree.of_pool hpool,
        ⟨fun i _ hi => hfile i hi, rfl, rfl, fun x r => ?_⟩, .inr ⟨?_, rfl⟩, .inr (by omega)⟩
      · rw [hfreeRecords, hKrecords, hrecords]
      · rw [Function.update_of_ne (by omega), hKoff]
    · rw [if_neg hlarge]
      exact ⟨_, _, [pv.off], _, _, rfl, hlaid, ⟨fun _ _ _ => rfl, rfl, rfl, hrecords⟩,
        .inr ⟨replace_self, rfl⟩, .inr hle⟩

/-- The free run behind a hole is added to it. -/
theorem fbpSplice_spec {trec : TCHREC} (h : hdb.Laid fmt H [trec.off])
    (hb : H trec.off = some (.hole trec.rsiz)) (nsiz : Nat) :
    HdbFormat.fbpSplice hdb trec nsiz = none ∨
      ∃ hdb' H' rsiz, HdbFormat.fbpSplice hdb trec nsiz = some (hdb', { trec with rsiz }) ∧
        hdb'.Laid fmt H' [trec.off] ∧ Keeps fmt hdb H hdb' H' ∧
        H' trec.off = some (.hole rsiz) ∧ nsiz ≤ rsiz := by
  unfold HdbFormat.fbpSplice
  by_cases hempty : hdb.fbpool.length < 1
  · exact .inl (if_pos hempty)
  rw [if_neg hempty]
  dsimp only
  by_cases hmagic : trec.off + trec.rsiz + 1 ≤ hdb.fsiz ∧
      hdb.file (trec.off + trec.rsiz) ≠ hdbMagicFb
  · exact .inl (if_pos hmagic)
  rw [if_neg hmagic]
  cases hfind : hdb.fbpool.find? fun pv =>
      pv.off = trec.off + trec.rsiz ∧ trec.rsiz + pv.rsiz ≥ nsiz with
  | none => exact .inl rfl
  | some pv =>
    right
    have hmem := List.mem_of_find?_eq_some hfind
    have hpv := List.find?_some hfind
    rw [decide_eq_true_eq] at hpv
    obtain ⟨hoff, hnsiz⟩ := hpv
    have hperm : (pv :: hdb.fbpool.erase pv).Perm hdb.fbpool := (List.perm_cons_erase hmem).symm
    have hpool := h.pool.perm hperm
    have hrun := hpool.filled pv List.mem_cons_self
    have hstop := hrun.stop
    have hle := hrun.le
    have hpos := hrun.pos
    have hsize : 5 ≤ trec.rsiz := h.fits hb
    have hrange := h.tiled.inside hb
    rw [hoff, Nat.add_assoc] at hstop hle
    have hlaid : Layout fmt hdb.file hdb.fsiz (hdb.fbpool.erase pv)
        (replace H trec.off (trec.rsiz + pv.rsiz) (.hole (trec.rsiz + pv.rsiz))) [trec.off] :=
      h.claim (hpool.sublist (List.sublist_cons_self _ _)) (.inr ⟨_, hb⟩) hstop hrange.1 hle
        (by omega)
      (fun fb hfb => by
        have hrun' := hpool.filled fb (List.mem_cons_of_mem _ hfb)
        have hpos' := hrun'.pos
        have hhole : trec.off + trec.rsiz ≤ fb.off ∨ fb.off + fb.rsiz ≤ trec.off :=
          apart_filled h.tiled hb (fun hfree => hfree) hrun'
        have hapart := hpool.head_apart fb hfb
        unfold HDBFB.Apart at hapart
        omega)
      (fun x hx _ => hx) List.mem_cons_self
    refine ⟨_, _, trec.rsiz + pv.rsiz, rfl, hlaid, ⟨fun _ _ _ => rfl, rfl, rfl, ?_⟩,
      replace_self, hnsiz⟩
    refine records_replace (by omega) fun x hx hlt r hr => ?_
    by_cases hself : x = trec.off
    · rw [hself, hb] at hr
      cases hr
    · rcases Nat.lt_or_ge x (trec.off + trec.rsiz) with hin | hin
      · rw [h.tiled.alone hb (by omega) hin] at hr
        cases hr
      · exact filled_ne_record hrun (by omega) (by omega) r hr

end Meguro
