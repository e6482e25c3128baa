import Meguro.HashDb.Allocation

/-!
# Writing a record

`tchdbwriterec` puts a record into a hole that is large enough or behind the end of
the file. A hole that is too small it gives back, unless the block behind it makes
it large enough, and looks for another place: its second call always has room.
-/

namespace Meguro

open ByteFile Tiling

/-- The record the buffers of a `TCHREC` make. -/
def TCHREC.stored (trec : TCHREC) (key value : List UInt8) (psiz : Nat) : StoredRecord :=
  ⟨trec.hash, trec.left, trec.right, key, value, psiz⟩

/-- A `TCHREC` filled in for a write. -/
structure TCHREC.Carries (trec : TCHREC) (fmt : HdbFormat) (key value : List UInt8) : Prop where
  kbuf : trec.kbuf = some key
  vbuf : trec.vbuf = some value
  ksiz : trec.ksiz = key.length
  vsiz : trec.vsiz = value.length
  left_aligned : fmt.align ∣ trec.left
  right_aligned : fmt.align ∣ trec.right
  left_lt : trec.left < 2 ^ 31
  right_lt : trec.right < 2 ^ 31

/-- The size of a record without its padding. -/
def TCHREC.need (trec : TCHREC) (fmt : HdbFormat) : Nat :=
  (fmt.recHeader trec).length + trec.ksiz + trec.vsiz

/-- A record has been written at `off`; what it is to replace had gone before. -/
structure Placed (fmt : HdbFormat) (hdb : TCHDB) (H : Nat → Option Block) (hdb' : TCHDB)
    (H' : Nat → Option Block) (off : Nat) (r : StoredRecord) : Prop where
  laid : hdb'.Laid fmt H' []
  buckets : ∀ i, hdbHeadSiz ≤ i → i < fmt.frec → hdb'.file i = hdb.file i
  rnum : hdb'.rnum = hdb.rnum
  fsiz : hdb'.fsiz ≤ hdb.fsiz + r.size fmt
  new : H' off = some (.record r)
  fresh : ∀ r', H off ≠ some (.record r')
  records : ∀ x r', x ≠ off → (H' x = some (.record r') ↔ H x = some (.record r'))

theorem Placed.of_keeps {fmt : HdbFormat} {hdb hdb' hdb'' : TCHDB} {H H' H'' : Nat → Option Block}
    {off : Nat} {r : StoredRecord} (h : Keeps fmt hdb H hdb' H')
    (h' : Placed fmt hdb' H' hdb'' H'' off r) : Placed fmt hdb H hdb'' H'' off r where
  laid := h'.laid
  buckets := fun i hi hlt => (h'.buckets i hi hlt).trans (h.buckets i hi hlt)
  rnum := h'.rnum.trans h.rnum
  fsiz := h.fsiz ▸ h'.fsiz
  new := h'.new
  fresh := fun r' hr' => h'.fresh r' ((h.records off r').mpr hr')
  records := fun x r' hx => (h'.records x r' hx).trans (h.records x r')

variable {fmt : HdbFormat} {hdb : TCHDB} {H : Nat → Option Block} {holes : List Nat} {trec : TCHREC}
  {key value : List UInt8}

namespace TCHREC.Carries

theorem length_recHeader (h : trec.Carries fmt key value) (psiz : Nat) :
    (fmt.recHeader trec).length = ((trec.stored key value psiz).header fmt).length := by
  unfold HdbFormat.recHeader HdbFormat.header StoredRecord.header HdbFormat.header TCHREC.stored
  simp only [List.length_cons, List.length_append, length_leBytes, HdbFormat.length_link, h.ksiz,
    h.vsiz]

theorem size_stored (h : trec.Carries fmt key value) (psiz : Nat) :
    (trec.stored key value psiz).size fmt = trec.need fmt + psiz := by
  rw [StoredRecord.size_eq, ← h.length_recHeader psiz]
  unfold TCHREC.need
  rw [h.ksiz, h.vsiz]
  rfl

theorem need_pos (h : trec.Carries fmt key value) : 14 ≤ trec.need fmt := by
  have hlen := StoredRecord.length_header fmt (trec.stored key value 0)
  have hlink := fmt.linkSiz_eq
  have hk := length_setVnumBuf_pos (trec.stored key value 0).key.length
  have hv := length_setVnumBuf_pos (trec.stored key value 0).value.length
  rw [← h.length_recHeader] at hlen
  unfold TCHREC.need
  omega

theorem need_le (h : trec.Carries fmt key value) (hk : key.length < 2 ^ 31)
    (hv : value.length < 2 ^ 31) : trec.need fmt ≤ 30 + key.length + value.length := by
  have hlen := StoredRecord.length_header fmt (trec.stored key value 0)
  have hlink := fmt.linkSiz_eq
  have hk' : (setVnumBuf (trec.stored key value 0).key.length).length ≤ 5 := length_setVnumBuf_le hk
  have hv' : (setVnumBuf (trec.stored key value 0).value.length).length ≤ 5 :=
    length_setVnumBuf_le hv
  have hksiz := h.ksiz
  have hvsiz := h.vsiz
  rw [← h.length_recHeader] at hlen
  unfold TCHREC.need
  omega

/-- The bytes that are written are those of the record. -/
theorem storeRec_file (h : trec.Carries fmt key value) (hdb : TCHDB) {psiz rsiz : Nat}
    (hrsiz : rsiz = trec.need fmt + psiz) :
    (fmt.storeRec hdb { trec with rsiz, psiz }).file =
      hdb.file.write trec.off ((trec.stored key value psiz).bytes fmt) := by
  have hlen : (fmt.recHeader { trec with rsiz, psiz }).length = (fmt.recHeader trec).length := by
    unfold HdbFormat.recHeader HdbFormat.header
    simp only [List.length_cons, List.length_append, length_leBytes]
  have hpad : rsiz - (fmt.recHeader trec).length - trec.ksiz - trec.vsiz = psiz := by
    unfold TCHREC.need at hrsiz
    omega
  unfold HdbFormat.storeRec
  dsimp only
  rw [hlen, hpad, h.kbuf, h.vbuf, Option.getD_some, Option.getD_some]
  unfold HdbFormat.recHeader StoredRecord.bytes StoredRecord.header TCHREC.stored
  dsimp only
  rw [h.ksiz, h.vsiz]

theorem fits_stored (h : trec.Carries fmt key value) {psiz : Nat} (hpsiz : psiz < 2 ^ 16) :
    (trec.stored key value psiz).Fits fmt :=
  ⟨h.left_aligned, h.right_aligned, h.left_lt, h.right_lt, hpsiz⟩

/-- Nothing a write needs depends on the place. -/
theorem move (h : trec.Carries fmt key value) (off rsiz : Nat) :
    { trec with off, rsiz }.Carries fmt key value :=
  ⟨h.kbuf, h.vbuf, h.ksiz, h.vsiz, h.left_aligned, h.right_aligned, h.left_lt, h.right_lt⟩

end TCHREC.Carries

/-- A record of the size of a hole fills it. -/
theorem fillHole (h : hdb.Laid fmt H [trec.off]) (psiz : Nat) {rsiz : Nat}
    (hc : trec.Carries fmt key value) (hb : H trec.off = some (.hole rsiz))
    (hrsiz : rsiz = trec.need fmt + psiz) (hpsiz : psiz < 2 ^ 16) :
    Placed fmt hdb H (fmt.storeRec hdb { trec with rsiz, psiz })
      (Function.update H trec.off (some (.record (trec.stored key value psiz)))) trec.off
      (trec.stored key value psiz) := by
  have hsize := hc.size_stored psiz
  have hfile := hc.storeRec_file hdb hrsiz
  have hrange := h.tiled.inside hb
  have hout : ∀ i, i < trec.off ∨ trec.off + rsiz ≤ i →
      (fmt.storeRec hdb { trec with rsiz, psiz }).file i = hdb.file i := by
    rw [hfile]
    rintro i (hi | hi)
    · exact write_of_lt _ hi
    · refine write_of_le ?_
      change trec.off + (trec.stored key value psiz).size fmt ≤ i
      omega
  refine ⟨h.update hb (fun hfree => hfree) (hsize.trans hrsiz.symm) (hc.fits_stored hpsiz)
    (fun i _ hi => hout i hi) (hfile ▸ has_write _ _ _) (fun x hx hne => ?_)
    (fun n hn => by cases hn), fun i _ hi => hout i (.inl (by omega)), rfl, Nat.le_add_right _ _,
    Function.update_self .., fun r' hr' => ?_, fun x r' hx => ?_⟩
  · exact (hne (List.mem_singleton.mp hx)).elim
  · rw [hb] at hr'
    cases hr'
  · rw [Function.update_of_ne hx]

/-- A record behind the end of the file. -/
theorem appendRec (hv : fmt.Valid) (h : hdb.Laid fmt H []) (hc : trec.Carries fmt key value)
    (hoff : trec.off = hdb.fsiz) (psiz : Nat) {rsiz : Nat} (hrsiz : rsiz = trec.need fmt + psiz)
    (hpsiz : psiz < 2 ^ 16) (haligned : fmt.align ∣ hdb.fsiz + rsiz)
    (hlt : hdb.fsiz + rsiz < 2 ^ 31) :
    Placed fmt hdb H (HdbFormat.growFile (fmt.storeRec hdb { trec with rsiz, psiz }) rsiz)
      (Function.update H hdb.fsiz (some (.record (trec.stored key value psiz)))) trec.off
      (trec.stored key value psiz) := by
  have hsize : (trec.stored key value psiz).size fmt = rsiz :=
    (hc.size_stored psiz).trans hrsiz.symm
  have hfile := hc.storeRec_file hdb hrsiz
  have hmsiz : hdbHeadSiz ≤ fmt.frec := (Nat.le_add_right _ _).trans hv.msiz_le
  have hhead : hdbFsizOff + (leBytes 8 (hdb.fsiz + rsiz)).length ≤ hdbHeadSiz := by
    rw [length_leBytes]
    decide
  have hle := h.tiled.le
  have hbehind : ∀ i, hdbHeadSiz ≤ i →
      (HdbFormat.growFile (fmt.storeRec hdb { trec with rsiz, psiz }) rsiz).file i =
        hdb.file.write trec.off ((trec.stored key value psiz).bytes fmt) i := by
    intro i hi
    rw [← hfile]
    exact write_of_le (hhead.trans hi)
  have hout : ∀ i, hdbHeadSiz ≤ i → i < hdb.fsiz →
      (HdbFormat.growFile (fmt.storeRec hdb { trec with rsiz, psiz }) rsiz).file i =
        hdb.file i := by
    intro i hi hlt
    rw [hbehind i hi]
    exact write_of_lt _ (by omega)
  have hgrow : Layout fmt (HdbFormat.growFile (fmt.storeRec hdb { trec with rsiz, psiz }) rsiz).file
      (hdb.fsiz + Block.size fmt (.record (trec.stored key value psiz))) hdb.fbpool
      (Function.update H hdb.fsiz (some (.record (trec.stored key value psiz)))) [] := h.grow
    (hc.fits_stored hpsiz)
    (fun i hi hlt => hout i (hmsiz.trans hi) hlt)
    (by
      rw [← hoff]
      exact (has_write hdb.file trec.off _).congr fun i hi _ => hbehind i (by omega))
    (by
      change fmt.align ∣ hdb.fsiz + (trec.stored key value psiz).size fmt
      rwa [hsize])
    (fun n hn => by cases hn)
    (by
      change hdb.fsiz + (trec.stored key value psiz).size fmt < 2 ^ 31
      rwa [hsize])
  have hfsiz : Block.size fmt (.record (trec.stored key value psiz)) = rsiz := hsize
  rw [hfsiz] at hgrow
  refine ⟨hgrow, fun i hi hlt => hout i hi (by omega), rfl, by rw [hsize]; rfl, ?_,
    fun r' hr' => ?_, fun x r' hx => ?_⟩
  · rw [hoff, Function.update_self]
  · rw [hoff, h.tiled.eq_none_of_le (Nat.le_refl _)] at hr'
    cases hr'
  · rw [Function.update_of_ne (hoff ▸ hx)]

/-- What a call of `tchdbwriterec` that ends without another one has done. -/
def Written (fmt : HdbFormat) (hdb : TCHDB) (H : Nat → Option Block) (trec : TCHREC)
    (key value : List UInt8) (bidx entoff : Nat) (result : Option TCHDB) : Prop :=
  ∃ mid H' off psiz, result = some (fmt.setEntry mid bidx entoff off) ∧
    Placed fmt hdb H mid H' off (trec.stored key value psiz) ∧
    mid.fsiz ≤ hdb.fsiz + trec.need fmt + fmt.align

theorem align_le_or_eq (hv : fmt.Valid) : fmt.align ≤ 2 ^ 15 ∨ fmt.align = 2 ^ 16 := by
  rw [fmt.align_eq]
  rcases Nat.lt_or_ge fmt.apow 16 with hlt | hge
  · exact .inl (Nat.pow_le_pow_right (by decide) (by omega))
  · exact .inr (by rw [Nat.le_antisymm hv.apow_le hge])

/-- With room enough the first call writes the record. -/
theorem writeRec_room (hv : fmt.Valid) (h : hdb.Laid fmt H holes) (hc : trec.Carries fmt key value)
    (hroom : Room hdb H holes trec.off trec.rsiz)
    (henough : trec.rsiz = 0 ∨ trec.need fmt ≤ trec.rsiz)
    (hlt : hdb.fsiz + trec.need fmt + fmt.align < 2 ^ 31) (calls bidx entoff : Nat) :
    Written fmt hdb H trec key value bidx entoff
      (fmt.writeRec (calls + 1) hdb trec bidx entoff) := by
  have halign : fmt.align ≤ 2 ^ 16 := by
    rcases align_le_or_eq hv with hle | heq <;> omega
  have hneed : (fmt.recHeader trec).length + trec.ksiz + trec.vsiz = trec.need fmt := rfl
  have hneedpos := hc.need_pos
  unfold HdbFormat.writeRec
  dsimp only
  rw [hneed]
  rcases hroom with ⟨hrsiz, hoff, rfl⟩ | ⟨hb, rfl⟩
  · obtain ⟨hpad, haligned⟩ := fmt.padSize_spec (hdb.fsiz + trec.need fmt)
    rw [if_pos (by omega)]
    have hplaced := appendRec hv h hc hoff (fmt.padSize (hdb.fsiz + trec.need fmt)) rfl
      (by omega) (by rwa [← Nat.add_assoc]) (by omega)
    refine ⟨_, _, _, _, rfl, hplaced, ?_⟩
    have hfsiz := hplaced.fsiz
    rw [hc.size_stored] at hfsiz
    omega
  · have hsize : 5 ≤ trec.rsiz := h.fits hb
    have henough := henough.resolve_left (by omega)
    rw [if_neg (by omega), if_neg (by omega)]
    by_cases hwide : trec.rsiz - trec.need fmt > 65535
    · -- the rest of the hole becomes a free block of its own
      rw [if_pos hwide]
      obtain ⟨hpad, haligned⟩ := fmt.padSize_spec (trec.off + trec.need fmt)
      generalize fmt.padSize (trec.off + trec.need fmt) = psiz at hpad haligned ⊢
      generalize hm : trec.rsiz - trec.need fmt - psiz = m
      have hsum : trec.need fmt + psiz + m = trec.rsiz := by omega
      have hnoff : trec.off + trec.need fmt + psiz = trec.off + (trec.need fmt + psiz) := by omega
      have hfront : trec.off + (trec.need fmt + psiz) - trec.off = trec.need fmt + psiz := by omega
      rw [hnoff] at haligned ⊢
      rw [hfront]
      have hend : fmt.align ∣ trec.off + trec.rsiz := h.aligned (h.tiled.next hb)
      have hrest : 5 ≤ m := by
        rcases align_le_or_eq hv with hle | heq
        · omega
        · rw [heq] at hend haligned
          omega
      have hb' : H trec.off = some (.hole (trec.need fmt + psiz + m)) := by rw [hsum, hb]
      obtain ⟨K, hsplit, hKoff, hKnoff, hKrecords⟩ := splitHole h hb' (by omega) hrest haligned
      obtain ⟨hlaid, hkeeps⟩ := releaseHole [trec.off] hsplit hKnoff fun x hx hne =>
        List.mem_of_ne_of_mem hne hx
      have hplaced := fillHole hlaid psiz hc
        (by rw [Function.update_of_ne (by omega), hKoff]) rfl (by omega)
      have hkeepsK : Keeps fmt hdb H hdb K := ⟨fun _ _ _ => rfl, rfl, rfl, hKrecords⟩
      refine ⟨_, _, _, psiz, rfl, (hplaced.of_keeps hkeeps).of_keeps hkeepsK, ?_⟩
      have hfsiz := hkeeps.fsiz
      change (fmt.fbpInsert (HdbFormat.writeFb hdb (trec.off + (trec.need fmt + psiz)) m)
        (trec.off + (trec.need fmt + psiz)) m).fsiz ≤ _
      omega
    · rw [if_neg hwide]
      have hplaced := fillHole h (trec.rsiz - trec.need fmt) hc hb (by omega) (by omega)
      exact ⟨_, _, _, _, rfl, hplaced, by
        change hdb.fsiz ≤ _
        omega⟩

/-- Two calls of `tchdbwriterec` write the record. -/
theorem writeRec_spec (hv : fmt.Valid) (h : hdb.Laid fmt H holes) (hc : trec.Carries fmt key value)
    (hroom : Room hdb H holes trec.off trec.rsiz)
    (hlt : hdb.fsiz + trec.need fmt + fmt.align < 2 ^ 31) (calls bidx entoff : Nat) :
    Written fmt hdb H trec key value bidx entoff
      (fmt.writeRec (calls + 2) hdb trec bidx entoff) := by
  by_cases henough : trec.rsiz = 0 ∨ trec.need fmt ≤ trec.rsiz
  · exact writeRec_room hv h hc hroom henough hlt (calls + 1) bidx entoff
  rcases hroom with ⟨hrsiz, -, -⟩ | ⟨hb, rfl⟩
  · exact (henough (.inl hrsiz)).elim
  have hneed : (fmt.recHeader trec).length + trec.ksiz + trec.vsiz = trec.need fmt := rfl
  have hneedpos := hc.need_pos
  -- what another call has written, after work on the free space
  have hagain : ∀ {hdb' H' holes' off rsiz}, TCHDB.Laid fmt hdb' H' holes' →
      Keeps fmt hdb H hdb' H' → Room hdb' H' holes' off rsiz → rsiz = 0 ∨ trec.need fmt ≤ rsiz →
      Written fmt hdb H trec key value bidx entoff
        (fmt.writeRec (calls + 1) hdb' { trec with off, rsiz } bidx entoff) := by
    intro hdb' H' holes' off rsiz hlaid hkeeps hroom hrsiz
    have hlt' : hdb'.fsiz + trec.need fmt + fmt.align < 2 ^ 31 := by
      rw [hkeeps.fsiz]
      exact hlt
    obtain ⟨mid, K, off', psiz, hresult, hplaced, hfsiz⟩ :=
      writeRec_room hv hlaid (hc.move off rsiz) hroom hrsiz hlt' calls bidx entoff
    exact ⟨mid, K, off', psiz, hresult, hplaced.of_keeps hkeeps, hkeeps.fsiz ▸ hfsiz⟩
  rw [HdbFormat.writeRec]
  dsimp only
  rw [hneed, if_neg (by omega), if_pos (by omega)]
  rcases fbpSplice_spec h hb (trec.need fmt) with
    hnone | ⟨hdb', H', rsiz, hsome, hlaid, hkeeps, hb', hle⟩
  · rw [hnone]
    dsimp only
    obtain ⟨hlaid, hkeeps⟩ := releaseHole [] h hb fun x hx hne =>
      (hne (List.mem_singleton.mp hx)).elim
    obtain ⟨hdb', H', holes', off, rsiz, hsearch, hlaid', hkeeps', hroom, hrsiz⟩ :=
      fbpSearch_spec hlaid { trec with rsiz := trec.need fmt } (by
        change 5 ≤ trec.need fmt
        omega)
    rw [hsearch]
    exact hagain hlaid' (hkeeps.trans hkeeps') hroom hrsiz
  · rw [hsome]
    exact hagain hlaid hkeeps (.inr ⟨hb', rfl⟩) (.inr hle)

end Meguro
