import Meguro.Core.ByteFile
import Mathlib.Data.Nat.Bitwise
import Mathlib.Tactic.Ring

/-!
# Records of a hash database

The codec of `tchdb.c` for one record of its file: a magic number, the second hash
value, the links to two children in units of the alignment, the size of the
padding, the sizes of key and value in base 128, key, value and padding. What
`tchdbwriterec` writes `tchdbreadrec` reads back, from however many bytes it has
read as long as they hold the header.
-/

namespace Meguro

open ByteFile

/-! ## Numbers of variable length -/

/-- The loop of `TCSETVNUMBUF`: seven bits a byte, complemented in all but the last. -/
def setVnumLoop (num : Nat) : List UInt8 :=
  if num = 0 then []
  else
    let rem := UInt8.ofNat (num % 128)
    (if num / 128 > 0 then -rem - 1 else rem) :: setVnumLoop (num / 128)

/-- `TCSETVNUMBUF`: the bytes it sets. -/
def setVnumBuf (num : Nat) : List UInt8 := if num = 0 then [0] else setVnumLoop num

/-- The loop of `TCREADVNUMBUF`: the number and the bytes it takes; `none` if it
reads past the buffer. A byte from 128 on is a negative `signed char`. -/
def readVnumLoop (base : Nat) : List UInt8 → Option (Nat × Nat)
  | [] => none
  | c :: buf =>
    if c.toNat < 128 then some (c.toNat * base, 1)
    else (readVnumLoop (base * 128) buf).map fun (num, step) =>
      (base * (255 - c.toNat) + num, step + 1)

/-- `TCREADVNUMBUF`. -/
def readVnumBuf (buf : List UInt8) : Option (Nat × Nat) := readVnumLoop 1 buf

theorem toNat_continued : ∀ n < 128, (-UInt8.ofNat n - 1).toNat = 255 - n := by decide

/-- The last seven bits are set as they are. -/
theorem setVnumLoop_last {num : Nat} (h : num ≠ 0) (hhigh : num / 128 = 0) :
    setVnumLoop num = [UInt8.ofNat num] := by
  have hlow : num % 128 = num := Nat.mod_eq_of_lt (by omega)
  rw [setVnumLoop, if_neg h, hhigh, setVnumLoop, hlow]
  rfl

theorem setVnumLoop_more {num : Nat} (hhigh : num / 128 ≠ 0) :
    setVnumLoop num = (-UInt8.ofNat (num % 128) - 1) :: setVnumLoop (num / 128) := by
  have hpos : num / 128 > 0 := Nat.pos_of_ne_zero hhigh
  rw [setVnumLoop, if_neg (by omega)]
  dsimp only
  rw [if_pos hpos]

theorem setVnumLoop_ne_nil {num : Nat} (h : num ≠ 0) : setVnumLoop num ≠ [] := by
  rw [setVnumLoop, if_neg h]
  exact List.cons_ne_nil _ _

/-- The number that has been set is read back, whatever follows it. -/
theorem readVnumLoop_setVnumLoop {num : Nat} (h : num ≠ 0) (base : Nat) (rest : List UInt8) :
    readVnumLoop base (setVnumLoop num ++ rest) =
      some (num * base, (setVnumLoop num).length) := by
  induction num using Nat.strongRecOn generalizing base with
  | ind num ih =>
    by_cases hhigh : num / 128 = 0
    · have hnum : (UInt8.ofNat num).toNat = num := UInt8.toNat_ofNat_of_lt' (by
        have hlt : num < 128 := by omega
        exact hlt.trans (by decide))
      rw [setVnumLoop_last h hhigh, List.singleton_append, readVnumLoop, hnum, if_pos (by omega)]
      rfl
    · have hlow : num % 128 < 128 := Nat.mod_lt _ (by decide)
      have hlowest : 255 - (255 - num % 128) = num % 128 := by omega
      have hvalue : base * (num % 128) + num / 128 * (base * 128) = num * base :=
        calc base * (num % 128) + num / 128 * (base * 128)
            = (num % 128 + 128 * (num / 128)) * base := by ring
          _ = num * base := by rw [Nat.mod_add_div]
      rw [setVnumLoop_more hhigh, List.cons_append, readVnumLoop, toNat_continued _ hlow,
        if_neg (by omega), ih (num / 128) (by omega) hhigh, Option.map_some, hlowest]
      dsimp only
      rw [hvalue, List.length_cons]

/-- `TCREADVNUMBUF` undoes `TCSETVNUMBUF`. -/
theorem readVnumBuf_setVnumBuf (num : Nat) (rest : List UInt8) :
    readVnumBuf (setVnumBuf num ++ rest) = some (num, (setVnumBuf num).length) := by
  unfold setVnumBuf readVnumBuf
  split
  · next h => rw [h]; rfl
  · next h => rw [readVnumLoop_setVnumLoop h, Nat.mul_one]

/-- The number of bytes of a number below a power of 128. -/
theorem length_setVnumLoop_le {num n : Nat} (h : num < 128 ^ n) : (setVnumLoop num).length ≤ n := by
  induction n generalizing num with
  | zero =>
    rw [setVnumLoop, if_pos (Nat.lt_one_iff.mp h)]
    exact Nat.le_refl 0
  | succ n ih =>
    rw [setVnumLoop]
    split
    · exact Nat.zero_le _
    · rw [List.length_cons]
      exact Nat.succ_le_succ (ih (Nat.div_lt_of_lt_mul (by rwa [Nat.pow_succ, Nat.mul_comm] at h)))

theorem length_setVnumBuf_le {num : Nat} (h : num < 2 ^ 31) : (setVnumBuf num).length ≤ 5 := by
  unfold setVnumBuf
  split
  · exact (by decide : 1 ≤ 5)
  · exact length_setVnumLoop_le (h.trans (by decide))

theorem length_setVnumBuf_pos (num : Nat) : 0 < (setVnumBuf num).length := by
  unfold setVnumBuf
  split
  · exact Nat.one_pos
  · next h => exact List.length_pos_iff.mpr (setVnumLoop_ne_nil h)

/-! ## The format of a file -/

/-- What a database file keeps from its creation on: the number of its buckets,
the powers of its alignment and of its free block pool, whether its links have 64
bits (`HDBTLARGE`), and the offset of its first record. -/
structure HdbFormat where
  bnum : Nat
  apow : Nat
  fpow : Nat
  large : Bool
  frec : Nat

/-- `HDBHEADSIZ`: the size of the header. -/
def hdbHeadSiz : Nat := 256

namespace HdbFormat

/-- `align`. -/
def align (fmt : HdbFormat) : Nat := 1 <<< fmt.apow

/-- The size of a link, and of an element of the bucket array. -/
def linkSiz (fmt : HdbFormat) : Nat := if fmt.large then 8 else 4

/-- `msiz`: where the bucket array ends. -/
def msiz (fmt : HdbFormat) : Nat := hdbHeadSiz + fmt.bnum * fmt.linkSiz

/-- `tchdbpadsize`. -/
def padSize (fmt : HdbFormat) (off : Nat) : Nat :=
  let diff := off &&& (fmt.align - 1)
  if diff > 0 then fmt.align - diff else 0

/-- The bytes of a link: the offset in units of the alignment. -/
def link (fmt : HdbFormat) (off : Nat) : List UInt8 := leBytes fmt.linkSiz (off >>> fmt.apow)

/-- The offset a link stands for. -/
def ofLink (fmt : HdbFormat) (bs : List UInt8) : Nat := leNat bs <<< fmt.apow

variable (fmt : HdbFormat)

theorem align_eq : fmt.align = 2 ^ fmt.apow := Nat.one_shiftLeft _

theorem align_pos : 0 < fmt.align := by
  rw [align_eq]
  exact Nat.two_pow_pos _

theorem linkSiz_eq : fmt.linkSiz = 8 ∨ fmt.linkSiz = 4 := by
  unfold linkSiz
  split
  · exact .inl rfl
  · exact .inr rfl

@[simp] theorem length_link (off : Nat) : (fmt.link off).length = fmt.linkSiz := length_leBytes _ _

/-- The padding fills up to the next multiple of the alignment. -/
theorem padSize_spec (off : Nat) :
    fmt.padSize off < fmt.align ∧ fmt.align ∣ off + fmt.padSize off := by
  have hpos := fmt.align_pos
  have hdiff : off &&& (fmt.align - 1) = off % fmt.align := by
    rw [align_eq, Nat.and_two_pow_sub_one_eq_mod]
  have hlt := Nat.mod_lt off hpos
  have hsplit := Nat.div_add_mod off fmt.align
  unfold padSize
  dsimp only
  rw [hdiff]
  split
  · next h =>
    refine ⟨by omega, ⟨off / fmt.align + 1, ?_⟩⟩
    rw [Nat.mul_add, Nat.mul_one]
    omega
  · next h => exact ⟨hpos, ⟨off / fmt.align, by omega⟩⟩

/-- An aligned offset below 2^31 is read back from its link. -/
theorem ofLink_link {off : Nat} (haligned : fmt.align ∣ off) (hlt : off < 2 ^ 31) :
    fmt.ofLink (fmt.link off) = off := by
  have hfits : off >>> fmt.apow < 256 ^ fmt.linkSiz := by
    have hle : off >>> fmt.apow ≤ off := Nat.shiftRight_le _ _
    rcases fmt.linkSiz_eq with hsiz | hsiz <;> rw [hsiz] <;> omega
  rw [align_eq] at haligned
  unfold ofLink link
  rw [leNat_leBytes hfits, Nat.shiftLeft_eq, Nat.shiftRight_eq_div_pow, Nat.div_mul_cancel haligned]

end HdbFormat

/-! ## Writing and reading a record -/

/-- `HDBMAGICREC` and `HDBMAGICFB`. -/
def hdbMagicRec : UInt8 := 0xc8

def hdbMagicFb : UInt8 := 0xb0

/-- `TCHREC`; `kbuf` and `vbuf` are `NULL` as long as the body has not been read. -/
structure TCHREC where
  off : Nat
  rsiz : Nat
  magic : UInt8
  hash : UInt8
  left : Nat
  right : Nat
  ksiz : Nat
  vsiz : Nat
  psiz : Nat
  kbuf : Option (List UInt8)
  vbuf : Option (List UInt8)
  boff : Nat

/-- A record nothing but the offset of which has been set. -/
def TCHREC.at (off : Nat) : TCHREC := ⟨off, 0, 0, 0, 0, 0, 0, 0, 0, none, none, 0⟩

namespace HdbFormat

/-- The header of a record as `tchdbwriterec` composes it. -/
def header (fmt : HdbFormat) (hash : UInt8) (left right psiz ksiz vsiz : Nat) : List UInt8 :=
  hdbMagicRec :: hash :: (fmt.link left ++ (fmt.link right ++ (leBytes 2 psiz ++
    (setVnumBuf ksiz ++ setVnumBuf vsiz))))

/-- The next bytes of a buffer and what follows them; `none` past its end. -/
def next (n : Nat) (rp : List UInt8) : Option (List UInt8 × List UInt8) :=
  if n ≤ rp.length then some (rp.take n, rp.drop n) else none

/-- The part of `tchdbreadrec` behind the reading of the buffer. -/
def parseRec (fmt : HdbFormat) (off : Nat) : List UInt8 → Option TCHREC
  | [] => none
  | magic :: rp =>
    if magic = hdbMagicFb then do
      let (lnum, _) ← next 4 rp
      some { TCHREC.at off with magic, rsiz := leNat lnum }
    else if magic ≠ hdbMagicRec then none
    else do
      let (hash, rp) ← next 1 rp
      let (left, rp) ← next fmt.linkSiz rp
      let (right, rp) ← next fmt.linkSiz rp
      let (snum, rp) ← next 2 rp
      let (ksiz, step) ← readVnumBuf rp
      let rp := rp.drop step
      let (vsiz, step') ← readVnumBuf rp
      let rp := rp.drop step'
      let psiz := leNat snum
      let hsiz := 2 + 2 * fmt.linkSiz + 2 + step + step'
      some
        { off
          rsiz := hsiz + ksiz + vsiz + psiz
          magic
          hash := hash.headD 0
          left := fmt.ofLink left
          right := fmt.ofLink right
          ksiz, vsiz, psiz
          kbuf := if ksiz ≤ rp.length then some (rp.take ksiz) else none
          vbuf := if ksiz + vsiz ≤ rp.length then some ((rp.drop ksiz).take vsiz) else none
          boff := off + hsiz }

end HdbFormat

/-- A record as it lies in the file. -/
structure StoredRecord where
  hash : UInt8
  left : Nat
  right : Nat
  key : List UInt8
  value : List UInt8
  psiz : Nat

namespace StoredRecord

/-- The bytes in front of the key. -/
def header (fmt : HdbFormat) (r : StoredRecord) : List UInt8 :=
  fmt.header r.hash r.left r.right r.psiz r.key.length r.value.length

/-- The bytes of a record. -/
def bytes (fmt : HdbFormat) (r : StoredRecord) : List UInt8 :=
  r.header fmt ++ (r.key ++ (r.value ++ List.replicate r.psiz 0))

/-- The size of a record. -/
def size (fmt : HdbFormat) (r : StoredRecord) : Nat := (r.bytes fmt).length

/-- The numbers of a record fit the fields that hold them. -/
structure Fits (fmt : HdbFormat) (r : StoredRecord) : Prop where
  left_aligned : fmt.align ∣ r.left
  right_aligned : fmt.align ∣ r.right
  left_lt : r.left < 2 ^ 31
  right_lt : r.right < 2 ^ 31
  psiz_lt : r.psiz < 2 ^ 16

variable {fmt : HdbFormat} {r : StoredRecord}

theorem length_header (fmt : HdbFormat) (r : StoredRecord) : (r.header fmt).length =
    2 + 2 * fmt.linkSiz + 2 + (setVnumBuf r.key.length).length +
      (setVnumBuf r.value.length).length := by
  unfold header HdbFormat.header
  simp only [List.length_cons, List.length_append, HdbFormat.length_link, length_leBytes]
  omega

theorem size_eq (fmt : HdbFormat) (r : StoredRecord) :
    r.size fmt = (r.header fmt).length + r.key.length + r.value.length + r.psiz := by
  unfold size bytes
  rw [List.length_append, List.length_append, List.length_append, List.length_replicate]
  omega

end StoredRecord

/-- What `tchdbreadrec` may leave in a `TCHREC` for this record: the body is there
or has still to be read. -/
structure TCHREC.Shows (rec : TCHREC) (fmt : HdbFormat) (off : Nat) (r : StoredRecord) : Prop where
  off_eq : rec.off = off
  rsiz_eq : rec.rsiz = r.size fmt
  magic_eq : rec.magic = hdbMagicRec
  hash_eq : rec.hash = r.hash
  left_eq : rec.left = r.left
  right_eq : rec.right = r.right
  ksiz_eq : rec.ksiz = r.key.length
  vsiz_eq : rec.vsiz = r.value.length
  kbuf_eq : rec.kbuf = none ∨ rec.kbuf = some r.key
  vbuf_eq : rec.vbuf = none ∨ rec.kbuf = some r.key ∧ rec.vbuf = some r.value
  boff_eq : rec.boff = off + (r.header fmt).length

namespace HdbFormat

theorem next_append {n : Nat} {as : List UInt8} (h : as.length = n) (bs : List UInt8) :
    next n (as ++ bs) = some (as, bs) := by
  subst h
  unfold next
  rw [if_pos (by rw [List.length_append]; exact Nat.le_add_right _ _), List.take_left,
    List.drop_left]

theorem next_one (b : UInt8) (bs : List UInt8) : next 1 (b :: bs) = some ([b], bs) :=
  @next_append 1 [b] rfl bs

/-- From the header on, whatever part of the body follows it, a record is parsed. -/
theorem exists_parseRec {fmt : HdbFormat} {r : StoredRecord} (hfits : r.Fits fmt) (off : Nat)
    {body : List UInt8} (hbody : body <+: r.key ++ (r.value ++ List.replicate r.psiz 0) ∨
      r.key ++ (r.value ++ List.replicate r.psiz 0) <+: body) :
    ∃ rec, fmt.parseRec off (r.header fmt ++ body) = some rec ∧ rec.Shows fmt off r := by
  have hparse : fmt.parseRec off (r.header fmt ++ body) = some
      { off
        rsiz := (r.header fmt).length + r.key.length + r.value.length + r.psiz
        magic := hdbMagicRec
        hash := r.hash
        left := r.left
        right := r.right
        ksiz := r.key.length
        vsiz := r.value.length
        psiz := r.psiz
        kbuf := if r.key.length ≤ body.length then some (body.take r.key.length) else none
        vbuf := if r.key.length + r.value.length ≤ body.length then
          some ((body.drop r.key.length).take r.value.length) else none
        boff := off + (r.header fmt).length } := by
    rw [r.length_header fmt]
    unfold StoredRecord.header header parseRec
    simp only [List.cons_append, List.append_assoc]
    rw [if_neg (by decide), if_neg (by simp)]
    simp only [next_one, next_append (length_link _ _),
      next_append (length_leBytes _ _), readVnumBuf_setVnumBuf, List.drop_left, Option.bind_eq_bind,
      Option.bind_some, fmt.ofLink_link hfits.left_aligned hfits.left_lt,
      fmt.ofLink_link hfits.right_aligned hfits.right_lt, leNat_leBytes (w := 2) hfits.psiz_lt]
    rfl
  -- the buffer and the body agree as far as both of them go
  have hsame : ∀ n ≤ body.length, n ≤ r.key.length + r.value.length →
      body.take n = (r.key ++ r.value).take n := by
    intro n hn hle
    have hle' : n ≤ (r.key ++ r.value).length := by rwa [List.length_append]
    rw [← List.append_assoc] at hbody
    rcases hbody with ⟨rest, hrest⟩ | ⟨rest, hrest⟩
    · have htake := congrArg (List.take n) hrest
      rwa [List.take_append_of_le_length hn, List.take_append_of_le_length hle'] at htake
    · rw [← hrest, List.append_assoc, List.take_append_of_le_length hle']
  refine ⟨_, hparse, rfl, ?_, rfl, rfl, rfl, rfl, rfl, rfl, ?_, ?_, rfl⟩
  · exact (StoredRecord.size_eq fmt r).symm
  · by_cases hkey : r.key.length ≤ body.length
    · refine .inr ?_
      simp only [if_pos hkey, hsame _ hkey (Nat.le_add_right _ _), List.take_left]
    · exact .inl (if_neg hkey)
  · by_cases hvalue : r.key.length + r.value.length ≤ body.length
    · have hkey : r.key.length ≤ body.length := (Nat.le_add_right _ _).trans hvalue
      refine .inr ⟨?_, ?_⟩
      · simp only [if_pos hkey, hsame _ hkey (Nat.le_add_right _ _), List.take_left]
      · simp only [if_pos hvalue, List.take_drop, hsame _ hvalue (Nat.le_refl _),
          List.take_of_length_le (Nat.le_of_eq List.length_append), List.drop_left]
    · exact .inl (if_neg hvalue)

/-- The size of a free block is read from its front. -/
theorem parseRec_fb (fmt : HdbFormat) (off : Nat) {n : Nat} (hn : n < 2 ^ 32) (rest : List UInt8) :
    fmt.parseRec off (hdbMagicFb :: (leBytes 4 n ++ rest)) =
      some { TCHREC.at off with magic := hdbMagicFb, rsiz := n } := by
  unfold parseRec
  simp only [if_true, next_append (length_leBytes _ _), leNat_leBytes (w := 4) hn,
    Option.bind_eq_bind, Option.bind_some]

end HdbFormat

end Meguro
