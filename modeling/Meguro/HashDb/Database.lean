import Meguro.HashDb.FreeBlockPool
import Meguro.HashDb.Record

/-!
# The hash database of `tchdb.c`

The file of a database: a header, the bucket array, a region for the free block
pool, and from `frec` on the records and free blocks one behind the other. The
records of a bucket are the nodes of a search tree, greater second hash values and
greater keys to the left. A put that replaces a value writes into the old record if
it has room, else into the free block behind it, else into a block of the pool or
at the end of the file. The database is opened as the program opens its outputs,
with a mutex and without a cache, a transaction or automatic defragmentation.
-/

namespace Meguro

/-- `TCHDB`, without what its format fixes. -/
structure TCHDB where
  file : ByteFile
  rnum : Nat
  fsiz : Nat
  iter : Nat
  fbpool : List HDBFB
  fbpmis : Int

/-- `HDBMINRUNIT` and `HDBIOBUFSIZ`. -/
def hdbMinRunit : Nat := 48

def hdbIoBufSiz : Nat := 8192

/-- `HDBRNUMOFF` and `HDBFSIZOFF`: the offsets of two numbers in the header. -/
def hdbRnumOff : Nat := 48

def hdbFsizOff : Nat := 56

/-- `HDBFBPALWRAT` and `HDBFBPMGFREQ`. -/
def hdbFbpAlwRat : Nat := 2

def hdbFbpMgFreq : Int := 4096

/-- `HDBFBPBSIZ` and `HDBFBPESIZ`. -/
def hdbFbpBsiz : Nat := 64

def hdbFbpEsiz : Nat := 4

/-- `HDBDEFAPOW` and `HDBDEFFPOW`. -/
def hdbDefApow : Nat := 4

def hdbDefFpow : Nat := 10

/-- `HDBMAXAPOW` and `HDBMAXFPOW`. -/
def hdbMaxApow : Nat := 16

def hdbMaxFpow : Nat := 20

/-! ## Hashing and comparing keys -/

/-- The first number `tchdbbidx` computes. -/
def bucketHash (kbuf : List UInt8) : UInt64 :=
  kbuf.foldl (fun (idx : UInt64) (c : UInt8) => idx * 37 + c.toUInt64) 19780211

/-- The second hash value: it takes the bytes of the key from its end. -/
def secondHash (kbuf : List UInt8) : UInt8 :=
  (kbuf.reverse.foldl (fun (hash : UInt32) (c : UInt8) => (hash * 31) ^^^ c.toUInt32) 751).toUInt8

/-- `memcmp` on strings of one length. -/
def memcmp : List UInt8 → List UInt8 → Ordering
  | [], _ => .eq
  | _, [] => .eq
  | a :: abuf, b :: bbuf => if a < b then .lt else if a > b then .gt else memcmp abuf bbuf

/-- `tcreckeycmp`. -/
def recKeyCmp (abuf bbuf : List UInt8) : Ordering :=
  if abuf.length > bbuf.length then .gt
  else if abuf.length < bbuf.length then .lt
  else memcmp abuf bbuf

namespace HdbFormat

variable (fmt : HdbFormat)

/-- `tchdbbidx`: the bucket of a key. -/
def bidx (kbuf : List UInt8) : Nat := (bucketHash kbuf).toNat % fmt.bnum

/-- `fbpmax`. -/
def fbpMax : Nat := 1 <<< fmt.fpow

/-- `runit`: how much of a record is read at once. -/
def runit : Nat := min (max fmt.align hdbMinRunit) hdbIoBufSiz

/-! ## Reading and writing the file -/

/-- Where the bucket array has an element. -/
def bucketOff (bidx : Nat) : Nat := hdbHeadSiz + bidx * fmt.linkSiz

/-- `tchdbgetbucket`. -/
def getBucket (hdb : TCHDB) (bidx : Nat) : Nat :=
  fmt.ofLink (hdb.file.read (fmt.bucketOff bidx) fmt.linkSiz)

/-- The end of `tchdbwriterec`: the link to a record, in the tree entry at `entoff`
or, if this is 0, in the bucket array (`tchdbsetbucket`). -/
def setEntry (hdb : TCHDB) (bidx entoff off : Nat) : TCHDB :=
  { hdb with
    file := hdb.file.write (if entoff > 0 then entoff else fmt.bucketOff bidx) (fmt.link off) }

/-- `tchdbreadrec`: near the end of the file it reads what is left. -/
def readRec (hdb : TCHDB) (off : Nat) : Option TCHREC :=
  if off + fmt.runit ≤ hdb.fsiz then fmt.parseRec off (hdb.file.read off fmt.runit)
  else
    let rsiz := hdb.fsiz - off
    if rsiz < 5 then none else fmt.parseRec off (hdb.file.read off rsiz)

/-- `tchdbreadrecbody`. -/
def readRecBody (hdb : TCHDB) (trec : TCHREC) : TCHREC :=
  { trec with
    kbuf := some (hdb.file.read trec.boff trec.ksiz)
    vbuf := some (hdb.file.read (trec.boff + trec.ksiz) trec.vsiz) }

/-- `tchdbwritefb`. -/
def writeFb (hdb : TCHDB) (off rsiz : Nat) : TCHDB :=
  { hdb with file := hdb.file.write off (hdbMagicFb :: ByteFile.leBytes 4 rsiz) }

/-! ## The free block pool -/

/-- `tchdbfbpmerge`. -/
def fbpMerge (hdb : TCHDB) : TCHDB :=
  match HDBFB.sortByOff hdb.fbpool with
  | [] => hdb
  | cur :: rest =>
    let (fbpool, iter) := HDBFB.mergeLoop hdb.iter cur rest
    { hdb with fbpool, iter, fbpmis := -fbpool.length }

/-- What `tchdbfbpinsert` does to a full pool: it merges, and drops the smallest. -/
def fbpReduce (hdb : TCHDB) : TCHDB :=
  let hdb := fbpMerge hdb
  let fbpool := HDBFB.sortByRsiz hdb.fbpool
  { hdb with fbpool := fbpool.drop (fbpool.length - fmt.fbpMax), fbpmis := 0 }

/-- `tchdbfbpinsert`. -/
def fbpInsert (hdb : TCHDB) (off rsiz : Nat) : TCHDB :=
  if fmt.fpow < 1 then hdb
  else
    let hdb := if hdb.fbpool.length ≥ fmt.fbpMax * hdbFbpAlwRat then fmt.fbpReduce hdb else hdb
    { hdb with fbpool := HDBFB.insertAt hdb.fbpool ⟨off, rsiz⟩ }

/-- `tchdbfbpsearch`: it gives the record a block of the pool, the front part of it
if it is large, or the end of the file. -/
def fbpSearch (hdb : TCHDB) (trec : TCHREC) : TCHDB × TCHREC :=
  if hdb.fbpool.length < 1 then (hdb, { trec with off := hdb.fsiz, rsiz := 0 })
  else
    match HDBFB.cand hdb.fbpool trec.rsiz with
    | some i =>
      let pv := hdb.fbpool.getD i default
      let noff := pv.off + trec.rsiz + fmt.padSize (pv.off + trec.rsiz)
      if pv.rsiz > trec.rsiz * 2 ∧ pv.rsiz ≥ (noff - pv.off) * 2 then
        let fb : HDBFB := ⟨noff, pv.rsiz - (noff - pv.off)⟩
        (writeFb { hdb with fbpool := hdb.fbpool.set i fb } fb.off fb.rsiz,
          { trec with off := pv.off, rsiz := noff - pv.off })
      else
        ({ hdb with fbpool := hdb.fbpool.eraseIdx i },
          { trec with off := pv.off, rsiz := pv.rsiz })
    | none =>
      let hdb := { hdb with fbpmis := hdb.fbpmis + 1 }
      let hdb := if hdb.fbpmis ≥ hdbFbpMgFreq then
          let hdb := fbpMerge hdb
          { hdb with fbpool := HDBFB.sortByRsiz hdb.fbpool }
        else hdb
      (hdb, { trec with off := hdb.fsiz, rsiz := 0 })

/-- `tchdbfbpsplice`, for a database with a mutex: the block behind a record. -/
def fbpSplice (hdb : TCHDB) (trec : TCHREC) (nsiz : Nat) : Option (TCHDB × TCHREC) :=
  if hdb.fbpool.length < 1 then none
  else
    let off := trec.off + trec.rsiz
    if off + 1 ≤ hdb.fsiz ∧ hdb.file off ≠ hdbMagicFb then none
    else
      match hdb.fbpool.find? fun pv => pv.off = off ∧ trec.rsiz + pv.rsiz ≥ nsiz with
      | none => none
      | some pv =>
        some
          ({ hdb with
              iter := if hdb.iter = pv.off then hdb.iter + pv.rsiz else hdb.iter
              fbpool := hdb.fbpool.erase pv },
            { trec with rsiz := trec.rsiz + pv.rsiz })

/-! ## Writing a record -/

/-- The header `tchdbwriterec` composes for a record. -/
def recHeader (trec : TCHREC) : List UInt8 :=
  fmt.header trec.hash trec.left trec.right trec.psiz trec.ksiz trec.vsiz

/-- The write of a whole record, filled up with zeros. -/
def storeRec (hdb : TCHDB) (trec : TCHREC) : TCHDB :=
  let hsiz := (fmt.recHeader trec).length
  { hdb with
    file := hdb.file.write trec.off (fmt.recHeader trec ++
      (trec.kbuf.getD [] ++ (trec.vbuf.getD [] ++
      List.replicate (trec.rsiz - hsiz - trec.ksiz - trec.vsiz) 0))) }

/-- The file has grown, and its header says so. -/
def growFile (hdb : TCHDB) (finc : Nat) : TCHDB :=
  { hdb with
    fsiz := hdb.fsiz + finc
    file := hdb.file.write hdbFsizOff (ByteFile.leBytes 8 (hdb.fsiz + finc)) }

/-- `tchdbwriterec`; a record that does not fit its block calls it once more. -/
def writeRec : Nat → TCHDB → TCHREC → Nat → Nat → Option TCHDB
  | 0, _, _, _, _ => none
  | calls + 1, hdb, trec, bidx, entoff =>
    let rsiz := (fmt.recHeader trec).length + trec.ksiz + trec.vsiz
    if trec.rsiz < 1 then
      let psiz := fmt.padSize (hdb.fsiz + rsiz)
      let trec := { trec with rsiz := rsiz + psiz, psiz }
      some (fmt.setEntry (growFile (fmt.storeRec hdb trec) trec.rsiz) bidx entoff trec.off)
    else if rsiz > trec.rsiz then
      match fbpSplice hdb trec rsiz with
      | some (hdb, trec) => writeRec calls hdb trec bidx entoff
      | none =>
        let hdb := fmt.fbpInsert (writeFb hdb trec.off trec.rsiz) trec.off trec.rsiz
        let (hdb, trec) := fmt.fbpSearch hdb { trec with rsiz }
        writeRec calls hdb trec bidx entoff
    else
      let psiz := trec.rsiz - rsiz
      if psiz > 65535 then
        -- the padding would not fit its field: its end becomes a free block
        let psiz := fmt.padSize (trec.off + rsiz)
        let noff := trec.off + rsiz + psiz
        let nsiz := trec.rsiz - rsiz - psiz
        let trec := { trec with rsiz := noff - trec.off, psiz }
        let hdb := fmt.fbpInsert (writeFb hdb noff nsiz) noff nsiz
        some (fmt.setEntry (fmt.storeRec hdb trec) bidx entoff trec.off)
      else
        let trec := { trec with psiz }
        some (fmt.setEntry (fmt.storeRec hdb trec) bidx entoff trec.off)

/-! ## Putting and getting -/

/-- How the walk through the tree of a bucket ends: at a record with the key, or
where such a record would hang; in both cases with the tree entry followed last. -/
inductive SearchEnd
  | found (trec : TCHREC) (entoff : Nat)
  | missing (entoff : Nat)

/-- The loop of `tchdbputimpl` and `tchdbgetimpl` over the records of a bucket. It
follows at most as many links as it is given. -/
def searchTree (hdb : TCHDB) (kbuf : List UInt8) (hash : UInt8) :
    Nat → Nat → Nat → Option SearchEnd
  | 0, off, entoff => if off > 0 then none else some (.missing entoff)
  | fuel + 1, off, entoff =>
    if off > 0 then do
      let trec ← fmt.readRec hdb off
      let left := trec.off + 2
      let right := trec.off + 2 + fmt.linkSiz
      if hash > trec.hash then searchTree hdb kbuf hash fuel trec.left left
      else if hash < trec.hash then searchTree hdb kbuf hash fuel trec.right right
      else
        let trec := if trec.kbuf.isNone then readRecBody hdb trec else trec
        match recKeyCmp kbuf (trec.kbuf.getD []) with
        | .gt => searchTree hdb kbuf hash fuel trec.left left
        | .lt => searchTree hdb kbuf hash fuel trec.right right
        | .eq => some (.found trec entoff)
    else some (.missing entoff)

/-- The size `tchdbputimpl` asks the pool for: that of the header alone. -/
def recSizeHint (ksiz vsiz : Nat) : Nat :=
  let sizeOf := fun n : Nat =>
    if n < 1 <<< 7 then 1 else if n < 1 <<< 14 then 2 else if n < 1 <<< 21 then 3
    else if n < 1 <<< 28 then 4 else 5
  2 + 2 * fmt.linkSiz + 2 + sizeOf ksiz + sizeOf vsiz

/-- `tchdbputimpl` with `HDBPDOVER`. -/
def putImpl (hdb : TCHDB) (kbuf : List UInt8) (bidx : Nat) (hash : UInt8) (vbuf : List UInt8) :
    Option TCHDB := do
  match ← fmt.searchTree hdb kbuf hash hdb.rnum (fmt.getBucket hdb bidx) 0 with
  | .found trec entoff =>
    fmt.writeRec 3 hdb
      { trec with ksiz := kbuf.length, vsiz := vbuf.length, kbuf := some kbuf, vbuf := some vbuf }
      bidx entoff
  | .missing entoff =>
    let (hdb, trec) := fmt.fbpSearch hdb
      { TCHREC.at 0 with rsiz := fmt.recSizeHint kbuf.length vbuf.length }
    let trec := { trec with
      hash, left := 0, right := 0, ksiz := kbuf.length, vsiz := vbuf.length, psiz := 0
      kbuf := some kbuf, vbuf := some vbuf }
    let hdb ← fmt.writeRec 3 hdb trec bidx entoff
    some { hdb with
      rnum := hdb.rnum + 1
      file := hdb.file.write hdbRnumOff (ByteFile.leBytes 8 (hdb.rnum + 1)) }

/-- `tchdbput`. -/
def put (hdb : TCHDB) (kbuf vbuf : List UInt8) : Option TCHDB :=
  fmt.putImpl hdb kbuf (fmt.bidx kbuf) (secondHash kbuf) vbuf

/-- `tchdbgetimpl`: the value, or `NULL` if there is no such record. -/
def getImpl (hdb : TCHDB) (kbuf : List UInt8) (bidx : Nat) (hash : UInt8) :
    Option (Option (List UInt8)) := do
  match ← fmt.searchTree hdb kbuf hash hdb.rnum (fmt.getBucket hdb bidx) 0 with
  | .found trec _ => some (if trec.vbuf.isNone then readRecBody hdb trec else trec).vbuf
  | .missing _ => some none

/-- `tchdbget`. -/
def get (hdb : TCHDB) (kbuf : List UInt8) : Option (Option (List UInt8)) :=
  fmt.getImpl hdb kbuf (fmt.bidx kbuf) (secondHash kbuf)

/-! ## Creating and iterating -/

/-- The format of a file that `tchdbopenimpl` creates, for the parameters given to
`tchdbtune`; of the number of buckets it takes a prime number that is not smaller. -/
def create (bnum : Nat) (apow fpow : Int) (large : Bool) : HdbFormat :=
  let tuned : HdbFormat :=
    { bnum
      apow := if apow ≥ 0 then min apow.toNat hdbMaxApow else hdbDefApow
      fpow := if fpow ≥ 0 then min fpow.toNat hdbMaxFpow else hdbDefFpow
      large
      frec := 0 }
  let fbpsiz := hdbFbpBsiz + tuned.fbpMax * hdbFbpEsiz
  let fsiz := hdbHeadSiz + tuned.linkSiz * bnum + fbpsiz
  { tuned with frec := fsiz + tuned.padSize fsiz }

/-- The database behind a file that has been created. Of the header only the numbers
are modelled that change afterwards; behind it the file is filled with zeros. -/
def openNew : TCHDB where
  file := (ByteFile.write (fun _ => 0) hdbRnumOff (ByteFile.leBytes 8 0)).write hdbFsizOff
    (ByteFile.leBytes 8 fmt.frec)
  rnum := 0
  fsiz := fmt.frec
  iter := 0
  fbpool := []
  fbpmis := 0

/-- `tchdbiterinitimpl`. -/
def iterInit (hdb : TCHDB) : TCHDB := { hdb with iter := fmt.frec }

/-- `tchdbiternextimpl`: the next key, or `NULL`. -/
def iterNext : Nat → TCHDB → Option (List UInt8) × TCHDB
  | 0, hdb => (none, hdb)
  | fuel + 1, hdb =>
    if hdb.iter < hdb.fsiz then
      match fmt.readRec hdb hdb.iter with
      | none => (none, hdb)
      | some trec =>
        let hdb := { hdb with iter := hdb.iter + trec.rsiz }
        if trec.magic = hdbMagicRec then
          ((if trec.kbuf.isNone then readRecBody hdb trec else trec).kbuf, hdb)
        else iterNext fuel hdb
    else (none, hdb)

/-- The keys the program gets from `tchdbiternext2` until it returns `NULL`. -/
def iterKeys : Nat → TCHDB → List (List UInt8)
  | 0, _ => []
  | fuel + 1, hdb =>
    match fmt.iterNext (hdb.fsiz + 1) hdb with
    | (some key, hdb) => key :: iterKeys fuel hdb
    | (none, _) => []

/-- All keys of a database. -/
def keys (hdb : TCHDB) : List (List UInt8) := fmt.iterKeys (hdb.fsiz + 1) (fmt.iterInit hdb)

end HdbFormat

end Meguro
