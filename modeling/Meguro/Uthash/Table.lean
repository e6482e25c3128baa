import Meguro.Core.LinkedList

/-!
# The hash table of `uthash.h`

An element of a table carries its hash handle: the links of the list in
application order, the links of the chain of its bucket, its key and the hash of
its key. The memory is given by component, one function for each of them. The
macros read and write these links, the pointer to the first element and the
table; a loop over a chain gets the number of items as its fuel. The counters are
`unsigned` as in the header: they count fewer than 2^32 items, and twice 2^31 buckets,
which a few hundred items of an unlucky hash function can lead to, are none.
-/

namespace Meguro

open LinkedList

/-- `UT_hash_bucket`. -/
structure UTHashBucket (ι : Type*) where
  hhHead : Option ι
  count : UInt32
  expandMult : UInt32
  deriving DecidableEq

/-- `UT_hash_table`, without the fields that only an external analysis reads. -/
structure UTHashTable (ι : Type*) where
  buckets : Nat → UTHashBucket ι
  numBuckets : UInt32
  log2NumBuckets : UInt32
  numItems : UInt32
  tail : Option ι
  idealChainMaxlen : UInt32
  nonidealItems : UInt32
  ineffExpands : UInt32
  noexpand : Bool

/-- The pointer to a table's first element, the table, and the hash handles:
`prev` and `next`, `hh_prev` and `hh_next`, `key` and `hashv`. -/
structure UTHash (ι κ : Type*) where
  head : Option ι
  tbl : UTHashTable ι
  app : ι → Links ι
  bkt : ι → Links ι
  key : ι → κ
  hashv : ι → UInt32

/-- `HASH_INITIAL_NUM_BUCKETS` and its logarithm. -/
def hashInitialNumBuckets : UInt32 := 32

def hashInitialNumBucketsLog2 : UInt32 := 5

/-- `HASH_BKT_CAPACITY_THRESH`. -/
def hashBktCapacityThresh : UInt32 := 10

/-- `HASH_TO_BKT`. -/
def hashToBkt (hashv numBkts : UInt32) : Nat := (hashv &&& (numBkts - 1)).toNat

/-- `HASH_MAKE_TABLE`. -/
def hashMakeTable {ι : Type*} (add : ι) : UTHashTable ι where
  buckets _ := ⟨none, 0, 0⟩
  numBuckets := hashInitialNumBuckets
  log2NumBuckets := hashInitialNumBucketsLog2
  numItems := 0
  tail := some add
  idealChainMaxlen := 0
  nonidealItems := 0
  ineffExpands := 0
  noexpand := false

namespace UTHash

variable {ι κ : Type*} [DecidableEq ι]

/-! ## Expanding the buckets -/

/-- What the loops of `HASH_EXPAND_BUCKETS` write. -/
structure ExpandState (ι : Type*) where
  bkt : ι → Links ι
  newBuckets : Nat → UTHashBucket ι
  nonidealItems : UInt32

/-- The body of the inner loop: an item goes to the front of its new bucket. -/
def moveItem (hashv : ι → UInt32) (numBuckets idealChainMaxlen : UInt32) (s : ExpandState ι)
    (thh : ι) : ExpandState ι :=
  let bkt := hashToBkt (hashv thh) numBuckets
  let newbkt := s.newBuckets bkt
  let count := newbkt.count + 1
  let nonideal := decide (count > idealChainMaxlen)
  { bkt := pushFront s.bkt newbkt.hhHead thh
    newBuckets := Function.update s.newBuckets bkt
      ⟨some thh, count, if nonideal then count / idealChainMaxlen else newbkt.expandMult⟩
    nonidealItems := if nonideal then s.nonidealItems + 1 else s.nonidealItems }

/-- The inner loop: it reads `hh_next` before it moves the item. A bucket behind the
new array is written outside of it. -/
def moveChain (hashv : ι → UInt32) (numBuckets idealChainMaxlen : UInt32) :
    Nat → ExpandState ι → Option ι → Option (ExpandState ι)
  | _, s, none => some s
  | 0, _, some _ => none
  | fuel + 1, s, some thh =>
    if hashToBkt (hashv thh) numBuckets < numBuckets.toNat then
      moveChain hashv numBuckets idealChainMaxlen fuel
        (moveItem hashv numBuckets idealChainMaxlen s thh) (s.bkt thh).next
    else none

/-- The ideal chain length of a table with twice its buckets. -/
def nextIdealChainMaxlen (tbl : UTHashTable ι) : UInt32 :=
  (tbl.numItems >>> (tbl.log2NumBuckets + 1)) +
    if tbl.numItems &&& (tbl.numBuckets * 2 - 1) ≠ 0 then 1 else 0

/-- The outer loop, over the old buckets. -/
def moveBuckets (h : UTHash ι κ) : Option (ExpandState ι) :=
  (List.range h.tbl.numBuckets.toNat).foldlM
    (fun s bkt => moveChain h.hashv (h.tbl.numBuckets * 2) (nextIdealChainMaxlen h.tbl)
      h.tbl.numItems.toNat s (h.tbl.buckets bkt).hhHead)
    ⟨h.bkt, fun _ => ⟨none, 0, 0⟩, 0⟩

/-- The assignments behind the loops. -/
def installBuckets (h : UTHash ι κ) (s : ExpandState ι) : UTHash ι κ :=
  let ineffExpands :=
    if s.nonidealItems > h.tbl.numItems >>> 1 then h.tbl.ineffExpands + 1 else 0
  { h with
    bkt := s.bkt
    tbl := { h.tbl with
      buckets := s.newBuckets
      numBuckets := h.tbl.numBuckets * 2
      log2NumBuckets := h.tbl.log2NumBuckets + 1
      idealChainMaxlen := nextIdealChainMaxlen h.tbl
      nonidealItems := s.nonidealItems
      ineffExpands
      noexpand := h.tbl.noexpand || decide (ineffExpands > 1) } }

/-- `HASH_EXPAND_BUCKETS`; without memory for the new buckets the process exits. -/
def hashExpandBuckets (malloc : Bool) (h : UTHash ι κ) : Option (UTHash ι κ) :=
  if malloc then (moveBuckets h).map (installBuckets h) else none

/-! ## Adding -/

/-- The assignments of `HASH_ADD_TO_BKT`. -/
def linkInBkt (h : UTHash ι κ) (bkt : Nat) (addhh : ι) : UTHash ι κ :=
  let head := h.tbl.buckets bkt
  { h with
    bkt := pushFront h.bkt head.hhHead addhh
    tbl := { h.tbl with
      buckets := Function.update h.tbl.buckets bkt
        ⟨some addhh, head.count + 1, head.expandMult⟩ } }

/-- A bucket with this many items is to be expanded, if expansion is not inhibited. -/
def MustExpand (h : UTHash ι κ) (bkt : Nat) (count : UInt32) : Prop :=
  count ≥ ((h.tbl.buckets bkt).expandMult + 1) * hashBktCapacityThresh ∧ h.tbl.noexpand = false

instance (h : UTHash ι κ) (bkt : Nat) (count : UInt32) : Decidable (h.MustExpand bkt count) :=
  inferInstanceAs (Decidable (_ ∧ _))

/-- `HASH_ADD_TO_BKT`. -/
def hashAddToBkt (malloc : Bool) (h : UTHash ι κ) (bkt : Nat) (addhh : ι) :
    Option (UTHash ι κ) :=
  let h := linkInBkt h bkt addhh
  if h.MustExpand bkt (h.tbl.buckets bkt).count then hashExpandBuckets malloc h else some h

/-- The part of `HASH_ADD_KEYPTR` that links the element in application order
and counts it. -/
def hashAppend (hashFcn : κ → UInt32) (h : UTHash ι κ) (keyptr : κ) (add : ι) : UTHash ι κ :=
  let tbl := if h.head.isNone then hashMakeTable add else { h.tbl with tail := some add }
  { h with
    head := if h.head.isNone then some add else h.head
    tbl := { tbl with numItems := tbl.numItems + 1 }
    app := if h.head.isNone then Function.update h.app add ⟨none, none⟩
      else pushBack h.app h.tbl.tail add
    key := Function.update h.key add keyptr
    hashv := Function.update h.hashv add (hashFcn keyptr) }

/-- `HASH_ADD_KEYPTR`; without memory for a table the process exits. What `malloc`
answers is the same for all it is asked for in one call: the two parts of a new table,
which does not expand yet, or the buckets of an expansion. -/
def hashAddKeyptr (hashFcn : κ → UInt32) (malloc : Bool) (h : UTHash ι κ) (keyptr : κ) (add : ι) :
    Option (UTHash ι κ) :=
  if h.head.isNone ∧ malloc = false then none
  else
    let h := hashAppend hashFcn h keyptr add
    hashAddToBkt malloc h (hashToBkt (hashFcn keyptr) h.tbl.numBuckets) add

/-! ## Deleting -/

/-- `HASH_DEL_IN_BKT`. -/
def hashDelInBkt (h : UTHash ι κ) (bkt : Nat) (hhDel : ι) : UTHash ι κ :=
  let head := h.tbl.buckets bkt
  { h with
    bkt := unlink h.bkt hhDel
    tbl := { h.tbl with
      buckets := Function.update h.tbl.buckets bkt
        { head with
          hhHead := if head.hhHead = some hhDel then (h.bkt hhDel).next else head.hhHead
          count := head.count - 1 } } }

/-- `HASH_DELETE`: with its last element the table is freed. -/
def hashDelete (h : UTHash ι κ) (delptr : ι) : UTHash ι κ :=
  if (h.app delptr).prev = none ∧ (h.app delptr).next = none then { h with head := none }
  else
    let unlinked : UTHash ι κ := { h with
      head := if (h.app delptr).prev = none then (h.app delptr).next else h.head
      tbl := { h.tbl with
        tail := if h.tbl.tail = some delptr then (h.app delptr).prev else h.tbl.tail
        numItems := h.tbl.numItems - 1 }
      app := unlink h.app delptr }
    hashDelInBkt unlinked (hashToBkt (h.hashv delptr) h.tbl.numBuckets) delptr

/-! ## Finding and counting -/

/-- `HASH_FIND_IN_BKT`. -/
def hashFindInBkt [DecidableEq κ] (h : UTHash ι κ) (keyptr : κ) :
    Nat → Option ι → Option (Option ι)
  | _, none => some none
  | 0, some _ => none
  | fuel + 1, some out =>
    if h.key out = keyptr then some (some out)
    else hashFindInBkt h keyptr fuel (h.bkt out).next

/-- `HASH_FIND`. -/
def hashFind [DecidableEq κ] (hashFcn : κ → UInt32) (h : UTHash ι κ) (keyptr : κ) :
    Option (Option ι) :=
  match h.head with
  | none => some none
  | some _ =>
    hashFindInBkt h keyptr h.tbl.numItems.toNat
      (h.tbl.buckets (hashToBkt (hashFcn keyptr) h.tbl.numBuckets)).hhHead

/-- `HASH_COUNT`. -/
def hashCount (h : UTHash ι κ) : UInt32 := if h.head.isSome then h.tbl.numItems else 0

/-! ## The integrity check -/

/-- What `HASH_FSCK` reports; `endless` stands for a traversal that meets more
than the number of items. -/
inductive HashOops
  | invalidHhPrev
  | invalidBucketCount
  | invalidHhItemCount
  | invalidPrev
  | invalidAppItemCount
  | endless
  deriving DecidableEq, Repr

/-- One of the two traversals: every cell must point back to the one before. -/
def fsckChain (links : ι → Links ι) (oops : HashOops) :
    Nat → Option ι → Option ι → UInt32 → Except HashOops UInt32
  | _, _, none, count => .ok count
  | 0, _, some _, _ => .error .endless
  | fuel + 1, prev, some thh, count =>
    if (links thh).prev = prev then
      fsckChain links oops fuel (some thh) (links thh).next (count + 1)
    else .error oops

/-- `HASH_FSCK`. -/
def hashFsck (h : UTHash ι κ) : Except HashOops Unit :=
  if h.head.isNone then .ok ()
  else do
    let count ← (List.range h.tbl.numBuckets.toNat).foldlM (fun count bkt => do
      let bktCount ← fsckChain h.bkt .invalidHhPrev h.tbl.numItems.toNat none
        (h.tbl.buckets bkt).hhHead 0
      if (h.tbl.buckets bkt).count = bktCount then .ok (count + bktCount)
      else .error .invalidBucketCount) 0
    if count = h.tbl.numItems then
      let count ← fsckChain h.app .invalidPrev h.tbl.numItems.toNat none h.head 0
      if count = h.tbl.numItems then .ok () else .error .invalidAppItemCount
    else .error .invalidHhItemCount

end UTHash

end Meguro
