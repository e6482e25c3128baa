import Meguro.Core.Chains

/-!
# The hash table of the engine

The engine's table keeps its entries in chains. A lookup moves the entry it finds
to the front of its chain, an add doubles an overloaded table first, and a remove
halves an underloaded one, where each allocation may fail.
-/

namespace Meguro

/-! ## The table -/

/-- `JSHashEntry`. -/
structure JSHashEntry (κ β : Type*) where
  keyHash : UInt32
  key : κ
  value : β

/-- `JSHashTable`: the chains of the buckets, the count and the shift. -/
structure JSHashTable (κ β : Type*) where
  buckets : Nat → List (JSHashEntry κ β)
  nentries : Nat
  shift : Nat

/-- A link `hep`: a bucket, and how many entries of its chain stand before the link. -/
structure JSHashLink where
  bucket : Nat
  before : Nat

/-- `JS_HASH_BITS`. -/
def jsHashBits : Nat := 32

/-- `JS_GOLDEN_RATIO`. -/
def jsGoldenRatio : UInt32 := 0x9E3779B9

/-- `MINBUCKETSLOG2`. -/
def minBucketsLog2 : Nat := 4

/-- `MINBUCKETS`. -/
def minBuckets : Nat := 1 <<< minBucketsLog2

/-- `OVERLOADED`. -/
def overloaded (n : Nat) : Nat := n - n >>> 3

/-- `UNDERLOADED`. -/
def underloaded (n : Nat) : Nat := if n > minBuckets then n >>> 2 else 0

/-- `BUCKET_HEAD`. -/
def bucketHead (shift : Nat) (keyHash : UInt32) : Nat := (keyHash * jsGoldenRatio).toNat >>> shift

namespace JSHashTable

variable {κ β : Type*}

/-- `NBUCKETS`. -/
def nbuckets (ht : JSHashTable κ β) : Nat := 1 <<< (jsHashBits - ht.shift)

/-- `JS_NewHashTable` for no more entries than the smallest table has buckets. -/
def newHashTable : JSHashTable κ β := ⟨fun _ => [], 0, jsHashBits - minBucketsLog2⟩

/-- The entry a link points to. -/
def deref (ht : JSHashTable κ β) (hep : JSHashLink) : Option (JSHashEntry κ β) :=
  (ht.buckets hep.bucket)[hep.before]?

/-- `JS_HashTableRawLookup`: a match moves to the front of its chain, without one the
link is the end of the chain. -/
def rawLookup [DecidableEq κ] (ht : JSHashTable κ β) (keyHash : UInt32) (key : κ) :
    JSHashTable κ β × JSHashLink :=
  let bucket := bucketHead ht.shift keyHash
  let chain := ht.buckets bucket
  let isMatch := fun he : JSHashEntry κ β => he.keyHash = keyHash ∧ key = he.key
  match chain.find? (isMatch ·) with
  | some he =>
    ({ ht with buckets := Function.update ht.buckets bucket (he :: chain.eraseP (isMatch ·)) },
      ⟨bucket, 0⟩)
  | none => (ht, ⟨bucket, chain.length⟩)

/-- The loop of `Resize` over the old chains, until every entry was put at the end of its
new chain. It has no result if an assertion fails or the old buckets run out. -/
def moveEntries (newshift : Nat) : List (List (JSHashEntry κ β)) → Nat →
    (Nat → List (JSHashEntry κ β)) → Option (Nat → List (JSHashEntry κ β))
  | _, 0, buckets => some buckets
  | [], _ + 1, _ => none
  | chain :: oldbuckets, nentries, buckets =>
    if nentries < chain.length then none
    else moveEntries newshift oldbuckets (nentries - chain.length)
      (chain.foldl (Chains.place fun he => bucketHead newshift he.keyHash) buckets)

/-- `Resize`, with whether `allocTable` succeeds. -/
def resize (allocTable : Bool) (ht : JSHashTable κ β) (newshift : Nat) :
    Option (JSHashTable κ β × Bool) :=
  if allocTable = false then some (ht, false)
  else (moveEntries newshift ((List.range ht.nbuckets).map ht.buckets) ht.nentries
    fun _ => []).map fun buckets => (⟨buckets, ht.nentries, newshift⟩, true)

/-- The new entry of `JS_HashTableRawAdd`, with whether `allocEntry` succeeds. -/
def newEntry (allocEntry : Bool) (ht : JSHashTable κ β) (hep : JSHashLink) (keyHash : UInt32)
    (key : κ) (value : β) : JSHashTable κ β × Bool :=
  if allocEntry = false then (ht, false)
  else ({ ht with
    buckets := Function.update ht.buckets hep.bucket
      ((ht.buckets hep.bucket).insertIdx hep.before ⟨keyHash, key, value⟩)
    nentries := ht.nentries + 1 }, true)

/-- `JS_HashTableRawAdd`, with whether it returns the entry. -/
def rawAdd [DecidableEq κ] (allocTable allocEntry : Bool) (ht : JSHashTable κ β)
    (hep : JSHashLink) (keyHash : UInt32) (key : κ) (value : β) :
    Option (JSHashTable κ β × Bool) :=
  if overloaded ht.nbuckets ≤ ht.nentries then
    match resize allocTable ht (ht.shift - 1) with
    | none => none
    | some (ht, false) => some (ht, false)
    | some (ht, true) =>
      let (ht, hep) := ht.rawLookup keyHash key
      some (ht.newEntry allocEntry hep keyHash key value)
  else some (ht.newEntry allocEntry hep keyHash key value)

/-- The entry a link points to is taken out of its chain, and freed. -/
def unlink (ht : JSHashTable κ β) (hep : JSHashLink) : JSHashTable κ β where
  buckets := Function.update ht.buckets hep.bucket
    ((ht.buckets hep.bucket).eraseIdx hep.before)
  nentries := ht.nentries - 1
  shift := ht.shift

/-- `JS_HashTableRawRemove`, which does not see whether the table shrinks. -/
def rawRemove (allocTable : Bool) (ht : JSHashTable κ β) (hep : JSHashLink) :
    Option (JSHashTable κ β) :=
  let rest := ht.unlink hep
  if rest.nentries < underloaded ht.nbuckets then
    (rest.resize allocTable (rest.shift + 1)).map Prod.fst
  else some rest

end JSHashTable

/-! ## Calls -/

/-- A call on the table, with the outcome of its allocations, and of the call. -/
inductive JSHashCall (κ β : Type*)
  | lookup (key : κ)
  | add (key : κ) (value : β) (allocTable allocEntry added : Bool)
  | remove (key : κ) (allocTable : Bool)

/-- What a call does to the pairs in the table. -/
def pairsStep {κ β : Type*} [DecidableEq κ] (pairs : κ → Option β) : JSHashCall κ β → κ → Option β
  | .lookup _ => pairs
  | .add key value _ _ added =>
    if added = true then Function.update pairs key (some value) else pairs
  | .remove key _ => Function.update pairs key none

/-- The pairs in the table after these calls. -/
def addedPairs {κ β : Type*} [DecidableEq κ] (ls : List (JSHashCall κ β)) : κ → Option β :=
  ls.foldl pairsStep fun _ => none

theorem addedPairs_snoc {κ β : Type*} [DecidableEq κ] (ls : List (JSHashCall κ β))
    (l : JSHashCall κ β) : addedPairs (ls ++ [l]) = pairsStep (addedPairs ls) l :=
  List.foldl_concat ..

/-- No removal is denied a smaller table. -/
def JSHashCall.Shrinks {κ β : Type*} : JSHashCall κ β → Prop
  | .lookup _ | .add .. => True
  | .remove _ allocTable => allocTable = true

namespace JSHashTable

variable {κ β : Type*} [DecidableEq κ]

/-- A call as the string cache makes it: a lookup first, then an add of a key that is not
there, or the removal of one that is. -/
def step (hash : κ → UInt32) (ht : JSHashTable κ β) : JSHashCall κ β → Option (JSHashTable κ β)
  | .lookup key => some (ht.rawLookup (hash key) key).1
  | .add key value allocTable allocEntry added =>
    let (ht, hep) := ht.rawLookup (hash key) key
    if (ht.deref hep).isSome then none
    else (ht.rawAdd allocTable allocEntry hep (hash key) key value).bind fun (ht, ok) =>
      if ok = added then some ht else none
  | .remove key allocTable =>
    let (ht, hep) := ht.rawLookup (hash key) key
    if (ht.deref hep).isSome then ht.rawRemove allocTable hep else some ht

end JSHashTable

end Meguro
