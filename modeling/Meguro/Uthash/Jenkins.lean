import Meguro.Text.CString

/-!
# The hash function of the tables

The default `HASH_FCN` is `HASH_JEN`. It takes the key twelve bytes at a time
into three words and mixes them; the bytes of the last block are added without
the ones that are missing. A `char` is signed, so the bytes from 128 on are sign
extended.
-/

namespace Meguro

/-- A `char` converted to `unsigned`. -/
def unsignedOfChar (c : UInt8) : UInt32 := c.toInt8.toInt32.toUInt32

/-- The three words of `HASH_JEN`. -/
structure JenState where
  i : UInt32
  j : UInt32
  hashv : UInt32
  deriving DecidableEq, Repr

namespace JenState

/-- A third of `HASH_JEN_MIX`. -/
def mixWith (s : JenState) (first second third : UInt32) : JenState :=
  let a := (s.i - s.j - s.hashv) ^^^ (s.hashv >>> first)
  let b := (s.j - s.hashv - a) ^^^ (a <<< second)
  let c := (s.hashv - a - b) ^^^ (b >>> third)
  ⟨a, b, c⟩

/-- `HASH_JEN_MIX`. -/
def mix (s : JenState) : JenState := ((s.mixWith 13 8 13).mixWith 12 16 5).mixWith 3 10 15

/-- The byte of a block at a position, shifted; a missing byte adds nothing. -/
def byteAt (block : List UInt8) (n : Nat) (shift : UInt32) : UInt32 :=
  (block[n]?.map fun c => unsignedOfChar c <<< shift).getD 0

/-- Four bytes of a block, the first one lowest. -/
def wordAt (block : List UInt8) (n : Nat) : UInt32 :=
  byteAt block n 0 + byteAt block (n + 1) 8 + byteAt block (n + 2) 16 + byteAt block (n + 3) 24

/-- The body of the loop, for the twelve bytes in front. -/
def takeBlock (s : JenState) (key : List UInt8) : JenState :=
  mix ⟨s.i + wordAt key 0, s.j + wordAt key 4, s.hashv + wordAt key 8⟩

/-- The switch: the length is in the low byte of `hashv`, its bytes start above it. -/
def takeRest (s : JenState) (keylen : UInt32) (rest : List UInt8) : JenState :=
  mix ⟨s.i + wordAt rest 0, s.j + wordAt rest 4,
    s.hashv + keylen + (byteAt rest 8 8 + byteAt rest 9 16 + byteAt rest 10 24)⟩

/-- The loop and the switch, for this many blocks. -/
def takeAll (keylen : UInt32) : Nat → JenState → List UInt8 → JenState
  | 0, s, key => s.takeRest keylen key
  | blocks + 1, s, key => takeAll keylen blocks (s.takeBlock key) (key.drop 12)

end JenState

/-- `HASH_JEN` on a string. -/
def hashJen (key : CString) : UInt32 :=
  let start : JenState := ⟨0x9e3779b9, 0x9e3779b9, 0xfeedbeef⟩
  (start.takeAll (UInt32.ofNat key.bytes.length) (key.bytes.length / 12) key.bytes).hashv

end Meguro
