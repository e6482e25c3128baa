import Meguro.Core.Bits
import Meguro.Core.OutBuffer
import Meguro.Text.CString

/-!
# The base64 coder

`base64_encode` turns three bytes at a time into four characters of its alphabet
and fills the last group with `=`; `base64_decode` turns four characters back into
three bytes and stops at the first group it does not accept. Both write into a
buffer of a given size. The buffers of the `alloc` functions come from `malloc`,
with sizes computed in a `size_t`.
-/

namespace Meguro

/-! ## The alphabet -/

/-- `b64str`. -/
def b64str : List UInt8 :=
  literal "ABCDEFGHIJKLMNOPQRSTUVWXYZabcdefghijklmnopqrstuvwxyz0123456789+/"

/-- `b64str` at the low six bits of an `int`. -/
def b64char (n : Nat) : UInt8 := b64str.getD (n &&& 0x3f) 0

/-- The character `=`. -/
def padding : UInt8 := 61

/-- The table `b64`, by the ranges of its arguments; `none` is its -1. -/
def b64 (ch : UInt8) : Option Nat :=
  if 65 ≤ ch ∧ ch ≤ 90 then some (ch.toNat - 65)
  else if 97 ≤ ch ∧ ch ≤ 122 then some (ch.toNat - 97 + 26)
  else if 48 ≤ ch ∧ ch ≤ 57 then some (ch.toNat - 48 + 52)
  else if ch = 43 then some 62
  else if ch = 47 then some 63
  else none

/-- `isbase64`. -/
def isbase64 (ch : UInt8) : Bool := (b64 ch).isSome

/-! ## Encoding -/

/-- The four characters of a turn of the loop of `base64_encode`: the first byte is
there, and where `inlen` has run out the next ones count as 0 or give padding. -/
def encodeTurn (a : UInt8) (rest : List UInt8) : List UInt8 :=
  [b64char (a.toNat >>> 2),
    b64char ((a.toNat <<< 4) + match rest with
      | b :: _ => b.toNat >>> 4
      | [] => 0),
    match rest with
    | b :: rest => b64char ((b.toNat <<< 2) + match rest with
      | c :: _ => c.toNat >>> 6
      | [] => 0)
    | [] => padding,
    match rest with
    | _ :: c :: _ => b64char c.toNat
    | _ => padding]

/-- The loop of `base64_encode`. It ends when `inlen` or `outlen` is 0; from a full
buffer on, nothing is written. -/
def encodeLoop : List UInt8 → OutBuffer UInt8 → OutBuffer UInt8
  | [], out => out
  | [a], out => out.putAll (encodeTurn a [])
  | [a, b], out => out.putAll (encodeTurn a [b])
  | a :: b :: c :: rest, out => encodeLoop rest (out.putAll (encodeTurn a (b :: c :: rest)))

/-- `base64_encode`: what it writes to `out`, with the NUL if there is room for it. -/
def base64Encode (input : List UInt8) (outlen : Nat) : List UInt8 :=
  ((encodeLoop input ⟨[], outlen⟩).put 0).written

/-- `BASE64_LENGTH`. -/
def base64Length (inlen : UInt64) : UInt64 := (inlen + 2) / 3 * 4

/-- `base64_encode_alloc`: the result, and the buffer at `*out`. `malloc` may fail. -/
def base64EncodeAlloc (malloc : UInt64 → Bool) (input : List UInt8) :
    UInt64 × Option (List UInt8) :=
  let inlen := UInt64.ofNat input.length
  let outlen := 1 + base64Length inlen
  if inlen > outlen then (0, none)
  else if malloc outlen = false then (outlen, none)
  else (outlen - 1, some (base64Encode input outlen.toNat))

/-! ## Decoding -/

/-- The loop of `base64_decode`, and whether it ended with `inlen` at 0. -/
def decodeLoop : List UInt8 → OutBuffer UInt8 → Bool × OutBuffer UInt8
  | [], out => (true, out)
  | [_], out => (false, out)
  | c₀ :: c₁ :: rest, out =>
    match b64 c₀, b64 c₁ with
    | some x, some y =>
      let out := out.put (UInt8.ofNat ((x <<< 2) ||| (y >>> 4)))
      match rest with
      | [] => (false, out)
      | c₂ :: rest =>
        if c₂ = padding then
          -- the group must end the input, with a second `=`
          match rest with
          | [c₃] => (decide (c₃ = padding), out)
          | _ => (false, out)
        else
          match b64 c₂ with
          | none => (false, out)
          | some z =>
            let out := out.put (UInt8.ofNat (((y <<< 4) &&& 0xf0) ||| (z >>> 2)))
            match rest with
            | [] => (false, out)
            | c₃ :: rest =>
              if c₃ = padding then (rest.isEmpty, out)
              else
                match b64 c₃ with
                | none => (false, out)
                | some w =>
                  decodeLoop rest (out.put (UInt8.ofNat (((z <<< 6) &&& 0xc0) ||| w)))
    | _, _ => (false, out)

/-- `base64_decode`: its result, and the bytes it writes to `out`, which it counts
in `*outlen`. -/
def base64Decode (input : List UInt8) (outlen : Nat) : Bool × List UInt8 :=
  let decoded := decodeLoop input ⟨[], outlen⟩
  (decoded.1, decoded.2.written)

/-- `base64_decode_alloc`: the result, and the bytes at `*out`. -/
def base64DecodeAlloc (malloc : UInt64 → Bool) (input : List UInt8) :
    Bool × Option (List UInt8) :=
  let needlen := 3 * (UInt64.ofNat input.length / 4) + 2
  if malloc needlen = false then (true, none)
  else
    match base64Decode input needlen.toNat with
    | (false, _) => (false, none)
    | (true, out) => (true, some out)

end Meguro
