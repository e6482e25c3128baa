import Meguro.Core.CodePoint

/-!
# The strings of the engine

The program tells the script engine that C strings are UTF-8. The bytes a script
gets are inflated to 16-bit units, the strings it passes back are deflated to
bytes. Both conversions take two passes, one that measures and one that fills a
buffer of the measured size.
-/

namespace Meguro

/-! ## Inflating -/

/-- `OVERLONG_UTF8`. -/
def overlongUtf8 : Nat := 0xFFFFFFFF

/-- `minucs4Table`, at the length of a sequence. -/
def minucs4 : Nat → Nat
  | 2 => 0x80
  | 3 => 0x800
  | _ => 0x10000

/-- `Utf8ToOneUcs4Char` on a first byte and the bytes behind it. -/
def utf8ToOneUcs4Char (first : UInt8) (rest : List UInt8) : Nat :=
  let utf8Length := rest.length + 1
  let ucs4Char := rest.foldl (fun ucs4Char byte => (ucs4Char <<< 6) ||| (byte.toNat &&& 0x3F))
    (first.toNat &&& ((1 <<< (7 - utf8Length)) - 1))
  if ucs4Char < minucs4 utf8Length then overlongUtf8
  else if ucs4Char = 0xFFFE ∨ ucs4Char = 0xFFFF then 0xFFFD
  else ucs4Char

/-- The loop that counts the leading ones of a byte. -/
def countOnes (v : UInt8) : Nat → Nat → Nat
  | 0, n => n
  | fuel + 1, n => if v.toNat &&& (0x80 >>> n) ≠ 0 then countOnes v fuel (n + 1) else n

/-- The length of a sequence, read off its first byte. -/
def sequenceLength (v : UInt8) : Nat := countOnes v 8 1

/-- The errors the engine reports. -/
inductive InflateError
  | bufferTooSmall
  | malformedUtf8Char (offset : Nat)
  | utf8CharTooLarge (ucs4Char : Nat)
  deriving DecidableEq

/-- `js_InflateStringToBuffer`: the units written to a buffer with this much room. -/
def inflateStringToBuffer (dstlen offset : Nat) (src : List UInt8) :
    Except InflateError (List UInt16) :=
  match src with
  | [] => .ok []
  | first :: rest =>
    if first.toNat &&& 0x80 = 0 then
      if dstlen = 0 then .error .bufferTooSmall
      else (inflateStringToBuffer (dstlen - 1) (offset + 1) rest).map (UInt16.ofNat first.toNat :: ·)
    else
      let n := sequenceLength first
      if n > rest.length + 1 then .error .bufferTooSmall
      else if n = 1 ∨ n > 4 then .error (.malformedUtf8Char offset)
      else if (rest.take (n - 1)).any (fun byte => byte &&& 0xC0 != 0x80) then
        .error (.malformedUtf8Char offset)
      else
        let v := utf8ToOneUcs4Char first (rest.take (n - 1))
        if v ≥ 0x10000 then
          let w := v - 0x10000
          if w > 0xFFFFF ∨ dstlen < 2 then .error (.utf8CharTooLarge v)
          else (inflateStringToBuffer (dstlen - 2) (offset + n) (rest.drop (n - 1))).map
            ([UInt16.ofNat ((w >>> 10) + 0xD800), UInt16.ofNat ((w &&& 0x3FF) + 0xDC00)] ++ ·)
        else if dstlen = 0 then .error .bufferTooSmall
        else (inflateStringToBuffer (dstlen - 1) (offset + n) (rest.drop (n - 1))).map
          (UInt16.ofNat v :: ·)
termination_by src.length

/-- The room behind a null `dst`: `(size_t) -1`. -/
def sizeMax : Nat := UInt64.size - 1

/-- `js_InflateString`: the first pass has no buffer, the second one of the size the
first pass found. -/
def inflateString (bytes : List UInt8) : Option (List UInt16) :=
  match inflateStringToBuffer sizeMax 0 bytes with
  | .error _ => none
  | .ok measured => (inflateStringToBuffer measured.length 0 bytes).toOption

/-! ## Deflating -/

/-- The loop that counts how often five bits can be shifted out of a `uint32`. -/
def countShifts : Nat → Nat → Nat
  | 0, _ => 0
  | fuel + 1, a => if a = 0 then 0 else countShifts fuel (a >>> 5) + 1

/-- The loop that fills the bytes behind the first one, from the last one on: what is
left of the number, and these bytes. -/
def fillTail : Nat → Nat → List UInt8 → Nat × List UInt8
  | 0, ucs4Char, tail => (ucs4Char, tail)
  | i + 1, ucs4Char, tail =>
    fillTail i (ucs4Char >>> 6) (UInt8.ofNat ((ucs4Char &&& 0x3F) ||| 0x80) :: tail)

/-- `js_OneUcs4ToUtf8Char`. -/
def oneUcs4ToUtf8Char (ucs4Char : Nat) : List UInt8 :=
  if ucs4Char < 0x80 then [UInt8.ofNat ucs4Char]
  else
    let utf8Length := 2 + countShifts 7 (ucs4Char >>> 11)
    let filled := fillTail (utf8Length - 1) ucs4Char []
    UInt8.ofNat (0x100 - (1 <<< (8 - utf8Length)) + filled.1) :: filled.2

/-- The number of a surrogate pair. -/
def fromSurrogates (c c2 : UInt16) : Nat :=
  ((c.toNat - 0xD800) <<< 10) + (c2.toNat - 0xDC00) + 0x10000

/-- What a code point adds to the measured length, beyond its units. -/
def extraLength (c : Nat) : Nat := 1 + countShifts 7 (c >>> 11)

/-- `js_GetDeflatedStringLength`; `none` is `(size_t) -1`, for a bad surrogate. -/
def getDeflatedStringLength : List UInt16 → Option Nat
  | [] => some 0
  | c :: chars =>
    if c < 0x80 then (getDeflatedStringLength chars).map (1 + ·)
    else if 0xD800 ≤ c ∧ c ≤ 0xDFFF then
      match chars with
      | [] => none
      | c2 :: chars =>
        if c ≥ 0xDC00 then none
        else if c2 < 0xDC00 ∨ c2 > 0xDFFF then none
        else (getDeflatedStringLength chars).map (2 + extraLength (fromSurrogates c c2) + ·)
    else (getDeflatedStringLength chars).map (1 + extraLength c.toNat + ·)

/-- The errors of the second pass. -/
inductive DeflateError
  | badSurrogate
  | bufferTooSmall
  deriving DecidableEq

/-- `js_DeflateStringToBuffer`: the bytes written to a buffer with this much room. -/
def deflateStringToBuffer (dstlen : Nat) : List UInt16 → Except DeflateError (List UInt8)
  | [] => .ok []
  | c :: src =>
    if c ≥ 0xDC00 ∧ c ≤ 0xDFFF then .error .badSurrogate
    else if c < 0xD800 ∨ c > 0xDBFF then
      let utf8 := oneUcs4ToUtf8Char c.toNat
      if utf8.length > dstlen then .error .bufferTooSmall
      else (deflateStringToBuffer (dstlen - utf8.length) src).map (utf8 ++ ·)
    else
      match src with
      | [] => .error .badSurrogate
      | c2 :: src =>
        if c2 < 0xDC00 ∨ c2 > 0xDFFF then .error .badSurrogate
        else
          let utf8 := oneUcs4ToUtf8Char (fromSurrogates c c2)
          if utf8.length > dstlen then .error .bufferTooSmall
          else (deflateStringToBuffer (dstlen - utf8.length) src).map (utf8 ++ ·)

/-- `js_DeflateString`: the bytes in front of the final NUL. -/
def deflateString (chars : List UInt16) : Option (List UInt8) :=
  match getDeflatedStringLength chars with
  | none => none
  | some nbytes => (deflateStringToBuffer nbytes chars).toOption

end Meguro
