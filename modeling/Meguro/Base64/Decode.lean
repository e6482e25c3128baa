import Meguro.Base64.Encode

/-!
# What the decoder accepts

The decoder accepts exactly the texts that spell something, and writes the bytes
such a text spells as far as its buffer reaches. A text has one reading, so the
decoder undoes the encoder; the encoder undoes the decoder exactly on the texts
whose slack is zero. The sizes the `alloc` functions ask for are never too small.
-/

namespace Meguro

open Bits

/-! ## The table -/

theorem eq_b64char_of_b64 {ch : UInt8} {x : Nat} (h : b64 ch = some x) :
    x < 2 ^ 6 ∧ ch = b64char x := by
  have hall : ∀ ch, ∀ x ∈ b64 ch, x < 2 ^ 6 ∧ ch = b64char x := forall_byte (by decide +kernel)
  exact hall ch x h

theorem b64_b64char {d : Nat} (h : d < 2 ^ 6) : b64 (b64char d) = some d := by
  have hall : ∀ d < 2 ^ 6, b64 (b64char d) = some d := by decide +kernel
  exact hall d h

theorem b64_padding : b64 padding = none := rfl

theorem b64char_ne_padding {d : Nat} (h : d < 2 ^ 6) : b64char d ≠ padding := by
  intro heq
  have hsome := b64_b64char h
  rw [heq, b64_padding] at hsome
  cases hsome

/-! ## Readings -/

namespace Spelling

variable {digits digits' : List Nat} {pad pad' : Nat} {text text' bytes bytes' : List UInt8}
  {slack slack' : List Bool}

/-- The digits of a text are its characters of the alphabet. -/
theorem digits_eq (h : Spelling digits pad text bytes slack) : digits = text.filterMap b64 := by
  have hdigits : (digits.map b64char).filterMap b64 = digits := by
    rw [List.filterMap_map]
    conv_rhs => rw [← List.filterMap_some (l := digits)]
    exact List.filterMap_congr fun d hd => b64_b64char (h.lt d hd)
  have hpad : (List.replicate pad padding).filterMap b64 = [] :=
    List.filterMap_replicate_of_none b64_padding
  rw [h.text_eq, List.filterMap_append, hdigits, hpad, List.append_nil]

/-- A text spells one list of bytes. -/
theorem bytes_unique (h : Spelling digits pad text bytes slack)
    (h' : Spelling digits' pad' text bytes' slack') : bytes = bytes' ∧ slack = slack' := by
  obtain rfl : digits = digits' := h.digits_eq.trans h'.digits_eq.symm
  obtain rfl : pad = pad' := by
    have hlength := congrArg List.length (h.text_eq.symm.trans h'.text_eq)
    simp only [List.length_append, List.length_replicate] at hlength
    omega
  have hbyte (bs : List UInt8) : ∀ n ∈ bs.map UInt8.toNat, n < 2 ^ 8 := by
    intro n hn
    obtain ⟨b, -, rfl⟩ := List.mem_map.mp hn
    exact toNat_lt b
  obtain ⟨hbytes, hslack⟩ := spell_append_inj (by decide) (hbyte bytes) (hbyte bytes')
    (h.length_slack.trans h'.length_slack.symm) (h.spell_eq.symm.trans h'.spell_eq)
  exact ⟨List.map_injective_iff.mpr (fun _ _ => UInt8.toNat_inj.mp) hbytes, hslack⟩

/-- Bytes and a slack of zeros are spelled by one text. -/
theorem text_unique {n n' : Nat} (h : Spelling digits pad text bytes (List.replicate n false))
    (h' : Spelling digits' pad' text' bytes (List.replicate n' false)) : text = text' := by
  have hlength := congrArg List.length h.spell_eq
  have hlength' := congrArg List.length h'.spell_eq
  rw [List.length_append, length_spell, length_spell, h.length_slack] at hlength
  rw [List.length_append, length_spell, length_spell, h'.length_slack] at hlength'
  have hpads := h.pad_le
  have hpads' := h'.pad_le
  have hdvd := h.dvd
  have hdvd' := h'.dvd
  obtain rfl : pad = pad' := by omega
  obtain rfl : n = n' := by
    have hn := h.length_slack
    have hn' := h'.length_slack
    rw [List.length_replicate] at hn hn'
    omega
  have hspell : spell 6 digits ++ [] = spell 6 digits' ++ [] := by
    rw [h.spell_eq, h'.spell_eq]
  obtain ⟨rfl, -⟩ := spell_append_inj (by decide) h.lt h'.lt rfl hspell
  rw [h.text_eq, h'.text_eq]

end Spelling

/-! ## The loop -/

theorem bits_ofNat (n : Nat) : bits 8 (UInt8.ofNat n).toNat = bits 8 n := by
  rw [UInt8.toNat_ofNat']
  exact bits_mod 8 n

/-- The masks of the decoder keep the high bits of a byte. -/
theorem testBit_masks : (∀ i < 8, Nat.testBit 0xf0 i = decide (4 ≤ i)) ∧
    ∀ i < 8, Nat.testBit 0xc0 i = decide (6 ≤ i) := by
  decide

/-- The three bytes of four digits. -/
theorem spell_fourDigits {x y z w : Nat} (hy : y < 2 ^ 6) (hz : z < 2 ^ 6) (hw : w < 2 ^ 6) :
    spell 6 [x, y, z, w] = spell 8 ([UInt8.ofNat ((x <<< 2) ||| (y >>> 4)),
      UInt8.ofNat (((y <<< 4) &&& 0xf0) ||| (z >>> 2)),
      UInt8.ofNat (((z <<< 6) &&& 0xc0) ||| w)].map UInt8.toNat) := by
  simp only [List.map_cons, List.map_nil, spell_cons, spell_nil, bits_ofNat]
  simp [bits_six, bits_eight, Nat.testBit_shiftRight, Nat.testBit_shiftLeft, Nat.testBit_or,
    Nat.testBit_and, testBit_of_le hy, testBit_of_le hz, testBit_of_le hw, testBit_masks]

/-- The two bytes of three digits, and the two bits behind them. -/
theorem spell_threeDigits {x y z : Nat} (hy : y < 2 ^ 6) (hz : z < 2 ^ 6) :
    spell 6 [x, y, z] = spell 8 ([UInt8.ofNat ((x <<< 2) ||| (y >>> 4)),
      UInt8.ofNat (((y <<< 4) &&& 0xf0) ||| (z >>> 2))].map UInt8.toNat) ++ bits 2 z := by
  have htwo : bits 2 z = [z.testBit 1, z.testBit 0] := rfl
  simp only [List.map_cons, List.map_nil, spell_cons, spell_nil, bits_ofNat]
  simp [bits_six, bits_eight, Nat.testBit_shiftRight, Nat.testBit_shiftLeft, Nat.testBit_or,
    Nat.testBit_and, testBit_of_le hy, testBit_of_le hz, testBit_masks, htwo]

/-- The byte of two digits, and the four bits behind it. -/
theorem spell_twoDigits {x y : Nat} (hy : y < 2 ^ 6) :
    spell 6 [x, y] =
      spell 8 ([UInt8.ofNat ((x <<< 2) ||| (y >>> 4))].map UInt8.toNat) ++ bits 4 y := by
  have hfour : bits 4 y = [y.testBit 3, y.testBit 2, y.testBit 1, y.testBit 0] := rfl
  simp only [List.map_cons, List.map_nil, spell_cons, spell_nil, bits_ofNat]
  simp [bits_six, bits_eight, Nat.testBit_shiftRight, Nat.testBit_shiftLeft, Nat.testBit_or,
    testBit_of_le hy, hfour]

/-- A text that is accepted spells what has been written. -/
theorem decodeLoop_sound {text : List UInt8} {out : OutBuffer UInt8}
    (h : (decodeLoop text out).1 = true) :
    ∃ bytes slack, Spells text bytes slack ∧ (decodeLoop text out).2 = out.putAll bytes := by
  fun_induction decodeLoop text out with
  | case1 out => exact ⟨[], [], ⟨[], 0, .last [] ⟨0, rfl⟩ (by decide) rfl rfl⟩, rfl⟩
  | case4 c₀ c₁ out x y hc₁ hc₀ out₁ c₃ =>
    obtain ⟨-, rfl⟩ := eq_b64char_of_b64 hc₀
    obtain ⟨hy, rfl⟩ := eq_b64char_of_b64 hc₁
    obtain rfl : c₃ = padding := of_decide_eq_true h
    exact ⟨_, _, ⟨_, 2, .last [x, y] ⟨1, rfl⟩ (by decide) (spell_twoDigits hy) rfl⟩, rfl⟩
  | case8 c₀ c₁ out x y hc₁ hc₀ out₁ c₂ _ z hc₂ out₂ rest =>
    obtain ⟨-, rfl⟩ := eq_b64char_of_b64 hc₀
    obtain ⟨hy, rfl⟩ := eq_b64char_of_b64 hc₁
    obtain ⟨hz, rfl⟩ := eq_b64char_of_b64 hc₂
    obtain rfl : rest = [] := List.isEmpty_iff.mp h
    exact ⟨_, _, ⟨_, 1, .last [x, y, z] ⟨1, rfl⟩ (by decide) (spell_threeDigits hy hz) rfl⟩, rfl⟩
  | case10 c₀ c₁ out x y hc₁ hc₀ out₁ c₂ _ z hc₂ out₂ c₃ rest _ w hc₃ ih =>
    obtain ⟨-, rfl⟩ := eq_b64char_of_b64 hc₀
    obtain ⟨hy, rfl⟩ := eq_b64char_of_b64 hc₁
    obtain ⟨hz, rfl⟩ := eq_b64char_of_b64 hc₂
    obtain ⟨hw, rfl⟩ := eq_b64char_of_b64 hc₃
    obtain ⟨bytes, slack, ⟨digits, pad, hrest⟩, hwritten⟩ := ih h
    exact ⟨_, slack, ⟨_, pad, hrest.prepend [x, y, z, w] ⟨1, rfl⟩ (spell_fourDigits hy hz hw)⟩,
      hwritten⟩
  | _ => cases h

/-- A group of digits of the alphabet is taken. -/
theorem decodeLoop_group {d₀ d₁ d₂ d₃ : Nat} (hlt : ∀ d ∈ [d₀, d₁, d₂, d₃], d < 2 ^ 6)
    (rest : List UInt8) (out : OutBuffer UInt8) :
    ∃ next, decodeLoop ([d₀, d₁, d₂, d₃].map b64char ++ rest) out = decodeLoop rest next := by
  have h₀ := hlt d₀ (by simp)
  have h₁ := hlt d₁ (by simp)
  have h₂ := hlt d₂ (by simp)
  have h₃ := hlt d₃ (by simp)
  simp only [List.map_cons, List.map_nil, List.cons_append, List.nil_append]
  conv in decodeLoop (_ :: _) out => unfold decodeLoop
  simp only [b64_b64char h₀, b64_b64char h₁, b64_b64char h₂, b64_b64char h₃,
    if_neg (b64char_ne_padding h₂), if_neg (b64char_ne_padding h₃)]
  exact ⟨_, rfl⟩

/-- A text that spells something is accepted. -/
theorem decodeLoop_complete {pad : Nat} (hpad : pad ≤ 2) : ∀ (digits : List Nat)
    (out : OutBuffer UInt8), (∀ d ∈ digits, d < 2 ^ 6) → 4 ∣ digits.length + pad →
      (decodeLoop (digits.map b64char ++ List.replicate pad padding) out).1 = true
  | [], out, _, hdvd => by
    simp only [List.length_nil] at hdvd
    obtain rfl : pad = 0 := by omega
    rfl
  | [_], _, _, hdvd => by
    simp only [List.length_cons, List.length_nil] at hdvd
    omega
  | [d₀, d₁], out, hlt, hdvd => by
    simp only [List.length_cons, List.length_nil] at hdvd
    obtain rfl : pad = 2 := by omega
    have h₀ := hlt d₀ (by simp)
    have h₁ := hlt d₁ (by simp)
    simp [decodeLoop, List.replicate, b64_b64char h₀, b64_b64char h₁]
  | [d₀, d₁, d₂], out, hlt, hdvd => by
    simp only [List.length_cons, List.length_nil] at hdvd
    obtain rfl : pad = 1 := by omega
    have h₀ := hlt d₀ (by simp)
    have h₁ := hlt d₁ (by simp)
    have h₂ := hlt d₂ (by simp)
    simp [decodeLoop, b64_b64char h₀, b64_b64char h₁, b64_b64char h₂, b64char_ne_padding h₂]
  | d₀ :: d₁ :: d₂ :: d₃ :: digits, out, hlt, hdvd => by
    have hgroup : ∀ d ∈ [d₀, d₁, d₂, d₃], d < 2 ^ 6 := fun d hd =>
      hlt d (List.mem_append_left digits hd)
    have hrest : ∀ d ∈ digits, d < 2 ^ 6 := fun d hd =>
      hlt d (List.mem_append_right [d₀, d₁, d₂, d₃] hd)
    obtain ⟨next, hnext⟩ := decodeLoop_group hgroup
      (digits.map b64char ++ List.replicate pad padding) out
    have hsplit : (d₀ :: d₁ :: d₂ :: d₃ :: digits).map b64char ++ List.replicate pad padding =
        [d₀, d₁, d₂, d₃].map b64char ++
          (digits.map b64char ++ List.replicate pad padding) := rfl
    rw [hsplit, hnext]
    apply decodeLoop_complete hpad digits next hrest
    simp only [List.length_cons] at hdvd
    omega

/-! ## The decoder -/

/-- The decoder accepts exactly the texts that spell bytes, and writes these as
far as its buffer reaches. -/
theorem base64Decode_iff (text out : List UInt8) (outlen : Nat) :
    base64Decode text outlen = (true, out) ↔
      ∃ bytes slack, Spells text bytes slack ∧ out = bytes.take outlen := by
  have hsound : (decodeLoop text ⟨[], outlen⟩).1 = true → ∃ bytes slack,
      Spells text bytes slack ∧ base64Decode text outlen = (true, bytes.take outlen) := by
    intro h
    obtain ⟨bytes, slack, hspells, hwritten⟩ := decodeLoop_sound h
    refine ⟨bytes, slack, hspells, ?_⟩
    unfold base64Decode
    dsimp only
    rw [h, hwritten, OutBuffer.written_putAll]
  constructor
  · intro h
    obtain ⟨bytes, slack, hspells, hdecode⟩ := hsound (congrArg Prod.fst h)
    rw [hdecode] at h
    exact ⟨bytes, slack, hspells, (congrArg Prod.snd h).symm⟩
  · rintro ⟨bytes, slack, ⟨digits, pad, h⟩, rfl⟩
    have haccept : (decodeLoop text ⟨[], outlen⟩).1 = true := by
      rw [h.text_eq]
      exact decodeLoop_complete h.pad_le digits _ h.lt h.dvd
    obtain ⟨bytes', slack', ⟨digits', pad', h'⟩, hdecode⟩ := hsound haccept
    rw [hdecode, (h.bytes_unique h').1]

/-! ## The buffers -/

/-- What a text spells has three bytes for every four characters at most. -/
theorem Spells.length_le {text bytes : List UInt8} {slack : List Bool}
    (h : Spells text bytes slack) : bytes.length ≤ 3 * (text.length / 4) := by
  obtain ⟨digits, pad, h⟩ := h
  have hbits := congrArg List.length h.spell_eq
  have htext := congrArg List.length h.text_eq
  have hdvd := h.dvd
  rw [List.length_append, length_spell, length_spell, List.length_map, h.length_slack] at hbits
  rw [List.length_append, List.length_map, List.length_replicate] at htext
  omega

/-- The size `base64_decode_alloc` asks `malloc` for. -/
def needlen (text : List UInt8) : UInt64 := 3 * (UInt64.ofNat text.length / 4) + 2

theorem toNat_needlen {text : List UInt8} (hlen : text.length < 2 ^ 64) :
    (needlen text).toNat = 3 * (text.length / 4) + 2 := by
  unfold needlen
  simp only [UInt64.toNat_add, UInt64.toNat_mul, UInt64.toNat_div, UInt64.toNat_ofNat',
    UInt64.reduceToNat]
  omega

/-- The buffer is large enough. -/
theorem Spells.take_needlen {text bytes : List UInt8} {slack : List Bool}
    (h : Spells text bytes slack) (hlen : text.length < 2 ^ 64) :
    bytes.take (needlen text).toNat = bytes := by
  rw [toNat_needlen hlen]
  exact List.take_of_length_le (Nat.le_add_right_of_le h.length_le)

/-- With its buffer `base64_decode_alloc` returns what the text spells. -/
theorem base64DecodeAlloc_of_spells {malloc : UInt64 → Bool} {text bytes : List UInt8}
    {slack : List Bool} (hlen : text.length < 2 ^ 64) (hmalloc : malloc (needlen text) = true)
    (h : Spells text bytes slack) : base64DecodeAlloc malloc text = (true, some bytes) := by
  have hdecode := (base64Decode_iff text bytes (needlen text).toNat).mpr
    ⟨bytes, slack, h, (h.take_needlen hlen).symm⟩
  unfold needlen at hmalloc hdecode
  unfold base64DecodeAlloc
  dsimp only
  rw [hmalloc, if_neg (by decide), hdecode]

/-- It returns bytes only if it gets its buffer and the decoder accepts. -/
theorem base64DecodeAlloc_eq_some {malloc : UInt64 → Bool} {text bytes : List UInt8}
    (h : base64DecodeAlloc malloc text = (true, some bytes)) :
    malloc (needlen text) = true ∧ base64Decode text (needlen text).toNat = (true, bytes) := by
  unfold base64DecodeAlloc at h
  unfold needlen
  dsimp only at h
  split at h
  · cases h
  · split at h
    · cases h
    · rename_i hmalloc _ out hdecode
      obtain rfl := Option.some.inj (Prod.mk.inj h).2
      exact ⟨Bool.of_not_eq_false hmalloc, hdecode⟩

/-- `base64_decode_alloc` returns bytes exactly if it gets its buffer and the text
spells them, and then all of them. -/
theorem base64DecodeAlloc_iff (malloc : UInt64 → Bool) {text : List UInt8}
    (hlen : text.length < 2 ^ 64) (bytes : List UInt8) :
    base64DecodeAlloc malloc text = (true, some bytes) ↔
      malloc (needlen text) = true ∧ ∃ slack, Spells text bytes slack := by
  constructor
  · intro h
    obtain ⟨hmalloc, hdecode⟩ := base64DecodeAlloc_eq_some h
    obtain ⟨bs, slack, hspells, hout⟩ := (base64Decode_iff ..).mp hdecode
    rw [hspells.take_needlen hlen] at hout
    exact ⟨hmalloc, slack, hout ▸ hspells⟩
  · rintro ⟨hmalloc, slack, hspells⟩
    exact base64DecodeAlloc_of_spells hlen hmalloc hspells

theorem base64DecodeAlloc_slackText :
    base64DecodeAlloc (fun _ => true) (literal "TR==") = (true, some (literal "M")) ↔
      (fun _ => true) (needlen (literal "TR==")) = true ∧
        ∃ slack, Spells (literal "TR==") (literal "M") slack :=
  base64DecodeAlloc_iff _ (by decide +kernel) (literal "M")

/-- `1 + BASE64_LENGTH` as the `size_t` it is computed in. -/
theorem toNat_outlen {n : Nat} (hn : n < 2 ^ 64) :
    (1 + base64Length (UInt64.ofNat n)).toNat =
      (1 + (n + 2) % 2 ^ 64 / 3 * 4 % 2 ^ 64) % 2 ^ 64 := by
  unfold base64Length
  simp only [UInt64.toNat_add, UInt64.toNat_mul, UInt64.toNat_div, UInt64.toNat_ofNat',
    UInt64.reduceToNat, Nat.mod_eq_of_lt hn]

/-- Without a wrap it is the length of the text and a NUL. -/
theorem toNat_outlen_of_lt {n : Nat} (hn : n < 2 ^ 64) (h : (n + 2) / 3 * 4 + 1 < 2 ^ 64) :
    (1 + base64Length (UInt64.ofNat n)).toNat = (n + 2) / 3 * 4 + 1 := by
  have hsum : n + 2 < 2 ^ 64 := by omega
  rw [toNat_outlen hn, Nat.mod_eq_of_lt hsum]
  omega

/-- With a wrap it is less than the length of the input. -/
theorem toNat_outlen_of_le {n : Nat} (hn : n < 2 ^ 64) (h : 2 ^ 64 ≤ (n + 2) / 3 * 4 + 1) :
    (1 + base64Length (UInt64.ofNat n)).toNat < n := by
  rw [toNat_outlen hn]
  by_cases hsum : n + 2 < 2 ^ 64
  · rw [Nat.mod_eq_of_lt hsum]
    omega
  · have hzero : (n + 2) % 2 ^ 64 / 3 = 0 := by omega
    rw [hzero]
    omega

/-- The comparison with `inlen` finds exactly the lengths whose `outlen` wraps. -/
theorem outlen_lt_iff {n : Nat} (hn : n < 2 ^ 64) :
    1 + base64Length (UInt64.ofNat n) < UInt64.ofNat n ↔ 2 ^ 64 ≤ (n + 2) / 3 * 4 + 1 := by
  rw [UInt64.lt_iff_toNat_lt, UInt64.toNat_ofNat', Nat.mod_eq_of_lt hn]
  constructor
  · intro hlt
    by_contra hwrap
    rw [toNat_outlen_of_lt hn (Nat.lt_of_not_le hwrap)] at hlt
    omega
  · exact toNat_outlen_of_le hn

/-- What `base64_encode_alloc` makes of an input. -/
theorem base64EncodeAlloc_encoding (malloc : UInt64 → Bool) {input : List UInt8}
    (hlen : input.length < 2 ^ 64) : base64EncodeAlloc malloc input =
      if 2 ^ 64 ≤ (encoding input).length + 1 then (0, none)
      else if malloc (UInt64.ofNat ((encoding input).length + 1)) = false then
        (UInt64.ofNat ((encoding input).length + 1), none)
      else (UInt64.ofNat (encoding input).length, some (encoding input ++ [0])) := by
  have hlength := length_encoding input
  have hwrite := base64Encode_eq input
  generalize encoding input = text at hlength hwrite
  unfold base64EncodeAlloc
  dsimp only
  by_cases hwrap : 2 ^ 64 ≤ text.length + 1
  · rw [if_pos hwrap, if_pos]
    exact (outlen_lt_iff hlen).mpr (hlength ▸ hwrap)
  · have houtlen : 1 + base64Length (UInt64.ofNat input.length) =
        UInt64.ofNat (text.length + 1) := by
      apply UInt64.toNat_inj.mp
      have hlt : (input.length + 2) / 3 * 4 + 1 < 2 ^ 64 := by omega
      rw [toNat_outlen_of_lt hlen hlt, UInt64.toNat_ofNat', hlength, Nat.mod_eq_of_lt hlt]
    have hsize : (UInt64.ofNat (text.length + 1)).toNat = text.length + 1 := by
      rw [UInt64.toNat_ofNat']
      omega
    have hresult : UInt64.ofNat (text.length + 1) - 1 = UInt64.ofNat text.length := by
      rw [UInt64.ofNat_add]
      exact UInt64.add_sub_cancel ..
    have hnowrap : ¬ UInt64.ofNat input.length > UInt64.ofNat (text.length + 1) := by
      rw [← houtlen]
      exact fun h => hwrap (hlength ▸ (outlen_lt_iff hlen).mp h)
    rw [houtlen, if_neg hwrap, if_neg hnowrap, hwrite, hsize, hresult,
      List.take_of_length_le (by simp)]

/-- `base64_encode_alloc` gives up exactly when the text and its NUL have more
bytes than a `size_t` counts. Otherwise it asks for just as many. -/
theorem base64EncodeAlloc_eq (malloc : UInt64 → Bool) {input : List UInt8}
    (hlen : input.length < 2 ^ 64) : ∃ text n, Spells text input (List.replicate n false) ∧
      base64EncodeAlloc malloc input =
        if 2 ^ 64 ≤ text.length + 1 then (0, none)
        else if malloc (UInt64.ofNat (text.length + 1)) = false then
          (UInt64.ofNat (text.length + 1), none)
        else (UInt64.ofNat text.length, some (text ++ [0])) := by
  obtain ⟨n, hspells⟩ := spells_encoding input
  exact ⟨encoding input, n, hspells, base64EncodeAlloc_encoding malloc hlen⟩

theorem base64EncodeAlloc_threeBytes :
    ∃ text n, Spells text (literal "Man") (List.replicate n false) ∧
      base64EncodeAlloc (fun size => size ≤ 64) (literal "Man") =
        if 2 ^ 64 ≤ text.length + 1 then (0, none)
        else if (fun size : UInt64 => decide (size ≤ 64)) (UInt64.ofNat (text.length + 1)) = false
        then (UInt64.ofNat (text.length + 1), none)
        else (UInt64.ofNat text.length, some (text ++ [0])) :=
  base64EncodeAlloc_eq _ (by decide +kernel)

/-- What one `alloc` function returns the other one takes: the text of an input is
decoded to this input, and a text that spells it is this text exactly when its
slack is zero. -/
theorem base64_roundTrip {malloc : UInt64 → Bool} {input buffer : List UInt8} {result : UInt64}
    (hlen : input.length < 2 ^ 64)
    (hencode : base64EncodeAlloc malloc input = (result, some buffer)) :
    ∃ text, buffer = text ++ [0] ∧ result = UInt64.ofNat text.length ∧
      (malloc (needlen text) = true → base64DecodeAlloc malloc text = (true, some input)) ∧
      ∀ other slack, Spells other input slack → (other = text ↔ ∀ bit ∈ slack, bit = false) := by
  obtain ⟨n, hspells⟩ := spells_encoding input
  have heq := base64EncodeAlloc_encoding malloc hlen
  rw [hencode] at heq
  generalize encoding input = text at hspells heq
  by_cases hwrap : 2 ^ 64 ≤ text.length + 1
  · rw [if_pos hwrap] at heq
    cases heq
  rw [if_neg hwrap] at heq
  cases hmalloc : malloc (UInt64.ofNat (text.length + 1)) with
  | false =>
    rw [if_pos hmalloc] at heq
    cases heq
  | true =>
    rw [hmalloc, if_neg (by decide)] at heq
    cases heq
    refine ⟨text, rfl, rfl, fun hneed => ?_, fun other slack => ?_⟩
    · have htext : text.length < 2 ^ 64 := Nat.lt_of_succ_lt (Nat.lt_of_not_le hwrap)
      exact base64DecodeAlloc_of_spells htext hneed hspells
    · obtain ⟨digits, pad, h⟩ := hspells
      rintro ⟨digits', pad', h'⟩
      constructor
      · rintro rfl
        rw [(h'.bytes_unique h).2]
        exact fun bit hbit => List.eq_of_mem_replicate hbit
      · intro hzero
        rw [List.eq_replicate_of_mem hzero] at h'
        exact h'.text_unique h

theorem base64_roundTrip_twoBytes :
    ∃ text, literal "TWE=" ++ [0] = text ++ [0] ∧ (4 : UInt64) = UInt64.ofNat text.length ∧
      ((fun _ => true) (needlen text) = true →
        base64DecodeAlloc (fun _ => true) text = (true, some (literal "Ma"))) ∧
      ∀ other slack, Spells other (literal "Ma") slack →
        (other = text ↔ ∀ bit ∈ slack, bit = false) :=
  have hencode : base64EncodeAlloc (fun _ => true) (literal "Ma") =
      (4, some (literal "TWE=" ++ [0])) := by
    decide +kernel
  base64_roundTrip (by decide +kernel) hencode

end Meguro
