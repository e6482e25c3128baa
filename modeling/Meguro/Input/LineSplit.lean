import Meguro.Input.Line

/-!
# Splitting text into lines

On a file without NUL the texts are the chunks themselves, so a call gathers one
line whatever the buffer. The values are the lines of the file, for every buffer
and for both iterators, exactly when no line with its newline is longer than an
`int` can count. A value ends in NUL exactly when its line ends in a newline: the
last line of a file without a final newline is handed out unterminated.
-/

namespace Meguro

/-! ## The lines of a text -/

/-- The lines of a text: the parts between its newlines, without an empty rest. -/
def lines (content : List UInt8) : List (List UInt8) :=
  let parts := content.splitOn newline
  if parts.getLast? = some [] then parts.dropLast else parts

/-- The lines with their newlines. -/
def rawLines : List UInt8 → List (List UInt8)
  | [] => []
  | b :: bs =>
    if b = newline then [b] :: rawLines bs
    else
      match rawLines bs with
      | [] => [[b]]
      | raw :: raws => (b :: raw) :: raws

theorem beq_newline_of_notMem {line : List UInt8} (h : newline ∉ line) :
    ∀ b ∈ line, (b == newline) = false := by
  intro b hb
  rw [beq_eq_false_iff_ne]
  rintro rfl
  exact h hb

theorem lines_newline {line : List UInt8} (h : newline ∉ line) (content : List UInt8) :
    lines (line ++ newline :: content) = line :: lines content := by
  have hsplit : (line ++ newline :: content).splitOn newline = line :: content.splitOn newline :=
    List.splitOnP_append_cons_of_forall_mem (beq_newline_of_notMem h) _ (beq_self_eq_true _) _
  have hne : content.splitOn newline ≠ [] := List.splitOnP_ne_nil (· == newline) content
  obtain ⟨part, parts, hparts⟩ := List.exists_cons_of_ne_nil hne
  rw [lines, lines, hsplit, hparts]
  simp only [List.getLast?_cons_cons, List.dropLast_cons_cons]
  split <;> rfl

theorem lines_open {line : List UInt8} (h : newline ∉ line) (hne : line ≠ []) :
    lines line = [line] := by
  have hsplit : line.splitOn newline = [line] :=
    List.splitOnP_eq_singleton (beq_newline_of_notMem h)
  simp [lines, hsplit, hne]

theorem rawLines_newline {line : List UInt8} (h : newline ∉ line) (content : List UInt8) :
    rawLines (line ++ newline :: content) = (line ++ [newline]) :: rawLines content := by
  induction line with
  | nil => simp [rawLines]
  | cons b bs ih =>
    rw [List.mem_cons, not_or] at h
    rw [List.cons_append, rawLines, if_neg (Ne.symm h.1), ih h.2]
    rfl

/-- A text without newline that begins a file begins its first line. -/
theorem rawLines_open {line : List UInt8} (h : newline ∉ line) (hne : line ≠ [])
    (content : List UInt8) :
    ∃ more raws, rawLines (line ++ content) = (line ++ more) :: raws := by
  induction line with
  | nil => exact absurd rfl hne
  | cons b bs ih =>
    rw [List.mem_cons, not_or] at h
    rw [List.cons_append, rawLines, if_neg (Ne.symm h.1)]
    by_cases hbs : bs = []
    · subst hbs
      cases hraw : rawLines ([] ++ content) with
      | nil => exact ⟨[], [], rfl⟩
      | cons raw raws => exact ⟨raw, raws, rfl⟩
    · obtain ⟨more, raws, hraw⟩ := ih h.2 hbs
      exact ⟨more, raws, by rw [hraw]; rfl⟩

theorem rawLines_of_open {line : List UInt8} (h : newline ∉ line) (hne : line ≠ []) :
    rawLines line = [line] := by
  induction line with
  | nil => exact absurd rfl hne
  | cons b bs ih =>
    rw [List.mem_cons, not_or] at h
    rw [rawLines, if_neg (Ne.symm h.1)]
    by_cases hbs : bs = []
    · rw [hbs]
      rfl
    · rw [ih h.2 hbs]

/-! ## Chunks without NUL -/

/-- A chunk of a file without NUL. -/
structure IsPlain (chunk : List Cell) : Prop where
  ne_nil : chunk ≠ []
  nulFree : ∀ cell ∈ chunk, cell.byte ≠ 0
  newline_last : ∀ cell ∈ chunk.dropLast, cell.byte ≠ newline

theorem map_byte_fileCells (line : Nat) (content : List UInt8) :
    (fileCells line content).map Cell.byte = content := by
  induction content generalizing line with
  | nil => rfl
  | cons b bs ih => rw [fileCells, List.map_cons, ih]

theorem Reading.isPlain {size line : Nat} {content : List UInt8} {chunks : List (List Cell)}
    (h : Reading size (fileCells line content) chunks) (hnul : 0 ∉ content) :
    ∀ chunk ∈ chunks, IsPlain chunk := by
  intro chunk hchunk
  have hfacts := h.isChunk chunk hchunk
  refine ⟨hfacts.ne_nil, fun cell hcell hzero => hnul ?_, hfacts.newline_last⟩
  have hmem : cell ∈ fileCells line content := by
    rw [← h.flatten]
    exact List.mem_flatten.mpr ⟨chunk, hchunk, hcell⟩
  rw [← map_byte_fileCells line content, ← hzero]
  exact List.mem_map_of_mem hmem

/-- `strlen` measures all of a plain chunk. -/
theorem IsPlain.textOf_eq {chunk : List Cell} (h : IsPlain chunk) : textOf chunk = chunk :=
  List.takeWhile_eq_self_iff.mpr fun cell hcell => decide_eq_true (h.nulFree cell hcell)

theorem textsOf_of_isPlain {chunks : List (List Cell)} (h : ∀ chunk ∈ chunks, IsPlain chunk) :
    textsOf chunks = chunks.flatten := by
  induction chunks with
  | nil => rfl
  | cons chunk chunks ih =>
    obtain ⟨hchunk, hchunks⟩ := List.forall_mem_cons.mp h
    rw [textsOf, List.flatMap_cons, hchunk.textOf_eq, List.flatten_cons]
    exact congrArg (chunk ++ ·) (ih hchunks)

theorem IsPlain.newline_notMem {chunk : List Cell} (h : IsPlain chunk) (hopen : ¬ EndsLine chunk) :
    newline ∉ chunk.map Cell.byte := by
  rw [EndsLine, h.textOf_eq, List.getLast?_eq_some_getLast h.ne_nil] at hopen
  intro hmem
  obtain ⟨cell, hcell, hbyte⟩ := List.mem_map.mp hmem
  rw [← List.dropLast_append_getLast h.ne_nil] at hcell
  rcases List.mem_append.mp hcell with hcell | hcell
  · exact h.newline_last cell hcell hbyte
  · rw [List.mem_singleton.mp hcell] at hbyte
    exact hopen (congrArg some hbyte)

theorem IsPlain.map_byte_of_endsLine {chunk : List Cell} (h : IsPlain chunk)
    (hends : EndsLine chunk) : chunk.map Cell.byte = chunk.dropLast.map Cell.byte ++ [newline] := by
  rw [EndsLine, h.textOf_eq, List.getLast?_eq_some_getLast h.ne_nil] at hends
  conv_lhs => rw [← List.dropLast_append_getLast h.ne_nil]
  rw [List.map_append, List.map_singleton, Option.some.inj hends]

theorem IsPlain.newline_notMem_dropLast {chunk : List Cell} (h : IsPlain chunk) :
    newline ∉ chunk.dropLast.map Cell.byte := by
  intro hmem
  obtain ⟨cell, hcell, hbyte⟩ := List.mem_map.mp hmem
  exact h.newline_last cell hcell hbyte

/-- The bytes of chunks. -/
def bytesOf (chunks : List (List Cell)) : List UInt8 := chunks.flatten.map Cell.byte

theorem bytesOf_append (xs ys : List (List Cell)) :
    bytesOf (xs ++ ys) = bytesOf xs ++ bytesOf ys := by
  rw [bytesOf, List.flatten_append, List.map_append]
  rfl

theorem bytesOf_cons (chunk : List Cell) (chunks : List (List Cell)) :
    bytesOf (chunk :: chunks) = chunk.map Cell.byte ++ bytesOf chunks := by
  rw [bytesOf, List.flatten_cons, List.map_append]
  rfl

/-- Chunks the loop passes hold no newline. -/
theorem Passes.newline_notMem {before : List (List Cell)} (h : Passes before)
    (hplain : ∀ chunk ∈ before, IsPlain chunk) : newline ∉ bytesOf before := by
  intro hmem
  obtain ⟨cell, hcell, hbyte⟩ := List.mem_map.mp hmem
  obtain ⟨chunk, hchunk, hcell⟩ := List.mem_flatten.mp hcell
  refine (hplain chunk hchunk).newline_notMem (h.open_end chunk hchunk) ?_
  exact hbyte ▸ List.mem_map_of_mem hcell

/-! ## The values are the lines -/

/-- The bytes of a value, up to its terminator if it has one. -/
def LinePair.text (pair : LinePair) : List UInt8 := (pair.value.map Cell.byte).takeWhile (· ≠ 0)

theorem takeWhile_append_nul {bytes : List UInt8} (h : 0 ∉ bytes) (rest : List UInt8) :
    (bytes ++ 0 :: rest).takeWhile (· ≠ 0) = bytes := by
  induction bytes with
  | nil => rfl
  | cons b bs ih =>
    rw [List.mem_cons, not_or] at h
    have hb : b ≠ 0 := Ne.symm h.1
    simp only [List.cons_append, List.takeWhile_cons, hb, ih h.2, decide_true, if_true, ne_eq,
      not_false_eq_true]

theorem takeWhile_of_nulFree {bytes : List UInt8} (h : 0 ∉ bytes) :
    bytes.takeWhile (· ≠ 0) = bytes := by
  rw [List.takeWhile_eq_self_iff]
  rintro b hb
  rw [decide_eq_true_eq]
  rintro rfl
  exact h hb

/-- The line gathered by a call that stops at a newline. -/
structure Gathers (before : List (List Cell)) (chunk : List Cell) (line : List UInt8) : Prop where
  open_line : newline ∉ line
  nulFree : 0 ∉ line
  bytes : bytesOf (before ++ [chunk]) = line ++ [newline]
  value : (textsOf (before ++ [chunk])).dropLast.map Cell.byte = line
  length : (textsOf (before ++ [chunk])).length = line.length + 1

theorem nul_notMem_bytesOf {chunks : List (List Cell)} (h : ∀ chunk ∈ chunks, IsPlain chunk) :
    0 ∉ bytesOf chunks := by
  intro hmem
  obtain ⟨cell, hcell, hbyte⟩ := List.mem_map.mp hmem
  obtain ⟨chunk, hchunk, hcell⟩ := List.mem_flatten.mp hcell
  exact (h chunk hchunk).nulFree cell hcell hbyte

theorem gathers_of_endsLine {before : List (List Cell)} {chunk : List Cell}
    (hplain : ∀ c ∈ before ++ [chunk], IsPlain c) (hpass : Passes before)
    (hends : EndsLine chunk) :
    Gathers before chunk (bytesOf before ++ chunk.dropLast.map Cell.byte) := by
  have hbefore : ∀ c ∈ before, IsPlain c := fun c hc => hplain c (List.mem_append_left _ hc)
  have hchunk : IsPlain chunk := hplain chunk (by simp)
  have hflat : textsOf (before ++ [chunk]) = before.flatten ++ chunk := by
    rw [textsOf_of_isPlain hplain, List.flatten_append, List.flatten_singleton]
  have hbytes : bytesOf (before ++ [chunk]) =
      bytesOf before ++ chunk.dropLast.map Cell.byte ++ [newline] := by
    rw [bytesOf_append, bytesOf_cons, hchunk.map_byte_of_endsLine hends, List.append_assoc]
    simp [bytesOf]
  have hlength := congrArg List.length hbytes
  refine ⟨?_, ?_, hbytes, ?_, ?_⟩
  · rw [List.mem_append, not_or]
    exact ⟨hpass.newline_notMem hbefore, hchunk.newline_notMem_dropLast⟩
  · intro hmem
    apply nul_notMem_bytesOf hplain
    rw [hbytes]
    exact List.mem_append_left _ hmem
  · rw [hflat, List.dropLast_append_of_ne_nil hchunk.ne_nil, List.map_append]
    rfl
  · rw [bytesOf, List.length_map, ← textsOf_of_isPlain hplain, List.length_append,
      List.length_singleton] at hlength
    exact hlength

/-- A first line that does not fit an `int` is a line of the file. -/
theorem exists_long_rawLine {before : List (List Cell)} {chunk : List Cell}
    (hplain : ∀ c ∈ before ++ [chunk], IsPlain c) (hpass : Passes before)
    (hover : intMax < (textsOf (before ++ [chunk])).length) (content : List UInt8) :
    ∃ raw ∈ rawLines (bytesOf (before ++ [chunk]) ++ content), intMax < raw.length := by
  have hlength : (bytesOf (before ++ [chunk])).length = (textsOf (before ++ [chunk])).length := by
    rw [bytesOf, List.length_map, textsOf_of_isPlain hplain]
  by_cases hends : EndsLine chunk
  · have hgathers := gathers_of_endsLine hplain hpass hends
    rw [hgathers.bytes, List.append_assoc, List.singleton_append,
      rawLines_newline hgathers.open_line]
    refine ⟨_, List.mem_cons_self .., ?_⟩
    rw [List.length_append, List.length_singleton, ← hgathers.length]
    exact hover
  · have hopen : newline ∉ bytesOf (before ++ [chunk]) := by
      rw [bytesOf_append, bytesOf_cons, List.mem_append, List.mem_append, not_or, not_or]
      refine ⟨hpass.newline_notMem fun c hc => hplain c (List.mem_append_left _ hc),
        ?_, by simp [bytesOf]⟩
      exact (hplain chunk (by simp)).newline_notMem hends
    obtain ⟨more, raws, hraw⟩ := rawLines_open hopen (by
      intro hnil
      rw [hnil, List.length_nil] at hlength
      omega) content
    refine ⟨_, hraw ▸ List.mem_cons_self .., ?_⟩
    rw [List.length_append]
    omega

/-- What a call comes to on a file without NUL, by the bytes that are left. -/
inductive PlainOutcome (chunks : List (List Cell)) : NextResult → Prop
  | complete : bytesOf chunks = [] → PlainOutcome chunks .complete
  | unterminated {value} : newline ∉ bytesOf chunks → bytesOf chunks ≠ [] → 0 ∉ bytesOf chunks →
      (bytesOf chunks).length ≤ intMax → value.map Cell.byte = bytesOf chunks →
      PlainOutcome chunks (.pair ⟨.ofLiteral "", value⟩ [])
  | newline {line value rest} : newline ∉ line → 0 ∉ line → (line ++ [newline]).length ≤ intMax →
      bytesOf chunks = line ++ newline :: bytesOf rest → value.map Cell.byte = line ++ [0] →
      (∀ chunk ∈ rest, IsPlain chunk) → rest.length < chunks.length →
      PlainOutcome chunks (.pair ⟨.ofLiteral "", value⟩ rest)
  | overflow : (∃ raw ∈ rawLines (bytesOf chunks), intMax < raw.length) →
      PlainOutcome chunks .overflow

theorem plainOutcome_next {chunks : List (List Cell)} (hplain : ∀ chunk ∈ chunks, IsPlain chunk) :
    PlainOutcome chunks (nextLine none chunks) := by
  have houtcome := outcome_next chunks
  generalize nextLine none chunks = result at houtcome
  cases houtcome with
  | complete => exact .complete rfl
  | unterminated hne hpass =>
    have hvalue : (textsOf chunks).map Cell.byte = bytesOf chunks := by
      rw [textsOf_of_isPlain hplain, bytesOf]
    refine .unterminated (hpass.newline_notMem hplain) ?_ (nul_notMem_bytesOf hplain) ?_ hvalue
    · obtain ⟨chunk, chunks, rfl⟩ := List.exists_cons_of_ne_nil hne
      simp [bytesOf_cons, (hplain chunk (by simp)).ne_nil]
    · rw [← hvalue, List.length_map]
      exact hpass.fits
  | @newline before chunk rest hpass hends hfits =>
    rw [List.append_cons] at hplain ⊢
    have hgathers := gathers_of_endsLine
      (fun c hc => hplain c (List.mem_append_left _ hc)) hpass hends
    refine .newline hgathers.open_line hgathers.nulFree ?_ ?_ ?_
      (fun c hc => hplain c (List.mem_append_right _ hc)) (by simp; omega)
    · rw [List.length_append, List.length_singleton, ← hgathers.length]
      exact hfits
    · rw [bytesOf_append, hgathers.bytes, List.append_assoc]
      rfl
    · rw [List.map_append, hgathers.value]
      rfl
  | @overflow before chunk rest hpass hover =>
    rw [List.append_cons] at hplain ⊢
    refine .overflow ?_
    rw [bytesOf_append]
    exact exists_long_rawLine (fun c hc => hplain c (List.mem_append_left _ hc)) hpass hover _
  | @negativeIndex before chunk rest hpass hnil =>
    have hchunk := hplain chunk (by simp)
    exact absurd (hchunk.textOf_eq.symm.trans hnil) hchunk.ne_nil

/-- What a call that returns a pair contributes to an iteration. -/
theorem iterates_of_pair {next : List (List Cell) → NextResult} {chunks rest : List (List Cell)}
    {pair : LinePair} (h : next chunks = .pair pair rest) {pairs : List LinePair} :
    Iterates next chunks pairs ↔ ∃ more, pairs = pair :: more ∧ Iterates next rest more := by
  constructor
  · intro hit
    cases hit with
    | complete hc => rw [h] at hc; cases hc
    | pair hp hrest =>
      rw [h] at hp
      cases hp
      exact ⟨_, rfl, hrest⟩
  · rintro ⟨more, rfl, hrest⟩
    exact .pair h hrest

/-- On plain chunks the iteration returns the lines exactly when they fit. -/
theorem iterates_lines_iff (chunks : List (List Cell)) (hplain : ∀ chunk ∈ chunks, IsPlain chunk) :
    (∃ pairs, Iterates (nextLine none) chunks pairs ∧
      pairs.map LinePair.text = lines (bytesOf chunks)) ↔
      ∀ raw ∈ rawLines (bytesOf chunks), raw.length ≤ intMax := by
  induction hlen : chunks.length using Nat.strongRecOn generalizing chunks with
  | ind n ih =>
    have houtcome := plainOutcome_next hplain
    generalize hresult : nextLine none chunks = result at houtcome
    cases houtcome with
    | complete hnil =>
      rw [hnil]
      exact iff_of_true ⟨[], .complete hresult, rfl⟩ (by simp [rawLines])
    | unterminated hopen hne hnul hfits hvalue =>
      refine iff_of_true ⟨_, (iterates_of_pair hresult).mpr ⟨[], rfl, .complete rfl⟩, ?_⟩ ?_
      · rw [List.map_singleton, LinePair.text, hvalue, takeWhile_of_nulFree hnul,
          lines_open hopen hne]
      · rw [rawLines_of_open hopen hne, List.forall_mem_singleton]
        exact hfits
    | @newline line value rest hopen hnul hfits hbytes hvalue hrest hlt =>
      have htext : LinePair.text ⟨.ofLiteral "", value⟩ = line := by
        rw [LinePair.text, hvalue, takeWhile_append_nul hnul]
      have hrec := ih rest.length (hlen ▸ hlt) rest hrest rfl
      rw [hbytes, lines_newline hopen, rawLines_newline hopen, List.forall_mem_cons,
        and_iff_right hfits, ← hrec]
      constructor
      · rintro ⟨pairs, hit, hlines⟩
        obtain ⟨more, rfl, hmore⟩ := (iterates_of_pair hresult).mp hit
        rw [List.map_cons, htext] at hlines
        exact ⟨more, hmore, (List.cons.inj hlines).2⟩
      · rintro ⟨more, hmore, hlines⟩
        refine ⟨_, (iterates_of_pair hresult).mpr ⟨more, rfl, hmore⟩, ?_⟩
        rw [List.map_cons, htext, hlines]
    | overflow hlong =>
      obtain ⟨raw, hraw, hlong⟩ := hlong
      refine iff_of_false ?_ fun hall => absurd (hall raw hraw) (Nat.not_le_of_lt hlong)
      rintro ⟨pairs, hit, -⟩
      cases hit with
      | complete hc => rw [hresult] at hc; cases hc
      | pair hp => rw [hresult] at hp; cases hp

/-- Line splitting as it is meant: whatever the buffer and however the file falls
into chunks, both iterators hand out the lines of the file. -/
def SplitsIntoLines (content : List UInt8) : Prop :=
  ∀ size, 2 ≤ size → ∀ chunks, Reading size (fileCells 0 content) chunks →
    (∃ pairs, Iterates LineIterator.next chunks pairs ∧
      pairs.map LinePair.text = lines content) ∧
    ∃ pairs, Iterates GzipIterator.next chunks pairs ∧ pairs.map LinePair.text = lines content

theorem bytesOf_of_reading {size line : Nat} {content : List UInt8} {chunks : List (List Cell)}
    (h : Reading size (fileCells line content) chunks) : bytesOf chunks = content := by
  rw [bytesOf, h.flatten, map_byte_fileCells]

/-- Splitting a file needs all its lines to fit, also with `fgets` itself. -/
theorem fit_of_splitsIntoLines {content : List UInt8} (hnul : 0 ∉ content)
    (h : SplitsIntoLines content) : ∀ raw ∈ rawLines content, raw.length ≤ intMax := by
  have hread := reading_fgetsAll (show 2 ≤ LineIterator.ioBufferSize by decide)
    (Nat.le_refl (fileCells 0 content).length)
  have hiff := iterates_lines_iff _ (hread.isPlain hnul)
  rw [bytesOf_of_reading hread] at hiff
  exact hiff.mp (h _ (by decide) _ hread).1

/-- A file without NUL is split into its lines exactly when every line, with its
newline, has at most 2^31 - 1 bytes. -/
theorem splitsIntoLines_iff_fit (content : List UInt8) (hnul : 0 ∉ content) :
    SplitsIntoLines content ↔ ∀ raw ∈ rawLines content, raw.length ≤ intMax := by
  refine ⟨fit_of_splitsIntoLines hnul, fun h size _ chunks hread => ?_⟩
  have hiff := iterates_lines_iff chunks (hread.isPlain hnul)
  rw [bytesOf_of_reading hread] at hiff
  exact ⟨hiff.mpr h, hiff.mpr h⟩

/-- Three lines, the second empty and the last without a newline. -/
theorem splitsIntoLines_threeLines :
    SplitsIntoLines (literal "a\n\nbc") ↔
      ∀ raw ∈ rawLines (literal "a\n\nbc"), raw.length ≤ intMax :=
  splitsIntoLines_iff_fit _ (by decide)

/-- A file that is one line of 2^31 bytes. -/
theorem not_splitsIntoLines_longLine :
    ¬ ∀ content : List UInt8, 0 ∉ content → SplitsIntoLines content := by
  intro h
  have hmem : ∀ c : UInt8, c ≠ 97 → c ∉ List.replicate (intMax + 1) (97 : UInt8) :=
    fun c hc hin => hc (List.eq_of_mem_replicate hin)
  have hnul := hmem 0 (by decide)
  have hopen := hmem newline (by decide)
  have hne : List.replicate (intMax + 1) (97 : UInt8) ≠ [] :=
    fun hnil => Nat.succ_ne_zero intMax ((List.replicate_eq_nil_iff _).mp hnil)
  have hfit := fit_of_splitsIntoLines hnul (h _ hnul)
  rw [rawLines_of_open hopen hne, List.forall_mem_singleton, List.length_replicate] at hfit
  exact absurd hfit (Nat.not_succ_le_self intMax)

/-! ## Terminated values -/

/-- A value holds a NUL within its allocation. -/
def LinePair.Terminated (pair : LinePair) : Prop := ∃ cell ∈ pair.value, cell.byte = 0

instance (pair : LinePair) : Decidable pair.Terminated :=
  inferInstanceAs (Decidable (∃ cell ∈ pair.value, cell.byte = 0))

/-- Some call of an iteration returns this pair. -/
inductive Returns (next : List (List Cell) → NextResult) : List (List Cell) → LinePair → Prop
  | here {chunks pair rest} : next chunks = .pair pair rest → Returns next chunks pair
  | later {chunks pair rest pair'} : next chunks = .pair pair rest → Returns next rest pair' →
      Returns next chunks pair'

theorem returns_of_pair {next : List (List Cell) → NextResult} {chunks rest : List (List Cell)}
    {pair : LinePair} (h : next chunks = .pair pair rest) {pair' : LinePair} :
    Returns next chunks pair' ↔ pair' = pair ∨ Returns next rest pair' := by
  constructor
  · intro hret
    cases hret with
    | here hp =>
      rw [h] at hp
      cases hp
      exact Or.inl rfl
    | later hp hrest =>
      rw [h] at hp
      cases hp
      exact Or.inr hrest
  · rintro (rfl | hrest)
    · exact .here h
    · exact .later h hrest

theorem not_returns {next : List (List Cell) → NextResult} {chunks : List (List Cell)}
    (h : ∀ pair rest, next chunks ≠ .pair pair rest) {pair : LinePair} :
    ¬ Returns next chunks pair := by
  intro hret
  cases hret with
  | here hp => exact h _ _ hp
  | later hp => exact h _ _ hp

/-- The file ends where a line ends, or a line keeps the end from being reached. -/
def EndsInNewline (content : List UInt8) : Prop :=
  content = [] ∨ content.getLast? = some newline ∨ ∃ raw ∈ rawLines content, intMax < raw.length

instance (content : List UInt8) : Decidable (EndsInNewline content) :=
  inferInstanceAs (Decidable (_ ∨ _ ∨ ∃ raw ∈ rawLines content, intMax < raw.length))

/-- A line that fits does not matter for how the file ends. -/
theorem endsInNewline_cons_iff {line : List UInt8} (hopen : newline ∉ line)
    (hfits : (line ++ [newline]).length ≤ intMax) (content : List UInt8) :
    EndsInNewline (line ++ newline :: content) ↔ EndsInNewline content := by
  have hne : line ++ newline :: content ≠ [] := by simp
  have hlast : (line ++ newline :: content).getLast? = some newline ↔
      content = [] ∨ content.getLast? = some newline := by
    cases content with
    | nil => simp
    | cons b bs => simp [List.getLast?_append, List.getLast?_cons_cons]
  rw [EndsInNewline, EndsInNewline, rawLines_newline hopen, hlast, or_iff_right hne, or_assoc]
  simp only [List.mem_cons, exists_eq_or_imp, Nat.not_lt_of_le hfits, false_or]

/-- On plain chunks all returned values are terminated exactly when the file ends in a newline. -/
theorem returns_terminated_iff (chunks : List (List Cell))
    (hplain : ∀ chunk ∈ chunks, IsPlain chunk) :
    (∀ pair, Returns (nextLine none) chunks pair → pair.Terminated) ↔
      EndsInNewline (bytesOf chunks) := by
  induction hlen : chunks.length using Nat.strongRecOn generalizing chunks with
  | ind n ih =>
    have houtcome := plainOutcome_next hplain
    generalize hresult : nextLine none chunks = result at houtcome
    cases houtcome with
    | complete hnil =>
      exact iff_of_true (fun pair h => absurd h (not_returns (by simp [hresult]))) (Or.inl hnil)
    | @unterminated value hopen hne hnul hfits hvalue =>
      refine iff_of_false ?_ ?_
      · intro h
        obtain ⟨cell, hcell, hzero⟩ := h _ (.here hresult)
        apply hnul
        rw [← hvalue, ← hzero]
        exact List.mem_map_of_mem hcell
      · rw [EndsInNewline, not_or, not_or, rawLines_of_open hopen hne]
        refine ⟨hne, fun hlast => hopen (List.mem_of_getLast? hlast), ?_⟩
        simpa using hfits
    | @newline line value rest hopen hnul hfits hbytes hvalue hrest hlt =>
      have hterminated : LinePair.Terminated ⟨.ofLiteral "", value⟩ := by
        have hmem : 0 ∈ value.map Cell.byte := by rw [hvalue]; simp
        obtain ⟨cell, hcell, hzero⟩ := List.mem_map.mp hmem
        exact ⟨cell, hcell, hzero⟩
      rw [hbytes, endsInNewline_cons_iff hopen hfits, ← ih rest.length (hlen ▸ hlt) rest hrest rfl]
      simp only [returns_of_pair hresult, forall_eq_or_imp, hterminated, true_and]
    | overflow hlong =>
      exact iff_of_true (fun pair h => absurd h (not_returns (by simp [hresult])))
        (Or.inr (Or.inr hlong))

/-- Every value is a terminated C string, whatever the buffer and however the
file falls into chunks. -/
def TerminatesValues (content : List UInt8) : Prop :=
  ∀ size, 2 ≤ size → ∀ chunks, Reading size (fileCells 0 content) chunks → ∀ pair,
    Returns LineIterator.next chunks pair ∨ Returns GzipIterator.next chunks pair → pair.Terminated

/-- The values of a file without NUL are all terminated exactly when the file is
empty, ends in a newline, or has a line that no call gets past. -/
theorem terminatesValues_iff_endsInNewline (content : List UInt8) (hnul : 0 ∉ content) :
    TerminatesValues content ↔ EndsInNewline content := by
  constructor
  · intro h
    have hread := reading_fgetsAll (show 2 ≤ LineIterator.ioBufferSize by decide)
      (Nat.le_refl (fileCells 0 content).length)
    have hiff := returns_terminated_iff _ (hread.isPlain hnul)
    rw [bytesOf_of_reading hread] at hiff
    exact hiff.mp fun pair hpair => h _ (by decide) _ hread pair (Or.inl hpair)
  · intro h size _ chunks hread pair hpair
    have hiff := returns_terminated_iff chunks (hread.isPlain hnul)
    rw [bytesOf_of_reading hread] at hiff
    exact hiff.mpr h pair (hpair.elim id id)

/-- A file with a final newline. -/
theorem terminatesValues_oneLine :
    TerminatesValues (literal "ab\n") ↔ EndsInNewline (literal "ab\n") :=
  terminatesValues_iff_endsInNewline _ (by decide)

/-- The one line of a file without a final newline is returned without a NUL. -/
theorem not_terminatesValues_openLine :
    ¬ ∀ content : List UInt8, 0 ∉ content → TerminatesValues content := by
  intro h
  have hread : Reading LineIterator.ioBufferSize (fileCells 0 (literal "a"))
      [fileCells 0 (literal "a")] :=
    reading_fgetsAll (by decide) (Nat.le_refl (fileCells 0 (literal "a")).length)
  have hnext : LineIterator.next [fileCells 0 (literal "a")] =
      .pair ⟨.ofLiteral "", fileCells 0 (literal "a")⟩ [] := by decide
  exact absurd (h _ (by decide) _ (by decide) _ hread _ (.inl (.here hnext))) (by decide)

end Meguro
